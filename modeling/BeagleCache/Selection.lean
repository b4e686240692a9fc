import BeagleCache.Merge

/-! The candidate list of a block. `GetCandidateList2` collects the marked entries and sorts them by offset;
they are the chosen nodes of the resolved tree, so they tile the block, and the hash of each was computed
because its parent is no hit. -/

namespace BeagleCache

open Tiling Collapse

instance : Std.Total compareOneChunkName := ⟨fun a b => Nat.le_total a.offset b.offset⟩

instance : IsTrans OneChunkName compareOneChunkName := ⟨fun _ _ _ hab hbc => Nat.le_trans hab hbc⟩

theorem collectCandidates_eq (names : NameTable) (idxs : List Nat)
    (hready : ∀ k ∈ idxs, (names k).isCandidate = true → (names k).isSha1Ready = true) :
    collectCandidates names idxs = .ok ((idxs.filter fun k => (names k).isCandidate).map names) := by
  induction idxs with
  | nil => rfl
  | cons k rest ih =>
      have hrest := ih fun j hj => hready j (List.mem_cons_of_mem k hj)
      rw [collectCandidates, hrest, List.filter_cons]
      by_cases hmark : (names k).isCandidate = true
      · rw [if_pos hmark, if_pos hmark, check_of (hready k (by simp) hmark)]
        rfl
      · rw [if_neg hmark, if_neg hmark]

section Sorted

variable {n : Nat} {names : NameTable} {idxs : List Nat}

theorem mem_qsort {xs : List OneChunkName} {x : OneChunkName} : x ∈ qsort xs ↔ x ∈ xs :=
  List.mem_insertionSort _

/-- Entries that cover each position exactly once tile the block when they are sorted. -/
theorem tiles_qsort (hnodup : idxs.Nodup)
    (hrange : ∀ k ∈ idxs, offOf names k + lenOf names k ≤ n ∧ 0 < lenOf names k)
    (hcover : ∀ p, p < n → ∃ k ∈ idxs, Holds (offOf names) (lenOf names) k p)
    (hunique : ∀ j ∈ idxs, ∀ k ∈ idxs, ∀ p, Holds (offOf names) (lenOf names) j p →
      Holds (offOf names) (lenOf names) k p → j = k) :
    Tiles OneChunkName.offset OneChunkName.length 0 n (qsort (idxs.map names)) := by
  apply tiles_of_cover (Nat.zero_le n)
  · exact List.pairwise_insertionSort compareOneChunkName _
  · intro x hx
    obtain ⟨k, hk, rfl⟩ := List.mem_map.mp (mem_qsort.mp hx)
    exact ⟨Nat.zero_le _, hrange k hk⟩
  · intro p _ hp
    obtain ⟨k, hk, hkp⟩ := hcover p hp
    exact ⟨names k, mem_qsort.mpr (List.mem_map_of_mem hk), hkp⟩
  · have hsymm : ∀ {x y : OneChunkName},
        (∀ p, ¬ (Holds OneChunkName.offset OneChunkName.length x p ∧ Holds OneChunkName.offset OneChunkName.length y p)) →
        ∀ p, ¬ (Holds OneChunkName.offset OneChunkName.length y p ∧ Holds OneChunkName.offset OneChunkName.length x p) :=
      fun h p hp => h p ⟨hp.2, hp.1⟩
    rw [qsort, (List.perm_insertionSort compareOneChunkName (idxs.map names)).pairwise_iff hsymm, List.pairwise_map]
    refine hnodup.imp_of_mem ?_
    intro j k hj hk hne p hp
    exact hne (hunique j hj k hk p hp.1 hp.2)

end Sorted

section Selected

variable (sha1 : Bytes → Sha1Name) (psrc : Bytes)

/-- A candidate list as the receiver needs it: the candidates tile the block in list order, each stands for
the table entry it names, and its hash is ready and that of its bytes. -/
structure Selected (rbSize : Nat) (names : NameTable) (cands : List OneCandidate) : Prop where
  tiles : Tiles OneCandidate.offset OneCandidate.length 0 rbSize cands
  entry : ∀ c ∈ cands, c = toCandidate (names c.index)
  ready : ∀ c ∈ cands, (names c.index).isSha1Ready = true
  name_eq : ∀ c ∈ cands, c.sha1name = sha1 ((psrc.drop c.offset).take c.length)

end Selected

section List

variable {cfg : Config} {sha1 : Bytes → Sha1Name} {hint : Sha1Name → Bool} {psrc : Bytes} {rbSize numNames : Nat}
  {pli : List MRCPerLevelInfo} {base : NameTable} (ht : ChunkTree psrc rbSize numNames pli base) {low : Nat}
  (hlow : low < pli.length) (hresolved : ∀ k, k < numNames → (base k).level ≤ low → Resolved sha1 hint base k)

include hresolved

theorem hit_inherited (c k : Nat) (hc : (ht.levelTree hlow).Child c k) (hk : HitIn base k) : HitIn base c := by
  obtain ⟨hnode, hpos, hp⟩ := hc
  have hp : parentOf base c = k := hp
  apply (hresolved c hnode.1 hnode.2).hit_iff.mpr
  exact .inr (.inl ⟨(ht.level_pos_iff hnode.1).mp hpos, by rw [hp]; exact hk⟩)

theorem chosen_ready {k : Nat} (hk : Chosen (ht.levelTree hlow) (HitIn base) k) : (base k).isSha1Ready = true := by
  have hnode := hk.1.node
  apply (hresolved k hnode.1 hnode.2).ready_iff.mpr
  by_cases hzero : k = 0
  · exact .inr (.inl hzero)
  · have hmiss := hk.parent_miss (hit_inherited ht hlow hresolved) ((ht.level_pos_iff hnode.1).mpr hzero)
    exact .inr (.inr (Bool.eq_false_iff.mpr hmiss))

/-- `GetCandidateList2` on a resolved tree returns the chosen nodes. -/
theorem getCandidateList2_eq (hunmarked : Unmarked base numNames) (hmax : 1 < cfg.maxNames)
    (hnum : numNames ≤ cfg.maxNames) (hways : cfg.numMRCWays = 1 → pli.length = 1) :
    ∃ cands names', getCandidateList2 cfg numNames pli low base = .ok (cands, names') ∧ SameButMarks base names' ∧
      Selected sha1 psrc rbSize names' cands ∧
      ∀ c, c ∈ cands ↔ ∃ k, Chosen (ht.levelTree hlow) (HitIn base) k ∧ c = toCandidate (names' k) := by
  obtain ⟨names', hrun, hsame, hmarks⟩ := mergeCandidates_eq ht hlow hunmarked hmax hnum hways
  have ht' := hsame.sameTree.tree ht
  have hcollect := collectCandidates_eq names' (List.range numNames) (by
    intro k hk hmark
    rw [hsame.isSha1Ready_eq]
    exact chosen_ready ht hlow hresolved ((hmarks k (List.mem_range.mp hk)).mp hmark))
  have hmem : ∀ k, k ∈ (List.range numNames).filter (fun k => (names' k).isCandidate) ↔
      Chosen (ht.levelTree hlow) (HitIn base) k := by
    intro k
    rw [List.mem_filter, List.mem_range]
    constructor
    · rintro ⟨hk, hmark⟩
      exact (hmarks k hk).mp hmark
    · intro hk
      exact ⟨hk.1.node.1, (hmarks k hk.1.node.1).mpr hk⟩
  generalize hidxs : (List.range numNames).filter (fun k => (names' k).isCandidate) = idxs at hmem hcollect
  have hholds : ∀ k p, Holds (offOf names') (lenOf names') k p ↔
      Holds (ht.levelTree hlow).off (ht.levelTree hlow).len k p := by
    intro k p
    rw [hsame.sameTree.offOf_eq, hsame.sameTree.lenOf_eq]
    exact Iff.rfl
  have htiles : Tiles OneChunkName.offset OneChunkName.length 0 rbSize (qsort (idxs.map names')) := by
    apply tiles_qsort
    · rw [← hidxs]
      exact List.nodup_range.filter _
    · intro k hk
      exact ht'.chunk_bounds ((hmem k).mp hk).1.node.1
    · intro p hp
      obtain ⟨k, hk, hkp⟩ := exists_chosen (HitIn base) (show p < (ht.levelTree hlow).size from hp)
      exact ⟨k, (hmem k).mpr hk, (hholds k p).mpr hkp⟩
    · intro j hj k hk p hjp hkp
      exact chosen_unique ((hmem j).mp hj) ((hmem k).mp hk) ((hholds j p).mp hjp) ((hholds k p).mp hkp)
  have hcands : ∀ c, c ∈ (qsort (idxs.map names')).map toCandidate ↔
      ∃ k, Chosen (ht.levelTree hlow) (HitIn base) k ∧ c = toCandidate (names' k) := by
    intro c
    constructor
    · intro hc
      obtain ⟨x, hx, rfl⟩ := List.mem_map.mp hc
      obtain ⟨k, hk, rfl⟩ := List.mem_map.mp (mem_qsort.mp hx)
      exact ⟨k, (hmem k).mp hk, rfl⟩
    · rintro ⟨k, hk, rfl⟩
      exact List.mem_map_of_mem (mem_qsort.mpr (List.mem_map_of_mem ((hmem k).mpr hk)))
  have hindex : ∀ k, Chosen (ht.levelTree hlow) (HitIn base) k → (toCandidate (names' k)).index = k :=
    fun k hk => ht'.index_eq k hk.1.node.1
  refine ⟨(qsort (idxs.map names')).map toCandidate, names', ?_, hsame, ⟨?_, ?_, ?_, ?_⟩, hcands⟩
  · have hsum := tiles_sum htiles
    have hroot : (names' 0).length = rbSize := ht'.root_eq.2
    have hlevel : (pli.getD low default).numNames ≤ numNames := by
      have := ht.bounds low hlow
      omega
    unfold getCandidateList2
    rw [MRCPerLevelInfo.range] at hrun
    simp only
    rw [check_of hlevel, Run.ok_bind, hrun, Run.ok_bind, hcollect, Run.ok_bind, hroot, check_of (by omega), Run.ok_bind]
    rfl
  · exact tiles_map.mpr htiles
  · intro c hc
    obtain ⟨k, hk, rfl⟩ := (hcands c).mp hc
    rw [hindex k hk]
  · intro c hc
    obtain ⟨k, hk, rfl⟩ := (hcands c).mp hc
    rw [hindex k hk, hsame.isSha1Ready_eq]
    exact chosen_ready ht hlow hresolved hk
  · intro c hc
    obtain ⟨k, hk, rfl⟩ := (hcands c).mp hc
    have hnode := hk.1.node
    have hname := (hresolved k hnode.1 hnode.2).name_eq (chosen_ready ht hlow hresolved hk)
    calc (toCandidate (names' k)).sha1name = (base k).sha1name := hsame.sha1name_eq k
      _ = sha1 (base k).content := hname
      _ = sha1 (names' k).content := by rw [hsame.sameTree.content_eq]
      _ = _ := by rw [ht'.content_eq k hnode.1]; rfl

end List

end BeagleCache
