import BeagleCache.MrcTree
import BeagleCache.Candidates

/-! `ResolveWithHint` on a chunk tree. It goes through the table in the order of the indices, parents before
children; `Resolved` says what it leaves in an entry: which chunks are hits, which have their SHA1, and
that a SHA1 it leaves is right, also where it is copied from the parent. -/

namespace BeagleCache

open Tiling Function Run

/-- The index `GetParent2` reads. -/
def parentOf (names : NameTable) (k : Nat) : Nat := (names k).parentIdx.getD 0

namespace ChunkTree

variable {psrc : Bytes} {rbSize numNames : Nat} {pli : List MRCPerLevelInfo} {names : NameTable}
  (ht : ChunkTree psrc rbSize numNames pli names)

include ht

theorem pli_pos : 0 < pli.length := by
  by_contra hzero
  have hnil : pli = [] := List.eq_nil_of_length_eq_zero (by omega)
  have hroot := ht.root
  rw [hnil] at hroot
  cases hroot

theorem mem_level {k : Nat} (hk : k < numNames) :
    (names k).level < pli.length ∧ k ∈ (pli.getD (names k).level default).range := by
  obtain ⟨i, hi, hki⟩ := ht.covers k hk
  rw [ht.level_eq i hi k hki]
  exact ⟨hi, hki⟩

theorem mem_range_iff {i k : Nat} (hi : i < pli.length) :
    k ∈ (pli.getD i default).range ↔ k < numNames ∧ (names k).level = i := by
  constructor
  · intro hk
    have hbound := ht.bounds i hi
    exact ⟨by rw [MRCPerLevelInfo.mem_range] at hk; omega, ht.level_eq i hi k hk⟩
  · rintro ⟨hk, rfl⟩
    exact (ht.mem_level hk).2

theorem zero_mem : 0 ∈ (pli.getD 0 default).range := by
  rw [ht.root]
  decide

theorem num_pos : 0 < numNames := ((ht.mem_range_iff ht.pli_pos).mp ht.zero_mem).1

theorem level_pos_iff {k : Nat} (hk : k < numNames) : 0 < (names k).level ↔ k ≠ 0 := by
  constructor
  · rintro hpos rfl
    have := ht.level_eq 0 ht.pli_pos 0 ht.zero_mem
    omega
  · intro hne
    by_contra hzero
    have hmem := (ht.mem_level hk).2
    rw [show (names k).level = 0 by omega, ht.root, MRCPerLevelInfo.mem_range] at hmem
    simp only at hmem
    omega

/-- The parent of an entry below the root stands before it, one level up, and holds its bytes. -/
theorem parent_spec {k : Nat} (hk : k < numNames) (hne : k ≠ 0) :
    (names k).parentIdx = some (parentOf names k) ∧ parentOf names k < k ∧
      (names (parentOf names k)).level + 1 = (names k).level ∧ Inside names k (parentOf names k) := by
  obtain ⟨hlevel, hmem⟩ := ht.mem_level hk
  have hpos := (ht.level_pos_iff hk).mpr hne
  obtain ⟨i, hi⟩ : ∃ i, (names k).level = i + 1 := ⟨(names k).level - 1, by omega⟩
  rw [hi] at hlevel hmem
  obtain ⟨p, hp, hidx, hinside⟩ := ht.parented i hlevel k hmem
  have hparent : parentOf names k = p := by rw [parentOf, hidx, Option.getD_some]
  have hfirst := ht.first_succ i hlevel
  have hplevel := ht.level_eq i (by omega) p hp
  rw [MRCPerLevelInfo.mem_range] at hp hmem
  rw [hparent]
  exact ⟨hidx, by omega, by omega, hinside⟩

theorem getParent2_eq {k : Nat} (hk : k < numNames) :
    getParent2 names k = .ok (if k = 0 then 0 else parentOf names k) := by
  unfold getParent2
  by_cases hzero : k = 0
  · rw [if_pos hzero, if_pos hzero]
  · rw [if_neg hzero, if_neg hzero, (ht.parent_spec hk hzero).1]

theorem chunk_bounds {k : Nat} (hk : k < numNames) :
    offOf names k + lenOf names k ≤ rbSize ∧ 0 < lenOf names k := by
  obtain ⟨hlevel, hmem⟩ := ht.mem_level hk
  obtain ⟨-, hend, hpos⟩ := tiles_mem (ht.tiles _ hlevel) hmem
  exact ⟨hend, hpos⟩

theorem root_eq : offOf names 0 = 0 ∧ lenOf names 0 = rbSize := by
  have htiles := ht.tiles 0 ht.pli_pos
  rw [ht.root] at htiles
  obtain ⟨hoff, -, hend⟩ := htiles
  exact ⟨hoff, by simpa using hend⟩

theorem first_mono {i j : Nat} (hij : i ≤ j) (hj : j < pli.length) :
    (pli.getD i default).firstIndex + (pli.getD i default).numNames ≤
      (pli.getD j default).firstIndex + (pli.getD j default).numNames := by
  obtain ⟨n, rfl⟩ := Nat.exists_eq_add_of_le hij
  induction n with
  | zero => exact le_refl _
  | succ n ih =>
      have := ih (by omega) (by omega)
      have := ht.first_succ (i + n) hj
      rw [show i + (n + 1) = i + n + 1 by omega]
      omega

/-- A chunk as long as its parent is the same chunk. -/
theorem content_eq_parent {k : Nat} (hk : k < numNames) (hne : k ≠ 0)
    (hlen : (names (parentOf names k)).length = (names k).length) :
    (names k).content = (names (parentOf names k)).content := by
  obtain ⟨-, hlt, -, h1, h2⟩ := ht.parent_spec hk hne
  have hlen' : lenOf names (parentOf names k) = lenOf names k := hlen
  have hoff : offOf names (parentOf names k) = offOf names k := by omega
  rw [ht.content_eq k hk, ht.content_eq _ (by omega), hoff, hlen']

end ChunkTree

section Resolved

variable (sha1 : Bytes → Sha1Name) (hint : Sha1Name → Bool)

/-- What `ResolveWithHint` leaves in the entry `k`. -/
structure Resolved (names : NameTable) (k : Nat) : Prop where
  hit_iff : (names k).isHit = true ↔ (names k).length ≤ waproxMinChunkSize ∨
    (k ≠ 0 ∧ (names (parentOf names k)).isHit = true) ∨ hint (sha1 (names k).content) = true
  ready_iff : (names k).isSha1Ready = true ↔ (names k).length ≤ waproxMinChunkSize ∨ k = 0 ∨
    (names (parentOf names k)).isHit = false
  name_eq : (names k).isSha1Ready = true → (names k).sha1name = sha1 (names k).content

/-- The entries before `k` are resolved, the others untouched. -/
structure ResolvedTo (numNames : Nat) (names : NameTable) (k : Nat) : Prop where
  resolved : ∀ j, j < k → Resolved sha1 hint names j
  fresh : FreshFrom names numNames k

end Resolved

section Steps

variable {cfg : Config} {sha1 : Bytes → Sha1Name} {hint : Sha1Name → Bool} {psrc : Bytes} {rbSize numNames : Nat}
  {pli : List MRCPerLevelInfo} {names : NameTable}

theorem Resolved.congr {names' : NameTable} {k : Nat} (h : Resolved sha1 hint names k) (hk : names' k = names k)
    (hp : names' (parentOf names k) = names (parentOf names k)) : Resolved sha1 hint names' k := by
  have hparent : parentOf names' k = parentOf names k := by rw [parentOf, hk, parentOf]
  refine ⟨?_, ?_, ?_⟩
  · rw [hparent, hk, hp]
    exact h.hit_iff
  · rw [hparent, hk, hp]
    exact h.ready_iff
  · rw [hk]
    exact h.name_eq

theorem Resolved.ready_of_miss {k : Nat} (h : Resolved sha1 hint names k) (hmiss : (names k).isHit = false) :
    (names k).isSha1Ready = true := by
  have hnot : ¬ (names k).isHit = true := by simp [hmiss]
  rw [h.hit_iff, not_or, not_or] at hnot
  rw [h.ready_iff]
  by_cases hroot : k = 0
  · exact .inr (.inl hroot)
  · refine .inr (.inr ?_)
    by_contra hhit
    exact hnot.2.1 ⟨hroot, by simpa using hhit⟩

/-- One entry is resolved; nothing else changes. -/
structure StepTo (names names' : NameTable) (k : Nat) : Prop where
  tree : SameTree names names'
  others : ∀ j, j ≠ k → names' j = names j
  mark : (names' k).isCandidate = (names k).isCandidate

theorem stepTo_update {k : Nat} {name : OneChunkName} (hshape : name.shape = (names k).shape)
    (hmark : name.isCandidate = (names k).isCandidate) : StepTo names (update names k name) k :=
  ⟨sameTree_update hshape, fun _ hj => update_of_ne hj .., by rw [update_self]; exact hmark⟩

/-- An entry rewritten in place is resolved when its new value says so of the old tree. -/
theorem resolved_update (ht : ChunkTree psrc rbSize numNames pli names) {k : Nat} (hk : k < numNames) {name : OneChunkName}
    (hshape : name.shape = (names k).shape)
    (hhit : name.isHit = true ↔ (names k).length ≤ waproxMinChunkSize ∨
      (k ≠ 0 ∧ (names (parentOf names k)).isHit = true) ∨ hint (sha1 (names k).content) = true)
    (hready : name.isSha1Ready = true ↔ (names k).length ≤ waproxMinChunkSize ∨ k = 0 ∨
      (names (parentOf names k)).isHit = false)
    (hname : name.isSha1Ready = true → name.sha1name = sha1 (names k).content) :
    Resolved sha1 hint (update names k name) k := by
  have htree := sameTree_update hshape
  have hself : update names k name k = name := update_self ..
  have hlen : name.length = (names k).length := congrArg ChunkShape.length hshape
  have hcontent : name.content = (names k).content := by
    have := htree.content_eq k
    rwa [hself] at this
  have hparent : parentOf (update names k name) k = parentOf names k := by
    rw [parentOf, htree.parentIdx_eq k, parentOf]
  -- the entry of the parent is another one, except that the root has none
  have hpar : k ≠ 0 → update names k name (parentOf names k) = names (parentOf names k) := by
    intro hne
    have := (ht.parent_spec hk hne).2.1
    exact update_of_ne (by omega) ..
  refine ⟨?_, ?_, ?_⟩
  · rw [hparent, hself, hlen, hcontent, hhit]
    by_cases hne : k = 0
    · simp [hne]
    · rw [hpar hne]
  · rw [hparent, hself, hlen, hready]
    by_cases hne : k = 0
    · simp [hne]
    · rw [hpar hne]
  · rw [hself, hcontent]
    exact hname

/-- The loop body resolves the entry at hand and none of its assertions fails. -/
theorem resolveChunk_eq (cfg : Config) (ht : ChunkTree psrc rbSize numNames pli names) {k : Nat} (hk : k < numNames)
    (hto : ResolvedTo sha1 hint numNames names k) :
    ∃ names', resolveChunk cfg sha1 hint numNames psrc rbSize names k (offOf names k) = .ok names' ∧
      StepTo names names' k ∧ Resolved sha1 hint names' k := by
  obtain ⟨hbound, hpos⟩ := ht.chunk_bounds hk
  have hlen : (names k).length = lenOf names k := rfl
  have hoff : offOf names k = (names k).offset := rfl
  have hcontent : (psrc.drop (offOf names k)).take (names k).length = (names k).content := (ht.content_eq k hk).symm
  obtain ⟨hfresh1, hfresh2⟩ := hto.fresh k (le_refl k) hk
  have hverify : ∀ n digest, n = (names k).length → digest = sha1 (names k).content →
      verifySHA1 cfg sha1 ((psrc.drop (offOf names k)).take n) digest = true := by
    intro n digest hn hdigest
    rw [hn, hcontent, hdigest]
    simp [verifySHA1]
  unfold resolveChunk
  rw [check_of hk, ok_bind, ht.getParent2_eq hk, ok_bind]
  simp only
  rw [check_of (by omega), check_of hoff]
  simp only [ok_bind]
  have hstep : ∀ name : OneChunkName, name.shape = (names k).shape → name.isCandidate = (names k).isCandidate →
      (name.isHit = true ↔ (names k).length ≤ waproxMinChunkSize ∨
        (k ≠ 0 ∧ (names (parentOf names k)).isHit = true) ∨ hint (sha1 (names k).content) = true) →
      (name.isSha1Ready = true ↔ (names k).length ≤ waproxMinChunkSize ∨ k = 0 ∨
        (names (parentOf names k)).isHit = false) →
      (name.isSha1Ready = true → name.sha1name = sha1 (names k).content) →
      ∃ names', (pure (update names k name) : Run NameTable) = .ok names' ∧ StepTo names names' k ∧
        Resolved sha1 hint names' k :=
    fun name hshape hmark hhit hready hname =>
      ⟨_, rfl, stepTo_update hshape hmark, resolved_update ht hk hshape hhit hready hname⟩
  by_cases hsmall : (names k).length ≤ waproxMinChunkSize
  · rw [if_pos hsmall]
    exact hstep _ rfl rfl (by simp [hsmall]) (by simp [checkNameHint, hsmall]) (fun _ => rfl)
  · rw [if_neg hsmall]
    by_cases hroot : k = 0
    · subst hroot
      have hv := hverify (checkNameHint sha1 hint (names 0)).length (checkNameHint sha1 hint (names 0)).sha1name rfl rfl
      rw [if_pos rfl, check_of hv, ok_bind]
      exact hstep _ rfl rfl (by simp [checkNameHint, hsmall]) (by simp [checkNameHint]) (fun _ => rfl)
    · rw [if_neg hroot, if_neg hroot]
      obtain ⟨-, hplt, -, -⟩ := ht.parent_spec hk hroot
      by_cases hphit : (names (parentOf names k)).isHit = true
      · rw [if_pos hphit]
        exact hstep _ rfl rfl (by simp [hroot, hphit]) (by simp [hfresh2, hsmall, hroot, hphit])
          (by simp [hfresh2])
      · rw [if_neg hphit]
        have hpmiss : (names (parentOf names k)).isHit = false := by simpa using hphit
        by_cases hsame : (names (parentOf names k)).length = (names k).length
        · -- the name of a missed parent of the same length is copied
          have hpar := hto.resolved _ hplt
          have hpready := hpar.ready_of_miss hpmiss
          have hpname := hpar.name_eq hpready
          rw [← ht.content_eq_parent hk hroot hsame] at hpname
          have hnohint : hint (sha1 (names k).content) = false := by
            have hnot := hpar.hit_iff.not.mp hphit
            rw [not_or, not_or, ← ht.content_eq_parent hk hroot hsame] at hnot
            simpa using hnot.2.2
          rw [if_pos hsame, check_of hpready, check_of hpmiss]
          simp only [ok_bind]
          rw [check_of (hverify _ _ rfl hpname), ok_bind]
          exact hstep _ rfl rfl (by simp [hsmall, hpmiss, hnohint]) (by simp [hpmiss]) (fun _ => hpname)
        · have hv := hverify (checkNameHint sha1 hint (names k)).length (checkNameHint sha1 hint (names k)).sha1name rfl rfl
          rw [if_neg hsame, check_of hv, ok_bind]
          exact hstep _ rfl rfl (by simp [checkNameHint, hsmall, hpmiss]) (by simp [checkNameHint, hpmiss]) (fun _ => rfl)

/-- Entries resolved and nothing else changed but their hits and names. -/
structure RunTo (sha1 : Bytes → Sha1Name) (hint : Sha1Name → Bool) (numNames : Nat) (names names' : NameTable) (k : Nat) :
    Prop where
  tree : SameTree names names'
  marks : ∀ j, (names' j).isCandidate = (names j).isCandidate
  done : ResolvedTo sha1 hint numNames names' k

theorem StepTo.runTo {names' : NameTable} {k : Nat} (ht : ChunkTree psrc rbSize numNames pli names) (hk : k < numNames)
    (hto : ResolvedTo sha1 hint numNames names k) (hstep : StepTo names names' k)
    (hres : Resolved sha1 hint names' k) : RunTo sha1 hint numNames names names' (k + 1) := by
  refine ⟨hstep.tree, ?_, ?_, ?_⟩
  · intro j
    by_cases hj : j = k
    · rw [hj]
      exact hstep.mark
    · rw [hstep.others j hj]
  · intro j hj
    by_cases hjk : j = k
    · rw [hjk]
      exact hres
    · by_cases hroot : j = 0
      · -- the root has no parent that could have changed
        subst hroot
        have hold := hto.resolved 0 (by omega)
        have hsame := hstep.others 0 hjk
        refine ⟨?_, ?_, ?_⟩
        · rw [hsame]
          simpa using hold.hit_iff
        · rw [hsame]
          simpa using hold.ready_iff
        · rw [hsame]
          exact hold.name_eq
      · have hplt := (ht.parent_spec (by omega) hroot).2.1
        exact (hto.resolved j (by omega)).congr (hstep.others j hjk) (hstep.others _ (by omega))
  · intro j hj hlt
    rw [hstep.others j (by omega)]
    exact hto.fresh j (by omega) hlt

theorem RunTo.trans {names' names'' : NameTable} {k k' : Nat} (h : RunTo sha1 hint numNames names names' k)
    (h' : RunTo sha1 hint numNames names' names'' k') : RunTo sha1 hint numNames names names'' k' :=
  ⟨h.tree.trans h'.tree, fun j => (h'.marks j).trans (h.marks j), h'.done⟩

theorem resolveLevel_eq (cfg : Config) (ht : ChunkTree psrc rbSize numNames pli names) {n k offset : Nat}
    (hto : ResolvedTo sha1 hint numNames names k) (htiles : Tiles (offOf names) (lenOf names) offset rbSize (List.range' k n))
    (hnum : k + n ≤ numNames) :
    ∃ names' hits, resolveLevel cfg sha1 hint numNames psrc rbSize n names k offset = .ok (names', hits) ∧
      RunTo sha1 hint numNames names names' (k + n) := by
  induction n generalizing names k offset with
  | zero => exact ⟨names, 0, rfl, SameTree.refl names, fun _ => rfl, hto⟩
  | succ n ih =>
      rw [List.range'_succ] at htiles
      obtain ⟨hoff, -, htail⟩ := htiles
      obtain ⟨names₁, hrun, hstep, hres⟩ := resolveChunk_eq cfg ht (show k < numNames by omega) hto
      have hto₁ := hstep.runTo ht (by omega) hto hres
      have hlen : (names₁ k).length = lenOf names k := congrFun hstep.tree.lenOf_eq k
      rw [← hstep.tree.offOf_eq, ← hstep.tree.lenOf_eq] at htail
      obtain ⟨names', hits, hrest, hto'⟩ := ih (hstep.tree.tree ht) hto₁.done htail (by omega)
      rw [hstep.tree.lenOf_eq] at hrest
      refine ⟨names', hits + if (names₁ k).isHit then 1 else 0, ?_, ?_⟩
      · rw [resolveLevel, ← hoff, hrun, ok_bind, hlen, hoff, hrest]
        rfl
      · rw [show k + (n + 1) = k + 1 + n by omega]
        exact hto₁.trans hto'

/-- The loop over the levels ends with every entry down to the level it returns resolved. -/
theorem resolveLevels_eq (cfg : Config) (ht : ChunkTree psrc rbSize numNames pli names) {i : Nat} (lowLevel : Nat) (hi : i < pli.length)
    (hto : ResolvedTo sha1 hint numNames names (pli.getD i default).firstIndex) :
    ∃ names' low, resolveLevels cfg sha1 hint numNames psrc rbSize (pli.drop i) i lowLevel names = .ok (names', low) ∧
      low < pli.length ∧
      RunTo sha1 hint numNames names names' ((pli.getD low default).firstIndex + (pli.getD low default).numNames) := by
  obtain ⟨n, hn⟩ := Nat.exists_eq_add_of_lt hi
  induction n generalizing names i lowLevel with
  | zero =>
      obtain ⟨names', hits, hrun, hto'⟩ := resolveLevel_eq cfg ht hto (ht.tiles i hi) (ht.bounds i hi)
      have hnil : pli.drop (i + 1) = [] := List.drop_eq_nil_of_le (by omega)
      refine ⟨names', i, ?_, hi, hto'⟩
      rw [List.drop_eq_getElem_cons hi, hnil, resolveLevels, ← List.getD_eq_getElem _ default hi, hrun, ok_bind]
      split <;> rfl
  | succ n ih =>
      have hi' : i + 1 < pli.length := by omega
      obtain ⟨names₁, hits, hrun, hto₁⟩ := resolveLevel_eq cfg ht hto (ht.tiles i hi) (ht.bounds i hi)
      rw [List.drop_eq_getElem_cons hi, resolveLevels, ← List.getD_eq_getElem _ default hi, hrun, ok_bind]
      by_cases hall : hits = (pli.getD i default).numNames
      · refine ⟨names₁, i, ?_, hi, hto₁⟩
        rw [if_pos hall]
        rfl
      · have hnext := hto₁.done
        rw [← ht.first_succ i hi'] at hnext
        obtain ⟨names', low, hrest, hlow, hto'⟩ := ih (hto₁.tree.tree ht) i hi' hnext (by omega)
        refine ⟨names', low, ?_, hlow, hto₁.trans hto'⟩
        rw [if_neg hall]
        exact hrest

/-- `ResolveWithHint` returns on every tree; down to `lowLevel` every entry is resolved. -/
theorem resolveWithHint_eq (cfg : Config) (sha1 : Bytes → Sha1Name) (hint : Sha1Name → Bool)
    (ht : ChunkTree psrc rbSize numNames pli names) (hfresh : FreshFrom names numNames 0) :
    ∃ names' low, resolveWithHint cfg sha1 hint numNames psrc rbSize pli names = .ok (names', low) ∧
      low < pli.length ∧ SameTree names names' ∧ (∀ j, (names' j).isCandidate = (names j).isCandidate) ∧
      ∀ k, k < numNames → (names' k).level ≤ low → Resolved sha1 hint names' k := by
  have hto : ResolvedTo sha1 hint numNames names (pli.getD 0 default).firstIndex := by
    rw [ht.root]
    exact ⟨fun j hj => by simp at hj, hfresh⟩
  obtain ⟨names', low, hrun, hlow, hto'⟩ := resolveLevels_eq cfg ht 0 ht.pli_pos hto
  refine ⟨names', low, hrun, hlow, hto'.tree, hto'.marks, ?_⟩
  intro k hk hlevel
  have ht' := hto'.tree.tree ht
  apply hto'.done.resolved
  have hmem := (ht'.mem_level hk).2
  have hmono := ht'.first_mono hlevel hlow
  rw [MRCPerLevelInfo.mem_range] at hmem
  omega

end Steps

end BeagleCache
