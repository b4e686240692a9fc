import BeagleCache.TreeCodec
import BeagleCache.MrcTree

/-! What `InitChunkTreeInfo` asks of an array of entries. It looks at types and lengths only and passes hashes and
contents through; it finds the levels by adding up lengths, so it returns exactly when the entries lie in levels
that tile the block and refine each other. -/

namespace BeagleCache

open Tiling Function Run

/-! ## `InitChunkTreeInfo` does not look at hashes and contents -/

/-- The fields of an entry that the loops of `InitChunkTreeInfo` neither read nor write once it is in its place. -/
structure Extras where
  sha1name : Sha1Name
  pChunk : Option Bytes
  freeChunk : Bool
  index : Nat
  offset : Nat

def OneChunkName.extras (name : OneChunkName) : Extras :=
  ⟨name.sha1name, name.pChunk, name.freeChunk, name.index, name.offset⟩

def OneChunkName.withExtras (name : OneChunkName) (x : Extras) : OneChunkName :=
  { name with
    sha1name := x.sha1name
    pChunk := x.pChunk
    freeChunk := x.freeChunk
    index := x.index
    offset := x.offset }

/-- The table with other hashes and contents. -/
def decorate (d : Nat → Extras) (names : NameTable) : NameTable := fun k => (names k).withExtras (d k)

/-- Lengths, hashes and contents are the same. -/
def KeepsContent (names names' : NameTable) : Prop :=
  ∀ k, (names' k).length = (names k).length ∧ (names' k).extras = (names k).extras

section Decorate

variable (d : Nat → Extras) (names : NameTable)

theorem decorate_update (k : Nat) (name : OneChunkName) :
    decorate d (update names k name) = update (decorate d names) k (name.withExtras (d k)) := by
  funext j
  by_cases hj : j = k
  · subst hj
    rw [decorate, update_self, update_self]
  · rw [decorate, update_of_ne hj, update_of_ne hj, decorate]

theorem setLevels_decorate (i : Nat) (levels : List MRCPerLevelInfo) :
    setLevels i levels (decorate d names) = decorate d (setLevels i levels names) := by
  induction levels generalizing i names with
  | nil => rfl
  | cons info rest ih =>
      rw [setLevels, setLevels, ← ih]
      congr 1
      funext k
      simp only [decorate]
      split <;> rfl

theorem adoptChildren_decorate (numNames p e fuel c last : Nat) :
    adoptChildren numNames p e fuel (decorate d names) c last =
      (adoptChildren numNames p e fuel names c last >>= fun r => .ok (decorate d r.1, r.2)) := by
  induction fuel generalizing names c last with
  | zero => rfl
  | succ fuel ih =>
      rw [adoptChildren, adoptChildren]
      by_cases hc : c < numNames
      · rw [check_of hc, ok_bind, ok_bind]
        simp only
        have hupdate : update (decorate d names) c { decorate d names c with parentIdx := some p } =
            decorate d (update names c { names c with parentIdx := some p }) := by
          rw [decorate_update]
          rfl
        have hlen : (decorate d names c).length = (names c).length := rfl
        rw [hupdate, hlen]
        split
        · rfl
        · exact ih _ _ _
      · rw [check, if_neg hc]
        rfl

theorem makeLevel_decorate (numNames n p c parentLength childLength : Nat) :
    makeLevel numNames n (decorate d names) p c parentLength childLength =
      (makeLevel numNames n names p c parentLength childLength >>= fun t => .ok (decorate d t)) := by
  induction n generalizing names p c parentLength childLength with
  | zero => rfl
  | succ n ih =>
      rw [makeLevel, makeLevel]
      by_cases hp : p < numNames
      · rw [check_of hp, ok_bind, ok_bind]
        simp only
        have hlen : (decorate d names p).length = (names p).length := rfl
        rw [hlen, adoptChildren_decorate]
        cases adoptChildren numNames p (parentLength + (names p).length) (numNames + 1) names c childLength with
        | error f => rfl
        | ok r => exact ih _ _ _ _ _
      · rw [check, if_neg hp]
        rfl

theorem makeTree_decorate (numNames : Nat) (levels : List MRCPerLevelInfo) :
    makeTree numNames levels (decorate d names) = (makeTree numNames levels names >>= fun t => .ok (decorate d t)) := by
  induction levels generalizing names with
  | nil => rfl
  | cons upper rest ih =>
      cases rest with
      | nil => rfl
      | cons lower rest =>
          rw [makeTree, makeTree, makeLevel_decorate]
          cases makeLevel numNames upper.numNames names upper.firstIndex lower.firstIndex 0 0 with
          | error f => rfl
          | ok t => exact ih t

theorem assignTypes_decorate (numNames : Nat) (idxs : List Nat) :
    assignTypes numNames idxs (decorate d names) = (assignTypes numNames idxs names >>= fun t => .ok (decorate d t)) := by
  induction idxs generalizing names with
  | nil => rfl
  | cons k rest ih =>
      have hlen : ∀ j, (decorate d names j).length = (names j).length := fun _ => rfl
      have hparent : getParent2 (decorate d names) k = getParent2 names k := rfl
      rw [assignTypes, assignTypes, hparent]
      by_cases hk : k < numNames
      · rw [check_of hk, ok_bind, ok_bind]
        cases getParent2 names k with
        | error f => rfl
        | ok p =>
            rw [ok_bind, ok_bind, hlen p, hlen k]
            by_cases hsame : 0 < k ∧ (names p).length = (names k).length
            · rw [if_pos hsame, if_pos hsame]
              have hrest := ih (update names k { names k with type := .chunkIndex, rindex := p })
              rw [decorate_update] at hrest
              exact hrest
            · rw [if_neg hsame, if_neg hsame]
              by_cases hshort : (names k).length ≤ waproxMinChunkSize
              · rw [if_pos hshort, if_pos hshort]
                have hrest := ih (update names k { names k with type := .chunkRaw })
                rw [decorate_update] at hrest
                exact hrest
              · rw [if_neg hshort, if_neg hshort, show (decorate d names k).type = (names k).type from rfl]
                by_cases hname : (names k).type = .chunkName
                · rw [check_of hname, ok_bind, ok_bind]
                  exact ih names
                · rw [check, if_neg hname]
                  rfl
      · rw [check, if_neg hk]
        rfl

end Decorate

/-! ## What it keeps -/

namespace KeepsContent

variable {names names' names'' : NameTable}

theorem refl (names : NameTable) : KeepsContent names names := fun _ => ⟨rfl, rfl⟩

theorem trans (h : KeepsContent names names') (h' : KeepsContent names' names'') : KeepsContent names names'' :=
  fun k => ⟨(h' k).1.trans (h k).1, (h' k).2.trans (h k).2⟩

theorem update {k : Nat} {name : OneChunkName} (hlen : name.length = (names k).length) (hextras : name.extras = (names k).extras) :
    KeepsContent names (update names k name) := by
  intro j
  by_cases hj : j = k
  · subst hj
    rw [update_self]
    exact ⟨hlen, hextras⟩
  · rw [update_of_ne hj]
    exact ⟨rfl, rfl⟩

end KeepsContent

section Keeps

variable {names names' : NameTable} {numNames : Nat}

theorem setLevels_keeps (i : Nat) (levels : List MRCPerLevelInfo) (names : NameTable) :
    KeepsContent names (setLevels i levels names) := by
  induction levels generalizing i names with
  | nil => exact .refl names
  | cons info rest ih =>
      apply KeepsContent.trans _ (ih (i + 1) _)
      intro k
      simp only
      split <;> exact ⟨rfl, rfl⟩

theorem adoptChildren_keeps {p e fuel c last : Nat} {r : NameTable × Nat × Nat}
    (h : adoptChildren numNames p e fuel names c last = .ok r) : KeepsContent names r.1 := by
  induction fuel generalizing names c last with
  | zero => cases h
  | succ fuel ih =>
      rw [adoptChildren] at h
      obtain ⟨_, -, h⟩ := bind_eq_ok.mp h
      have hupdate : KeepsContent names (update names c { names c with parentIdx := some p }) := .update rfl rfl
      simp only at h
      split at h
      · cases h
        exact hupdate
      · exact hupdate.trans (ih h)

theorem makeLevel_keeps {n p c parentLength childLength : Nat}
    (h : makeLevel numNames n names p c parentLength childLength = .ok names') : KeepsContent names names' := by
  induction n generalizing names p c parentLength childLength with
  | zero =>
      cases h
      exact .refl _
  | succ n ih =>
      rw [makeLevel] at h
      obtain ⟨_, -, h⟩ := bind_eq_ok.mp h
      obtain ⟨r, hr, h⟩ := bind_eq_ok.mp h
      exact (adoptChildren_keeps hr).trans (ih h)

theorem makeTree_keeps {levels : List MRCPerLevelInfo} (h : makeTree numNames levels names = .ok names') :
    KeepsContent names names' := by
  induction levels generalizing names with
  | nil =>
      cases h
      exact .refl _
  | cons upper rest ih =>
      cases rest with
      | nil =>
          cases h
          exact .refl _
      | cons lower rest =>
          rw [makeTree] at h
          obtain ⟨t, ht, h⟩ := bind_eq_ok.mp h
          exact (makeLevel_keeps ht).trans (ih h)

theorem assignTypes_keeps {idxs : List Nat} (h : assignTypes numNames idxs names = .ok names') : KeepsContent names names' := by
  induction idxs generalizing names with
  | nil =>
      cases h
      exact .refl _
  | cons k rest ih =>
      rw [assignTypes] at h
      obtain ⟨_, -, h⟩ := bind_eq_ok.mp h
      obtain ⟨p, -, h⟩ := bind_eq_ok.mp h
      have hupdate : ∀ type rindex, KeepsContent names
          (update names k { names k with type := type, rindex := rindex }) := fun _ _ => .update rfl rfl
      split at h
      · exact (hupdate _ _).trans (ih h)
      · split at h
        · exact (hupdate _ (names k).rindex).trans (ih h)
        · obtain ⟨_, -, h⟩ := bind_eq_ok.mp h
          exact ih h

end Keeps

/-! ## The table behind the copy -/

/-- The entries as they stand after they were copied into zeroed memory. -/
def clip (n : Nat) (names : NameTable) : NameTable := fun k => if k < n then names k else default

theorem placeNames_eq {names table : NameTable} {n : Nat} (hindex : ∀ k, k < n → (names k).index = k) {idxs : List Nat}
    (hidxs : ∀ k ∈ idxs, k < n) :
    placeNames names n idxs table = .ok fun k => if k ∈ idxs then names k else table k := by
  induction idxs generalizing table with
  | nil => simp [placeNames]
  | cons i rest ih =>
      have hi := hidxs i (by simp)
      rw [placeNames, hindex i hi, check_of hi, ok_bind, ih fun k hk => hidxs k (List.mem_cons_of_mem i hk)]
      congr 1
      funext k
      by_cases hk : k = i
      · subst hk
        simp
      · rw [update_of_ne hk]
        simp [hk]

/-- The loops of `InitChunkTreeInfo` behind the copy: the levels and the finished entries. -/
def initTree (cfg : Config) (numNames : Nat) (pNames : NameTable) : Run (List MRCPerLevelInfo × NameTable) := do
  let totLength := (pNames 0).length
  let levels ← countLevels numNames totLength (lenOf pNames) cfg.maxLevel 0
  check (∀ info ∈ levels, (info.range.map (lenOf pNames)).sum = totLength)
  let pNames ← makeTree numNames levels (setLevels 0 levels pNames)
  let pNames ← assignTypes numNames (levels.flatMap MRCPerLevelInfo.range) pNames
  return (levels, pNames)

theorem initChunkTreeInfo_eq {cfg : Config} {names : NameTable} {n : Nat} {seqNo : Int}
    (hindex : ∀ k, k < n → (names k).index = k) (hmax : n ≤ cfg.maxNames) (hpos : 0 < n) :
    initChunkTreeInfo cfg names n seqNo = (initTree cfg n (clip n names) >>= fun r =>
      check (0 < (names 0).length) >>= fun _ => .ok ⟨seqNo, n, r.1.length, r.2, r.1⟩) := by
  have hplaced : placeNames names n (List.range n) default = .ok (clip n names) := by
    rw [placeNames_eq hindex (by simp)]
    congr 1
    funext k
    simp only [List.mem_range, clip]
    rfl
  unfold initChunkTreeInfo initTree
  rw [check_of hmax, ok_bind, hplaced, ok_bind, inBounds_of hpos, ok_bind]
  simp only [bind_assoc]
  rfl

/-- Extras for the entries that were copied; the memory behind them is zeroed. -/
def clipExtras (n : Nat) (d : Nat → Extras) : Nat → Extras :=
  fun k => if k < n then d k else (default : OneChunkName).extras

theorem clip_decorate {names plain : NameTable} {n : Nat} {d : Nat → Extras}
    (h : ∀ k, k < n → names k = (plain k).withExtras (d k)) : clip n names = decorate (clipExtras n d) (clip n plain) := by
  funext k
  by_cases hk : k < n
  · simp only [clip, clipExtras, decorate, if_pos hk, h k hk]
  · simp only [clip, clipExtras, decorate, if_neg hk]
    rfl

section InitTree

variable {cfg : Config} {n : Nat} {names names' : NameTable} {levels : List MRCPerLevelInfo}

theorem initTree_decorate (d : Nat → Extras) :
    initTree cfg n (decorate d names) = (initTree cfg n names >>= fun r => .ok (r.1, decorate d r.2)) := by
  have hlen : lenOf (decorate d names) = lenOf names := rfl
  have hroot : (decorate d names 0).length = (names 0).length := rfl
  unfold initTree
  rw [hlen, hroot]
  simp only [bind_assoc]
  congr 1
  funext levels
  congr 1
  funext _
  rw [setLevels_decorate, makeTree_decorate, bind_assoc]
  congr 1
  funext t
  rw [ok_bind, assignTypes_decorate, bind_assoc]
  rfl

theorem initTree_keeps (h : initTree cfg n names = .ok (levels, names')) : KeepsContent names names' := by
  unfold initTree at h
  obtain ⟨_, -, h⟩ := bind_eq_ok.mp h
  obtain ⟨_, -, h⟩ := bind_eq_ok.mp h
  obtain ⟨t, ht, h⟩ := bind_eq_ok.mp h
  obtain ⟨t', ht', h⟩ := bind_eq_ok.mp h
  cases h
  exact ((setLevels_keeps 0 _ names).trans (makeTree_keeps ht)).trans (assignTypes_keeps ht')

end InitTree

/-! ## Counting the levels -/

section Levels

variable {n tot : Nat} {len : Nat → Nat}

theorem countLevel_sum {fuel i o c : Nat} (h : countLevel n tot len fuel i o = .ok c) :
    0 < c ∧ i + c ≤ n ∧ o + ((List.range' i c).map len).sum = tot := by
  induction fuel generalizing i o c with
  | zero => cases h
  | succ fuel ih =>
      rw [countLevel] at h
      obtain ⟨_, hcheck, h⟩ := bind_eq_ok.mp h
      have hi := check_eq_ok.mp hcheck
      split at h
      · cases h
        simp
        omega
      · obtain ⟨c', hc', hret⟩ := bind_eq_ok.mp h
        cases hret
        obtain ⟨-, hle, hsum⟩ := ih hc'
        rw [List.range'_succ, List.map_cons, List.sum_cons]
        omega

/-- The levels lie one after the other, each as long as the root, and end with the table unless there are as
many as there may be. -/
theorem countLevels_laid {fuel i : Nat} {levels : List MRCPerLevelInfo} (hi : i ≤ n)
    (h : countLevels n tot len fuel i = .ok levels) :
    ∃ e, Tiles MRCPerLevelInfo.firstIndex MRCPerLevelInfo.numNames i e levels ∧ e ≤ n ∧ (e = n ∨ levels.length = fuel) ∧
      levels.length ≤ fuel ∧ ∀ a ∈ levels, (a.range.map len).sum = tot := by
  induction fuel generalizing i levels with
  | zero =>
      cases h
      exact ⟨i, rfl, hi, .inr rfl, le_refl _, by simp⟩
  | succ fuel ih =>
      rw [countLevels] at h
      obtain ⟨c, hc, h⟩ := bind_eq_ok.mp h
      obtain ⟨hpos, hle, hsum⟩ := countLevel_sum hc
      rw [Nat.zero_add] at hsum
      split at h
      case isTrue hend =>
        cases h
        exact ⟨n, ⟨rfl, hpos, hend⟩, le_refl n, .inl rfl, by simp, fun a ha => List.mem_singleton.mp ha ▸ hsum⟩
      case isFalse =>
        obtain ⟨rest, hrest, hret⟩ := bind_eq_ok.mp h
        cases hret
        obtain ⟨e, hlaid, hen, hstop, hlength, hsums⟩ := ih hle hrest
        refine ⟨e, ⟨rfl, hpos, hlaid⟩, hen, ?_, by simpa using hlength, ?_⟩
        · simpa using hstop
        · intro a ha
          rcases List.mem_cons.mp ha with rfl | hmem
          · exact hsum
          · exact hsums a hmem

theorem countLevel_eq {off : Nat → Nat} {fuel i o c : Nat} (htiles : Tiles off len o tot (List.range' i c)) (hlt : o < tot)
    (hn : i + c ≤ n) (hfuel : c ≤ fuel) : countLevel n tot len fuel i o = .ok c := by
  induction c generalizing fuel i o with
  | zero =>
      have : o = tot := htiles
      omega
  | succ c ih =>
      obtain ⟨-, -, htail⟩ := htiles
      cases fuel with
      | zero => omega
      | succ fuel =>
          rw [countLevel, check_of (by omega), ok_bind]
          by_cases hend : o + len i = tot
          · rw [if_pos hend]
            cases c with
            | zero => rfl
            | succ c =>
                have := (tiles_mem htail (x := i + 1) (by simp [List.range'_succ])).2.2
                have := tiles_le htail.2.2
                omega
          · have hle := tiles_le htail
            rw [if_neg hend, ih htail (by omega) (by omega) (by omega)]
            rfl

theorem countLevels_eq {off : Nat → Nat} {fuel i e : Nat} {levels : List MRCPerLevelInfo} (hi : i < n) (htot : 0 < tot)
    (hlaid : Tiles MRCPerLevelInfo.firstIndex MRCPerLevelInfo.numNames i e levels) (hen : e ≤ n)
    (hstop : e = n ∨ levels.length = fuel) (hlength : levels.length ≤ fuel)
    (htiles : ∀ a ∈ levels, Tiles off len 0 tot a.range) : countLevels n tot len fuel i = .ok levels := by
  induction levels generalizing fuel i with
  | nil =>
      have hie : i = e := hlaid
      have hfuel : 0 = fuel := hstop.resolve_left (by omega)
      subst hfuel
      rfl
  | cons a rest ih =>
      obtain ⟨hfirst, hpos, hrest⟩ := hlaid
      have hle := tiles_le hrest
      have hhead := htiles a (by simp)
      rw [MRCPerLevelInfo.range, hfirst] at hhead
      have ha : (⟨a.numNames, i⟩ : MRCPerLevelInfo) = a := by rw [← hfirst]
      cases fuel with
      | zero => simp at hlength
      | succ fuel =>
          rw [countLevels, countLevel_eq hhead htot (by omega) (by omega), ok_bind, ha]
          by_cases hend : i + a.numNames = n
          · rw [if_pos hend]
            cases rest with
            | nil => rfl
            | cons b rest =>
                have := (tiles_mem hrest (x := b) (by simp)).2.2
                have := tiles_le hrest.2.2
                omega
          · rw [if_neg hend, ih (by omega) hrest (by simpa using hstop) (by simpa using hlength)
              fun b hb => htiles b (List.mem_cons_of_mem _ hb)]
            rfl

theorem flatMap_range {i e : Nat} {levels : List MRCPerLevelInfo}
    (hlaid : Tiles MRCPerLevelInfo.firstIndex MRCPerLevelInfo.numNames i e levels) :
    levels.flatMap MRCPerLevelInfo.range = List.range' i (e - i) := by
  induction levels generalizing i with
  | nil =>
      have : i = e := hlaid
      simp [this]
  | cons a rest ih =>
      obtain ⟨hfirst, -, hrest⟩ := hlaid
      have hle := tiles_le hrest
      rw [List.flatMap_cons, ih hrest, MRCPerLevelInfo.range, hfirst, List.range'_append_1]
      congr 1
      omega

theorem exists_offsets {i e : Nat} {levels : List MRCPerLevelInfo}
    (hlaid : Tiles MRCPerLevelInfo.firstIndex MRCPerLevelInfo.numNames i e levels)
    (hsum : ∀ a ∈ levels, (a.range.map len).sum = tot) (hpos : ∀ k, i ≤ k → k < e → 0 < len k) :
    ∃ off : Nat → Nat, ∀ a ∈ levels, Tiles off len 0 tot a.range := by
  induction levels generalizing i with
  | nil => exact ⟨id, by simp⟩
  | cons a rest ih =>
      obtain ⟨hfirst, hnum, hrest⟩ := hlaid
      have hle := tiles_le hrest
      obtain ⟨off, hoff⟩ := ih hrest (fun b hb => hsum b (List.mem_cons_of_mem a hb)) fun k hk hke => hpos k (by omega) hke
      refine ⟨fun k => if k < i + a.numNames then ((List.range' i (k - i)).map len).sum else off k, ?_⟩
      intro b hb
      rcases List.mem_cons.mp hb with rfl | hmem
      · have htiles : Tiles _ len 0 _ (List.range' i b.numNames) := tiles_partialSums fun k hk hlt => hpos k hk (by omega)
        have hsumb := hsum b (by simp)
        rw [MRCPerLevelInfo.range, hfirst] at hsumb ⊢
        rw [hsumb] at htiles
        refine tiles_congr ?_ (fun _ _ => rfl) htiles
        intro k hk
        rw [List.mem_range'_1] at hk
        rw [if_pos hk.2]
      · refine tiles_congr ?_ (fun _ _ => rfl) (hoff b hmem)
        intro k hk
        have hb := (tiles_mem hrest hmem).1
        rw [MRCPerLevelInfo.mem_range] at hk
        rw [if_neg (by omega)]

end Levels

/-! ## Where `MakeTree` returns, the levels refine each other -/

theorem KeepsContent.lenOf_eq {names names' : NameTable} (h : KeepsContent names names') : lenOf names' = lenOf names :=
  funext fun k => (h k).1

section Refines

variable {names names' : NameTable} {n : Nat}

theorem adoptChildren_sum {p e fuel c last : Nat} {r : NameTable × Nat × Nat}
    (h : adoptChildren n p e fuel names c last = .ok r) :
    ∃ m, r.2 = (c + m, e) ∧ last + ((List.range' c m).map (lenOf names)).sum = e := by
  induction fuel generalizing names c last with
  | zero => cases h
  | succ fuel ih =>
      rw [adoptChildren] at h
      obtain ⟨_, -, h⟩ := bind_eq_ok.mp h
      have hkeep : KeepsContent names (update names c { names c with parentIdx := some p }) := .update rfl rfl
      simp only at h
      split at h
      case isTrue hend =>
        cases h
        exact ⟨1, by rw [← hend], by simpa [lenOf] using hend⟩
      case isFalse =>
        obtain ⟨m, hr, hsum⟩ := ih h
        rw [hkeep.lenOf_eq] at hsum
        refine ⟨m + 1, by rw [hr, Nat.add_assoc, Nat.add_comm 1 m], ?_⟩
        rw [List.range'_succ, List.map_cons, List.sum_cons, ← hsum, lenOf]
        omega

/-- The lengths of the first parents are the lengths of some first children, which start at `f`. -/
theorem makeLevel_sums {count p f j parentLength : Nat}
    (h : makeLevel n count names p (f + j) parentLength ((List.range' f j).map (lenOf names)).sum = .ok names') {i : Nat}
    (hi : i < count) :
    ∃ m, ((List.range' f m).map (lenOf names)).sum = parentLength + ((List.range' p (i + 1)).map (lenOf names)).sum := by
  induction count generalizing names p j parentLength i with
  | zero => omega
  | succ count ih =>
      rw [makeLevel] at h
      obtain ⟨_, -, h⟩ := bind_eq_ok.mp h
      obtain ⟨r, hr, h⟩ := bind_eq_ok.mp h
      obtain ⟨m, hr2, hsum⟩ := adoptChildren_sum hr
      have hlen := (adoptChildren_keeps hr).lenOf_eq
      have hchildren : ((List.range' f (j + m)).map (lenOf names)).sum = parentLength + (names p).length := by
        rw [← hsum, ← List.range'_append_1, List.map_append, List.sum_append]
      cases i with
      | zero => exact ⟨j + m, by simpa [lenOf] using hchildren⟩
      | succ i =>
          rw [hr2, Nat.add_assoc, ← hchildren, ← hlen] at h
          obtain ⟨m', hm'⟩ := ih h (i := i) (by omega)
          refine ⟨m', ?_⟩
          rw [hlen] at hm'
          have hparents : List.range' p (i + 1 + 1) = p :: List.range' (p + 1) (i + 1) := List.range'_succ
          rw [hm', hchildren, hparents, List.map_cons, List.sum_cons, lenOf, Nat.add_assoc]

theorem makeLevel_ends {off : Nat → Nat} {tot : Nat} {upper lower : MRCPerLevelInfo}
    (hupper : Tiles off (lenOf names) 0 tot upper.range) (hlower : Tiles off (lenOf names) 0 tot lower.range)
    (h : makeLevel n upper.numNames names upper.firstIndex lower.firstIndex 0 0 = .ok names') :
    ∀ e ∈ ends off (lenOf names) upper.range, e ∈ ends off (lenOf names) lower.range := by
  intro e he
  obtain ⟨x, hx, hxe⟩ := mem_ends.mp he
  have hxmem := tiles_mem hupper hx
  have htot := tiles_sum hlower
  obtain ⟨i, hipos, hi, hsum⟩ := (mem_ends_range' hupper).mp he
  obtain ⟨m, hm⟩ := makeLevel_sums (j := 0) h (i := i - 1) (by omega)
  rw [Nat.sub_add_cancel hipos, hsum, Nat.zero_add] at hm
  rw [MRCPerLevelInfo.range, mem_ends_range' hlower]
  rw [MRCPerLevelInfo.range] at htot
  have hmpos : 0 < m := by
    by_contra hzero
    rw [Nat.eq_zero_of_not_pos hzero] at hm
    simp at hm
    omega
  by_cases hle : m ≤ lower.numNames
  · exact ⟨m, hmpos, hle, hm⟩
  · -- more children than the level has: their lengths reach the end of the block
    have hsplit : List.range' lower.firstIndex m = List.range' lower.firstIndex lower.numNames ++
        List.range' (lower.firstIndex + lower.numNames) (m - lower.numNames) := by
      rw [List.range'_append_1, Nat.add_sub_cancel' (by omega)]
    rw [hsplit, List.map_append, List.sum_append] at hm
    refine ⟨lower.numNames, ?_, le_refl _, by omega⟩
    by_contra hzero
    rw [Nat.eq_zero_of_not_pos hzero] at htot
    simp at htot
    omega

theorem makeTree_refines {off : Nat → Nat} {tot : Nat} {levels : List MRCPerLevelInfo}
    (htiles : ∀ a ∈ levels, Tiles off (lenOf names) 0 tot a.range) (h : makeTree n levels names = .ok names') :
    levels.IsChain fun upper lower =>
      ∀ e ∈ ends off (lenOf names) upper.range, e ∈ ends off (lenOf names) lower.range := by
  induction levels generalizing names with
  | nil => exact List.IsChain.nil
  | cons upper rest ih =>
      cases rest with
      | nil => exact List.IsChain.singleton _
      | cons lower rest =>
          rw [makeTree] at h
          obtain ⟨t, ht, h⟩ := bind_eq_ok.mp h
          have hlen := (makeLevel_keeps ht).lenOf_eq
          have hrest := @ih t (fun a ha => hlen ▸ htiles a (List.mem_cons_of_mem _ ha)) h
          rw [hlen] at hrest
          exact List.isChain_cons_cons.mpr ⟨makeLevel_ends (htiles upper (by simp)) (htiles lower (by simp)) ht, hrest⟩

end Refines

/-! ## The types -/

/-- Entry `k`, whose parent is `p`, has the type `InitChunkTreeInfo` gives it. -/
def RightType (names : NameTable) (p k : Nat) : Prop :=
  if 0 < k ∧ (names p).length = (names k).length then (names k).type = .chunkIndex ∧ (names k).rindex = p
  else if (names k).length ≤ waproxMinChunkSize then (names k).type = .chunkRaw
  else (names k).type = .chunkName

section Types

variable {names names' : NameTable} {n : Nat} {idxs : List Nat}

theorem assignTypes_frame (h : assignTypes n idxs names = .ok names') {k : Nat} (hk : k ∉ idxs) : names' k = names k := by
  induction idxs generalizing names with
  | nil =>
      cases h
      rfl
  | cons j rest ih =>
      rw [List.mem_cons, not_or] at hk
      rw [assignTypes] at h
      obtain ⟨_, -, h⟩ := bind_eq_ok.mp h
      obtain ⟨p, -, h⟩ := bind_eq_ok.mp h
      split at h
      · rw [ih h hk.2, update_of_ne hk.1]
      · split at h
        · rw [ih h hk.2, update_of_ne hk.1]
        · obtain ⟨_, -, h⟩ := bind_eq_ok.mp h
          exact ih h hk.2

theorem assignTypes_right (h : assignTypes n idxs names = .ok names') (hnodup : idxs.Nodup) {k : Nat} (hk : k ∈ idxs) :
    ∃ p, getParent2 names k = .ok p ∧ RightType names' p k := by
  induction idxs generalizing names with
  | nil => cases hk
  | cons j rest ih =>
      obtain ⟨hj, hrest⟩ := List.nodup_cons.mp hnodup
      have hlen := (assignTypes_keeps h).lenOf_eq
      rw [assignTypes] at h
      obtain ⟨_, -, h⟩ := bind_eq_ok.mp h
      obtain ⟨p, hp, h⟩ := bind_eq_ok.mp h
      have hparent : ∀ type rindex i, getParent2 (update names j { names j with type := type, rindex := rindex }) i =
          getParent2 names i := by
        intro type rindex i
        unfold getParent2
        by_cases hi : i = j
        · subst hi
          rw [update_self]
        · rw [update_of_ne hi]
      have hlengths : ∀ i, (names' i).length = (names i).length := congrFun hlen
      split at h
      case isTrue hsame =>
        rcases List.mem_cons.mp hk with rfl | hmem
        · refine ⟨p, hp, ?_⟩
          rw [RightType, hlengths, hlengths, if_pos hsame, assignTypes_frame h hj, update_self]
          exact ⟨rfl, rfl⟩
        · obtain ⟨q, hq, hright⟩ := ih h hrest hmem
          exact ⟨q, hparent _ _ k ▸ hq, hright⟩
      case isFalse hsame =>
        split at h
        case isTrue hshort =>
          rcases List.mem_cons.mp hk with rfl | hmem
          · refine ⟨p, hp, ?_⟩
            rw [RightType, hlengths, hlengths, if_neg hsame, if_pos hshort, assignTypes_frame h hj, update_self]
          · obtain ⟨q, hq, hright⟩ := ih h hrest hmem
            exact ⟨q, hparent _ (names j).rindex k ▸ hq, hright⟩
        case isFalse hshort =>
          obtain ⟨_, hcheck, htail⟩ := bind_eq_ok.mp h
          rcases List.mem_cons.mp hk with rfl | hmem
          · refine ⟨p, hp, ?_⟩
            rw [RightType, hlengths, hlengths, if_neg hsame, if_neg hshort, assignTypes_frame htail hj]
            exact check_eq_ok.mp hcheck
          · exact ih htail hrest hmem

theorem assignTypes_eq_self (h : ∀ k ∈ idxs, k < n ∧ ∃ p, getParent2 names k = .ok p ∧ RightType names p k) :
    assignTypes n idxs names = .ok names := by
  induction idxs with
  | nil => rfl
  | cons k rest ih =>
      obtain ⟨hk, p, hp, hright⟩ := h k (by simp)
      have hrest := ih fun j hj => h j (List.mem_cons_of_mem k hj)
      rw [assignTypes, check_of hk, ok_bind, hp, ok_bind]
      rw [RightType] at hright
      split at hright
      case isTrue hsame =>
        rw [if_pos hsame, ← hright.1, ← hright.2, update_eq_self, hrest]
      case isFalse hsame =>
        rw [if_neg hsame]
        split at hright
        case isTrue hshort => rw [if_pos hshort, ← hright, update_eq_self, hrest]
        case isFalse hshort => rw [if_neg hshort, check_of hright, ok_bind, hrest]

end Types

/-! ## The arrays it accepts -/

/-- The first `e` entries lie in levels one after the other. By the offsets `off` each level tiles the block, which is
as long as the root, and has all the cuts of the level above; each entry has the type that goes with the entry of the
level above it lies in. -/
structure LevelTree (names : NameTable) (off : Nat → Nat) (e : Nat) (levels : List MRCPerLevelInfo) : Prop where
  laid : Tiles MRCPerLevelInfo.firstIndex MRCPerLevelInfo.numNames 0 e levels
  tiles : ∀ a ∈ levels, Tiles off (lenOf names) 0 (names 0).length a.range
  refines : levels.IsChain fun upper lower =>
    ∀ x ∈ ends off (lenOf names) upper.range, x ∈ ends off (lenOf names) lower.range
  root : RightType names 0 0
  types : levels.IsChain fun upper lower => ∀ k ∈ lower.range, ∀ p ∈ upper.range,
    off p ≤ off k ∧ off k + (names k).length ≤ off p + (names p).length → RightType names p k

theorem isChain_and {α : Type} {R S : α → α → Prop} {l : List α} (hR : l.IsChain R) (hS : l.IsChain S) :
    l.IsChain fun a b => R a b ∧ S a b := by
  induction l with
  | nil => exact List.IsChain.nil
  | cons a l ih =>
      rw [List.isChain_cons] at hR hS ⊢
      exact ⟨fun b hb => ⟨hR.1 b hb, hS.1 b hb⟩, ih hR.2 hS.2⟩

theorem exists_upper {α : Type} {R : α → α → Prop} {a : α} {l : List α} (hchain : (a :: l).IsChain R) {b : α} (hb : b ∈ l) :
    ∃ u, R u b := by
  induction l generalizing a with
  | nil => cases hb
  | cons c l ih =>
      obtain ⟨hac, hrest⟩ := List.isChain_cons_cons.mp hchain
      rcases List.mem_cons.mp hb with rfl | hmem
      · exact ⟨a, hac⟩
      · exact ih hrest hmem

theorem laid_isChain {i e : Nat} {levels : List MRCPerLevelInfo}
    (hlaid : Tiles MRCPerLevelInfo.firstIndex MRCPerLevelInfo.numNames i e levels) :
    levels.IsChain fun upper lower => lower.firstIndex = upper.firstIndex + upper.numNames := by
  induction levels generalizing i with
  | nil => exact List.IsChain.nil
  | cons a rest ih =>
      obtain ⟨hfirst, -, hrest⟩ := hlaid
      refine (ih hrest).cons ?_
      intro b hb
      cases rest with
      | nil => cases hb
      | cons c rest =>
          cases hb
          rw [hfirst, hrest.1]

section Stacked

variable {names : NameTable} {off : Nat → Nat} {e n tot : Nat} {levels : List MRCPerLevelInfo}

theorem stacked_of_laid (hoff : offOf names = off)
    (hlaid : Tiles MRCPerLevelInfo.firstIndex MRCPerLevelInfo.numNames 0 e levels) (hen : e ≤ n)
    (htiles : ∀ a ∈ levels, Tiles off (lenOf names) 0 tot a.range)
    (hrefines : levels.IsChain fun upper lower =>
      ∀ x ∈ ends off (lenOf names) upper.range, x ∈ ends off (lenOf names) lower.range) :
    Stacked names tot n levels := by
  subst hoff
  refine ⟨htiles, isChain_and (laid_isChain hlaid) hrefines, ?_⟩
  intro a ha
  have := (tiles_mem hlaid ha).2.1
  omega

theorem head_level_eq {a : MRCPerLevelInfo} {rest : List MRCPerLevelInfo}
    (hlaid : Tiles MRCPerLevelInfo.firstIndex MRCPerLevelInfo.numNames 0 e (a :: rest))
    (htiles : Tiles off (lenOf names) 0 (names 0).length a.range) : a.range = [0] := by
  obtain ⟨hfirst, hnum, -⟩ := hlaid
  rw [MRCPerLevelInfo.range, hfirst] at htiles ⊢
  obtain ⟨c, hc⟩ := Nat.exists_eq_add_of_lt hnum
  rw [hc, Nat.zero_add, List.range'_succ] at htiles ⊢
  cases c with
  | zero => rfl
  | succ c =>
      rw [List.range'_succ] at htiles
      obtain ⟨-, -, -, hpos, htail⟩ := htiles
      have := tiles_le htail
      simp only [lenOf] at this hpos
      omega

end Stacked

theorem setLevels_eq (i : Nat) (levels : List MRCPerLevelInfo) (names : NameTable) (k : Nat) :
    setLevels i levels names k = { names k with level := (setLevels i levels names k).level } := by
  induction levels generalizing i names with
  | nil => rfl
  | cons info rest ih =>
      rw [setLevels, ih]
      simp only
      split <;> rfl

/-- The table with other offsets. -/
def atOffsets (off : Nat → Nat) (names : NameTable) : NameTable :=
  decorate (fun k => { (names k).extras with offset := off k }) names

section Accept

variable {cfg : Config} {names names' : NameTable} {off : Nat → Nat} {e n tot : Nat} {levels : List MRCPerLevelInfo}

theorem makeTree_parents (hlaid : Tiles MRCPerLevelInfo.firstIndex MRCPerLevelInfo.numNames 0 e levels) (hen : e ≤ n)
    (htiles : ∀ a ∈ levels, Tiles off (lenOf names) 0 tot a.range)
    (hrefines : levels.IsChain fun upper lower =>
      ∀ x ∈ ends off (lenOf names) upper.range, x ∈ ends off (lenOf names) lower.range) :
    ∃ t, makeTree n levels (setLevels 0 levels (atOffsets off names)) = .ok t ∧
      (∀ k, t k = { atOffsets off names k with level := (t k).level, parentIdx := (t k).parentIdx }) ∧
      levels.IsChain (Parented t) := by
  have hset := setLevels_eq 0 levels (atOffsets off names)
  have hoff : offOf (setLevels 0 levels (atOffsets off names)) = off := by
    funext k
    rw [offOf, hset k]
    rfl
  have hlen : lenOf (setLevels 0 levels (atOffsets off names)) = lenOf names := by
    funext k
    rw [lenOf, hset k]
    rfl
  obtain ⟨t, ht, hsame, -, hparents⟩ := makeTree_eq (stacked_of_laid hoff hlaid hen (hlen ▸ htiles) (hlen ▸ hrefines))
  refine ⟨t, ht, ?_, hparents⟩
  intro k
  rw [hsame k, hset k]

theorem parent_of_mem {t : NameTable} {a : MRCPerLevelInfo} {rest : List MRCPerLevelInfo}
    {R : MRCPerLevelInfo → MRCPerLevelInfo → Prop} (hparents : (a :: rest).IsChain (Parented t)) (hR : (a :: rest).IsChain R)
    {k : Nat} (hk : k ∈ rest.flatMap MRCPerLevelInfo.range) :
    ∃ upper lower, R upper lower ∧ k ∈ lower.range ∧ ∃ p ∈ upper.range, (t k).parentIdx = some p ∧ Inside t k p := by
  obtain ⟨lower, hlower, hk⟩ := List.mem_flatMap.mp hk
  obtain ⟨upper, hboth⟩ := exists_upper (isChain_and hparents hR) hlower
  exact ⟨upper, lower, hboth.2, hk, hboth.1 k hk⟩

/-- An array in levels passes `InitChunkTreeInfo` with its types as they are. -/
theorem initTree_of_levelTree (hroot : 0 < (names 0).length) (h : LevelTree names off e levels) (hn : 0 < n) (hen : e ≤ n)
    (hstop : e = n ∨ levels.length = cfg.maxLevel) (hlength : levels.length ≤ cfg.maxLevel) :
    ∃ names', initTree cfg n names = .ok (levels, names') ∧
      ∀ k, (names' k).type = (names k).type ∧ (names' k).rindex = (names k).rindex := by
  obtain ⟨t, ht, hsame, hparents⟩ := makeTree_parents h.laid hen h.tiles h.refines
  have hfields : ∀ k, (t k).type = (names k).type ∧ (t k).rindex = (names k).rindex ∧ (t k).length = (names k).length ∧
      (t k).offset = off k := by
    intro k
    rw [hsame k]
    exact ⟨rfl, rfl, rfl, rfl⟩
  have hright : ∀ p k, RightType names p k → RightType t p k := by
    intro p k hr
    unfold RightType at hr ⊢
    rw [(hfields p).2.2.1, (hfields k).2.2.1, (hfields k).1, (hfields k).2.1]
    exact hr
  have hassign : assignTypes n (levels.flatMap MRCPerLevelInfo.range) t = .ok t := by
    apply assignTypes_eq_self
    intro k hk
    have hke : k < e := by
      rw [flatMap_range h.laid, List.mem_range'_1] at hk
      omega
    refine ⟨by omega, ?_⟩
    by_cases hzero : k = 0
    · subst hzero
      exact ⟨0, rfl, hright 0 0 h.root⟩
    · cases levels with
      | nil => cases hk
      | cons a rest =>
          rw [List.flatMap_cons, head_level_eq h.laid (h.tiles a (by simp)), List.mem_append] at hk
          have hrest := hk.resolve_left fun hmem => hzero (List.mem_singleton.mp hmem)
          obtain ⟨upper, lower, htypes, hkl, p, hp, hparent, hinside⟩ := parent_of_mem hparents h.types hrest
          refine ⟨p, ?_, hright p k (htypes k hkl p hp ?_)⟩
          · rw [getParent2, if_neg hzero, hparent]
          · unfold Inside offOf lenOf at hinside
            rwa [(hfields p).2.2.1, (hfields k).2.2.1, (hfields p).2.2.2, (hfields k).2.2.2] at hinside
  have hrun : initTree cfg n (atOffsets off names) = .ok (levels, t) := by
    have hsums : ∀ info ∈ levels, (info.range.map (lenOf names)).sum = (names 0).length := by
      intro info hinfo
      have := tiles_sum (h.tiles info hinfo)
      omega
    unfold initTree
    rw [show lenOf (atOffsets off names) = lenOf names from rfl, show (atOffsets off names 0).length = (names 0).length from rfl]
    simp only
    rw [countLevels_eq hn hroot h.laid hen hstop hlength h.tiles, ok_bind, check_of hsums, ok_bind, ht, ok_bind,
      hassign]
    rfl
  rw [atOffsets, initTree_decorate] at hrun
  obtain ⟨r, hr, hret⟩ := bind_eq_ok.mp hrun
  obtain ⟨hlevels, htable⟩ := Prod.mk.inj (Except.ok.inj hret)
  refine ⟨r.2, by rw [hr, ← hlevels], ?_⟩
  intro k
  have hk := congrFun htable k
  rw [← (hfields k).1, ← (hfields k).2.1, ← hk]
  exact ⟨rfl, rfl⟩

theorem laid_pos (hlaid : Tiles MRCPerLevelInfo.firstIndex MRCPerLevelInfo.numNames 0 e levels) (hn : 0 < n)
    (hstop : e = n ∨ levels.length = cfg.maxLevel) : 0 < e := by
  rcases hstop with rfl | hfull
  · exact hn
  · cases levels with
    | nil =>
        unfold Config.maxLevel at hfull
        split at hfull <;> simp at hfull
    | cons a rest =>
        have := (tiles_mem hlaid (x := a) (by simp)).2
        omega

theorem entries_pos (hright : ∀ k, k < e → ∃ p, RightType names p k)
    (hraw : ∀ k, k < e → (names k).type = .chunkRaw → 0 < (names k).length)
    (hindex : ∀ k, k < e → (names k).type = .chunkIndex → (names k).rindex < k) {k : Nat} (hk : k < e) :
    0 < (names k).length := by
  induction k using Nat.strong_induction_on with
  | _ k ih =>
      obtain ⟨p, hp⟩ := hright k hk
      unfold RightType at hp
      split at hp
      case isTrue hsame =>
        -- an index points at an earlier entry of the same length
        have hlt := hindex k hk hp.1
        rw [hp.2] at hlt
        have hpos := ih p (by omega) (by omega)
        omega
      case isFalse =>
        split at hp
        case isTrue => exact hraw k hk hp
        case isFalse hlong => omega

/-- An array that passes `InitChunkTreeInfo` with its types as they are lies in levels. -/
theorem levelTree_of_initTree (hn : 0 < n) (h : initTree cfg n names = .ok (levels, names'))
    (htype : ∀ k, k < n → (names' k).type = (names k).type)
    (hrindex : ∀ k, k < n → (names k).type = .chunkIndex → (names' k).rindex = (names k).rindex)
    (hraw : ∀ k, k < n → (names k).type = .chunkRaw → 0 < (names k).length)
    (hindex : ∀ k, k < n → (names k).type = .chunkIndex → (names k).rindex < k) :
    ∃ off e, LevelTree names off e levels ∧ e ≤ n ∧ (e = n ∨ levels.length = cfg.maxLevel) ∧
      levels.length ≤ cfg.maxLevel := by
  have hlengths : ∀ k, (names' k).length = (names k).length := fun k => (initTree_keeps h k).1
  unfold initTree at h
  obtain ⟨levels', hcount, h⟩ := bind_eq_ok.mp h
  obtain ⟨_, -, h⟩ := bind_eq_ok.mp h
  obtain ⟨t, ht, h⟩ := bind_eq_ok.mp h
  obtain ⟨t', hassign, hret⟩ := bind_eq_ok.mp h
  obtain ⟨rfl, rfl⟩ := Prod.mk.inj (Except.ok.inj hret)
  obtain ⟨e, hlaid, hen, hstop, hlength, hsums⟩ := countLevels_laid (Nat.zero_le n) hcount
  have hidxs := flatMap_range hlaid
  rw [Nat.sub_zero] at hidxs
  rw [hidxs] at hassign
  have hright : ∀ k, k < e → ∃ p, getParent2 t k = .ok p ∧ RightType names p k := by
    intro k hk
    obtain ⟨p, hp, hr⟩ := assignTypes_right hassign List.nodup_range' (k := k) (by simp [hk])
    refine ⟨p, hp, ?_⟩
    have hkn : k < n := by omega
    unfold RightType at hr ⊢
    rw [hlengths, hlengths, htype k hkn] at hr
    split at hr
    case isTrue hsame =>
      rw [if_pos hsame]
      exact ⟨hr.1, by rw [← hrindex k hkn hr.1, hr.2]⟩
    case isFalse hsame =>
      rw [if_neg hsame]
      exact hr
  have hpos : ∀ k, 0 ≤ k → k < e → 0 < lenOf names k := fun k _ hk =>
    entries_pos (fun j hj => (hright j hj).imp fun _ hp => hp.2) (fun j hj => hraw j (by omega))
      (fun j hj => hindex j (by omega)) hk
  obtain ⟨off, htiles⟩ := exists_offsets hlaid hsums hpos
  have hlen := (setLevels_keeps 0 levels' names).lenOf_eq
  have hrefines := makeTree_refines (fun a ha => hlen ▸ htiles a ha) ht
  rw [hlen] at hrefines
  -- the parents are the entries the children lie in
  obtain ⟨u, hu, hsame, hparents⟩ := makeTree_parents hlaid hen htiles hrefines
  have hparent : ∀ k, (u k).parentIdx = (t k).parentIdx := by
    intro k
    rw [atOffsets, setLevels_decorate, makeTree_decorate, ht, ok_bind] at hu
    rw [← Except.ok.inj hu]
    rfl
  have htypes : levels'.IsChain fun upper lower => ∀ k ∈ lower.range, ∀ p ∈ upper.range,
      off p ≤ off k ∧ off k + (names k).length ≤ off p + (names p).length → RightType names p k := by
    refine List.IsChain.imp_of_mem_imp ?_ (isChain_and (laid_isChain hlaid) hparents)
    rintro upper lower hupper hlower ⟨hfirst, hpar⟩ k hk p hp hinside
    obtain ⟨q, hq, hkq, hin⟩ := hpar k hk
    obtain ⟨r, hr, hright'⟩ := hright k (by
      have := (tiles_mem hlaid hlower).2.1
      rw [MRCPerLevelInfo.mem_range] at hk
      omega)
    have hpq : q = p := by
      unfold Inside offOf lenOf at hin
      rw [hsame q, hsame k] at hin
      have hkpos := (tiles_mem (htiles lower hlower) hk).2.2
      obtain ⟨hin1, hin2⟩ := hin
      exact tiles_unique (htiles upper hupper) hq hp (p := off k) ⟨hin1, Nat.lt_of_lt_of_le (Nat.lt_add_of_pos_right hkpos) hin2⟩
        ⟨hinside.1, Nat.lt_of_lt_of_le (Nat.lt_add_of_pos_right hkpos) hinside.2⟩
    have hkpos : k ≠ 0 := by
      have := (tiles_mem hlaid hupper).2.2
      rw [MRCPerLevelInfo.mem_range] at hk
      omega
    rw [getParent2, if_neg hkpos, ← hparent, hkq] at hr
    rw [← hpq, Except.ok.inj hr]
    exact hright'
  have hroot' : RightType names 0 0 := by
    obtain ⟨p, hp, hr⟩ := hright 0 (laid_pos hlaid hn hstop)
    cases hp
    exact hr
  exact ⟨off, e, ⟨hlaid, htiles, hrefines, hroot', htypes⟩, hen, hstop, hlength⟩

/-- Only types, lengths and the indices that are used matter, and only in the levels. -/
theorem LevelTree.congr (h : LevelTree names off e levels) (he : 0 < e)
    (hlen : ∀ k, k < e → (names' k).length = (names k).length) (htype : ∀ k, k < e → (names' k).type = (names k).type)
    (hrindex : ∀ k, k < e → (names k).type = .chunkIndex → (names' k).rindex = (names k).rindex) :
    LevelTree names' off e levels := by
  have hmem : ∀ a ∈ levels, ∀ k ∈ a.range, k < e := by
    intro a ha k hk
    have := (tiles_mem h.laid ha).2.1
    rw [MRCPerLevelInfo.mem_range] at hk
    omega
  have hright : ∀ p k, p < e → k < e → RightType names p k → RightType names' p k := by
    intro p k hp hk hr
    unfold RightType at hr ⊢
    rw [hlen p hp, hlen k hk, htype k hk]
    split at hr
    case isTrue hsame =>
      rw [if_pos hsame]
      exact ⟨hr.1, by rw [hrindex k hk hr.1, hr.2]⟩
    case isFalse hsame =>
      rw [if_neg hsame]
      exact hr
  have hends : ∀ a ∈ levels, ends off (lenOf names') a.range = ends off (lenOf names) a.range := by
    intro a ha
    apply List.map_congr_left
    intro k hk
    simp only [lenOf, hlen k (hmem a ha k hk)]
  refine ⟨h.laid, ?_, ?_, hright 0 0 he he h.root, ?_⟩
  · intro a ha
    rw [hlen 0 he]
    exact tiles_congr (fun _ _ => rfl) (fun k hk => (hlen k (hmem a ha k hk)).symm) (h.tiles a ha)
  · refine List.IsChain.imp_of_mem_imp ?_ h.refines
    intro upper lower hupper hlower hsub
    rw [hends upper hupper, hends lower hlower]
    exact hsub
  · refine List.IsChain.imp_of_mem_imp ?_ h.types
    intro upper lower hupper hlower hall k hk p hp hinside
    have hke := hmem lower hlower k hk
    have hpe := hmem upper hupper p hp
    rw [hlen k hke, hlen p hpe] at hinside
    exact hright p k hpe hke (hall k hk p hp hinside)

end Accept

end BeagleCache
