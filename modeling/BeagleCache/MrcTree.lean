import BeagleCache.MrcTables
import Mathlib.Data.List.Chain
import Mathlib.Data.List.GetD

/-! The tree `MakeTree` builds over the levels. Its inner loop stops only where the lengths of the
children add up to exactly the end of the parent, so it relies on each level refining the one above.
`MrcTree` is what the rest of the program may assume of a tree; `DoPreMRC` followed by `MakeTree`
establishes it. -/

namespace BeagleCache

open Tiling

def offOf (names : NameTable) (k : Nat) : Nat := (names k).offset

def lenOf (names : NameTable) (k : Nat) : Nat := (names k).length

/-- The indices of a level. -/
def MRCPerLevelInfo.range (info : MRCPerLevelInfo) : List Nat := List.range' info.firstIndex info.numNames

theorem MRCPerLevelInfo.mem_range {info : MRCPerLevelInfo} {k : Nat} :
    k ∈ info.range ↔ info.firstIndex ≤ k ∧ k < info.firstIndex + info.numNames := by
  rw [MRCPerLevelInfo.range, List.mem_range'_1]

/-- Chunk `k` lies inside chunk `p`. -/
def Inside (names : NameTable) (k p : Nat) : Prop :=
  offOf names p ≤ offOf names k ∧ offOf names k + lenOf names k ≤ offOf names p + lenOf names p

/-! ## One level of `MakeTree` -/

/-- The table after the `j` entries from `c` on got the parent `p`. -/
def setParents (names : NameTable) (p c j : Nat) : NameTable :=
  fun i => if c ≤ i ∧ i < c + j then { names i with parentIdx := some p } else names i

@[simp] theorem offOf_setParents (names : NameTable) (p c j : Nat) : offOf (setParents names p c j) = offOf names := by
  funext i
  simp only [offOf, setParents]
  split <;> rfl

@[simp] theorem lenOf_setParents (names : NameTable) (p c j : Nat) : lenOf (setParents names p c j) = lenOf names := by
  funext i
  simp only [lenOf, setParents]
  split <;> rfl

theorem inside_setParents {names : NameTable} {p c j i q : Nat} :
    Inside (setParents names p c j) i q ↔ Inside names i q := by
  rw [Inside, Inside, offOf_setParents, lenOf_setParents]

theorem update_eq_setParents (names : NameTable) (p c : Nat) :
    Function.update names c { names c with parentIdx := some p } = setParents names p c 1 := by
  funext i
  by_cases hi : i = c
  · subst hi
    simp [setParents]
  · rw [Function.update_of_ne hi, setParents, if_neg (by omega)]

theorem setParents_succ (names : NameTable) (p c j : Nat) :
    setParents (setParents names p c 1) p (c + 1) j = setParents names p c (j + 1) := by
  funext i
  simp only [setParents]
  by_cases hc : i = c
  · subst hc
    rw [if_neg (by omega), if_pos (by omega), if_pos (by omega)]
  · by_cases hin : c + 1 ≤ i ∧ i < c + 1 + j
    · rw [if_pos hin, if_neg (by omega), if_pos (by omega)]
    · rw [if_neg hin, if_neg (by omega), if_neg (by omega)]

/-- The inner loop gives the parent to the children up to the one that ends where the parent ends. -/
theorem adoptChildren_eq {names : NameTable} {numNames p e n k c last fuel : Nat}
    (htiles : Tiles (offOf names) (lenOf names) last n (List.range' c k))
    (hend : e ∈ ends (offOf names) (lenOf names) (List.range' c k)) (hnum : c + k ≤ numNames) (hfuel : k < fuel) :
    ∃ j, j ≤ k ∧ Tiles (offOf names) (lenOf names) last e (List.range' c j) ∧
      Tiles (offOf names) (lenOf names) e n (List.range' (c + j) (k - j)) ∧
      adoptChildren numNames p e fuel names c last = .ok (setParents names p c j, c + j, e) := by
  induction k generalizing names c last fuel with
  | zero => simp [ends] at hend
  | succ k ih =>
      cases fuel with
      | zero => omega
      | succ fuel =>
          rw [List.range'_succ] at htiles hend
          obtain ⟨hoff, hpos, htail⟩ := htiles
          have hlen : (names c).length = lenOf names c := rfl
          rw [adoptChildren, check_of (by omega), Run.ok_bind]
          simp only [update_eq_setParents]
          rw [hlen]
          by_cases hstop : last + lenOf names c = e
          · refine ⟨1, by omega, ?_, ?_, ?_⟩
            · exact ⟨hoff, hpos, hstop⟩
            · rw [← hstop]
              exact htail
            · rw [if_pos hstop, hstop]
              rfl
          · have hrest : e ∈ ends (offOf names) (lenOf names) (List.range' (c + 1) k) := by
              obtain ⟨x, hx, hxe⟩ := mem_ends.mp hend
              rcases List.mem_cons.mp hx with rfl | hx
              · exact absurd (hoff ▸ hxe) hstop
              · exact mem_ends.mpr ⟨x, hx, hxe⟩
            rw [← offOf_setParents names p c 1, ← lenOf_setParents names p c 1] at htail hrest
            obtain ⟨j, hj, hfront, hback, hrun⟩ := ih htail hrest (by omega) (show k < fuel by omega)
            simp only [offOf_setParents, lenOf_setParents] at hfront hback hrun
            refine ⟨j + 1, by omega, ?_, ?_, ?_⟩
            · rw [List.range'_succ]
              exact ⟨hoff, hpos, hfront⟩
            · rw [show c + (j + 1) = c + 1 + j by omega, show k + 1 - (j + 1) = k - j by omega]
              exact hback
            · rw [if_neg hstop, hrun, setParents_succ, show c + 1 + j = c + (j + 1) by omega]

/-- The loop over one level gives every chunk of the next level the chunk it lies in, when the parents'
ends are ends of the children. -/
theorem makeLevel_eq {names : NameTable} {numNames n m p k c last : Nat}
    (hparents : Tiles (offOf names) (lenOf names) last n (List.range' p m))
    (hchildren : Tiles (offOf names) (lenOf names) last n (List.range' c k))
    (hends : ∀ e ∈ ends (offOf names) (lenOf names) (List.range' p m),
      e ∈ ends (offOf names) (lenOf names) (List.range' c k))
    (hnum : c + k ≤ numNames) (hpnum : p + m ≤ numNames) :
    ∃ names', makeLevel numNames m names p c last last = .ok names' ∧
      (∀ i, ¬ (c ≤ i ∧ i < c + k) → names' i = names i) ∧
      ∀ i, c ≤ i → i < c + k → ∃ q, p ≤ q ∧ q < p + m ∧
        names' i = { names i with parentIdx := some q } ∧ Inside names i q := by
  induction m generalizing names p k c last with
  | zero =>
      have hlast : last = n := hparents
      subst hlast
      have hk : k = 0 := by
        cases k with
        | zero => rfl
        | succ k =>
            rw [List.range'_succ] at hchildren
            have := tiles_le hchildren.2.2
            have := hchildren.2.1
            omega
      subst hk
      exact ⟨names, rfl, fun _ _ => rfl, fun i _ _ => by omega⟩
  | succ m ih =>
      rw [List.range'_succ] at hparents hends
      obtain ⟨hoff, hpos, htail⟩ := hparents
      have hlen : (names p).length = lenOf names p := rfl
      have hhead := hends (last + lenOf names p) (mem_ends.mpr ⟨p, List.mem_cons_self, by rw [hoff]⟩)
      obtain ⟨j, hj, hfront, hback, hrun⟩ := adoptChildren_eq (p := p) hchildren hhead hnum
        (show k < numNames + 1 by omega)
      have hrest : ∀ e ∈ ends (offOf names) (lenOf names) (List.range' (p + 1) m),
          e ∈ ends (offOf names) (lenOf names) (List.range' (c + j) (k - j)) := by
        intro e he
        obtain ⟨x, hx, hxe⟩ := mem_ends.mp (hends e (by
          obtain ⟨y, hy, hye⟩ := mem_ends.mp he
          exact mem_ends.mpr ⟨y, List.mem_cons_of_mem p hy, hye⟩))
        -- a later parent ends behind the children that were adopted
        obtain ⟨y, hy, hye⟩ := mem_ends.mp he
        have hlater := tiles_mem htail hy
        refine mem_ends.mpr ⟨x, ?_, hxe⟩
        rw [List.mem_range'_1] at hx ⊢
        by_cases hxj : x < c + j
        · have := (tiles_mem hfront (List.mem_range'_1.mpr ⟨hx.1, hxj⟩)).2.1
          omega
        · omega
      rw [← offOf_setParents names p c j, ← lenOf_setParents names p c j] at htail hback hrest
      obtain ⟨names', hlevel, hframe, hadopt⟩ := ih htail hback hrest (by omega) (by omega)
      rw [lenOf_setParents] at hlevel
      refine ⟨names', ?_, ?_, ?_⟩
      · rw [makeLevel, check_of (by omega), Run.ok_bind]
        simp only [hlen]
        rw [hrun, Run.ok_bind]
        exact hlevel
      · intro i hi
        rw [hframe i (by omega), setParents, if_neg (by omega)]
      · intro i hci hik
        by_cases hij : i < c + j
        · have hbound := tiles_mem hfront (List.mem_range'_1.mpr ⟨hci, hij⟩)
          refine ⟨p, le_refl p, by omega, ?_, ?_⟩
          · rw [hframe i (by omega), setParents, if_pos ⟨hci, hij⟩]
          · exact ⟨by omega, by omega⟩
        · obtain ⟨q, hpq, hqm, heq, hinside⟩ := hadopt i (by omega) (by omega)
          refine ⟨q, by omega, by omega, ?_, ?_⟩
          · rw [heq, setParents, if_neg (by omega)]
          · exact inside_setParents.mp hinside

/-! ## The whole tree -/

/-- The level `lower` follows `upper` in the table and has all its cuts. -/
def Follows (names : NameTable) (upper lower : MRCPerLevelInfo) : Prop :=
  lower.firstIndex = upper.firstIndex + upper.numNames ∧
    ∀ e ∈ ends (offOf names) (lenOf names) upper.range, e ∈ ends (offOf names) (lenOf names) lower.range

/-- Levels that lie one after the other in the table, tile the block and refine each other. -/
structure Stacked (names : NameTable) (rbSize numNames : Nat) (pli : List MRCPerLevelInfo) : Prop where
  tiles : ∀ a ∈ pli, Tiles (offOf names) (lenOf names) 0 rbSize a.range
  follows : pli.IsChain (Follows names)
  bounds : ∀ a ∈ pli, a.firstIndex + a.numNames ≤ numNames

/-- The parent of each chunk of `lower` is the chunk of `upper` it lies in. -/
def Parented (names : NameTable) (upper lower : MRCPerLevelInfo) : Prop :=
  ∀ k ∈ lower.range, ∃ p ∈ upper.range, (names k).parentIdx = some p ∧ Inside names k p

/-- Two tables that differ in parents at most. -/
def SameButParents (names names' : NameTable) : Prop :=
  ∀ k, names' k = { names k with parentIdx := (names' k).parentIdx }

theorem SameButParents.offOf_eq {names names' : NameTable} (h : SameButParents names names') :
    offOf names' = offOf names := by
  funext k
  rw [offOf, h k]
  rfl

theorem SameButParents.lenOf_eq {names names' : NameTable} (h : SameButParents names names') :
    lenOf names' = lenOf names := by
  funext k
  rw [lenOf, h k]
  rfl

theorem SameButParents.trans {names names' names'' : NameTable} (h : SameButParents names names')
    (h' : SameButParents names' names'') : SameButParents names names'' := by
  intro k
  rw [h' k, h k]

theorem Stacked.congr {names names' : NameTable} {rbSize numNames : Nat} {pli : List MRCPerLevelInfo}
    (hsame : SameButParents names names') (h : Stacked names rbSize numNames pli) :
    Stacked names' rbSize numNames pli := by
  have hfollows : Follows names' = Follows names := by
    funext upper lower
    rw [Follows, Follows, hsame.offOf_eq, hsame.lenOf_eq]
  refine ⟨?_, ?_, h.bounds⟩
  · rw [hsame.offOf_eq, hsame.lenOf_eq]
    exact h.tiles
  · rw [hfollows]
    exact h.follows

/-- `MakeTree` returns and changes nothing but parents; each chunk below the root gets the chunk of the
level above that it lies in. -/
theorem makeTree_eq {names : NameTable} {rbSize numNames : Nat} {pli : List MRCPerLevelInfo}
    (h : Stacked names rbSize numNames pli) :
    ∃ names', makeTree numNames pli names = .ok names' ∧ SameButParents names names' ∧
      (∀ a ∈ pli.head?, ∀ k, k < a.firstIndex + a.numNames → names' k = names k) ∧
      pli.IsChain (Parented names') := by
  induction pli generalizing names with
  | nil => exact ⟨names, rfl, fun _ => rfl, by simp, List.IsChain.nil⟩
  | cons upper pli ih =>
      cases pli with
      | nil => exact ⟨names, rfl, fun _ => rfl, by simp, List.IsChain.singleton _⟩
      | cons lower rest =>
          obtain ⟨⟨hfirst, hends⟩, hchain⟩ := List.isChain_cons_cons.mp h.follows
          have hupper := h.bounds upper (by simp)
          have hlower := h.bounds lower (by simp)
          obtain ⟨names₁, hrun, hframe, hadopt⟩ := makeLevel_eq (h.tiles upper (by simp)) (h.tiles lower (by simp))
            hends hlower hupper
          have hsame₁ : SameButParents names names₁ := by
            intro k
            by_cases hk : lower.firstIndex ≤ k ∧ k < lower.firstIndex + lower.numNames
            · obtain ⟨q, -, -, heq, -⟩ := hadopt k hk.1 hk.2
              rw [heq]
            · rw [hframe k hk]
          have hstacked : Stacked names rbSize numNames (lower :: rest) :=
            ⟨fun a ha => h.tiles a (List.mem_cons_of_mem _ ha), hchain,
              fun a ha => h.bounds a (List.mem_cons_of_mem _ ha)⟩
          obtain ⟨names', hrest, hsame', hkeep, hparents⟩ := ih (hstacked.congr hsame₁)
          refine ⟨names', ?_, hsame₁.trans hsame', ?_, ?_⟩
          · rw [makeTree, hrun, Run.ok_bind, hrest]
          · intro a ha k hk
            cases ha
            rw [hkeep lower rfl k (by omega), hframe k (by omega)]
          · rw [List.isChain_cons_cons]
            refine ⟨?_, hparents⟩
            intro k hk
            rw [MRCPerLevelInfo.mem_range] at hk
            obtain ⟨q, hq, hqm, heq, hinside⟩ := hadopt k hk.1 hk.2
            refine ⟨q, MRCPerLevelInfo.mem_range.mpr ⟨hq, hqm⟩, ?_, ?_⟩
            · rw [hkeep lower rfl k hk.2, heq]
            · rw [Inside, (hsame₁.trans hsame').offOf_eq, (hsame₁.trans hsame').lenOf_eq]
              exact hinside

/-! ## The levels of `DoPreMRC` are stacked -/

theorem namesOf_getElem? (table : NameTable) (psrc : Bytes) (level index : Nat) (spans : List (Nat × Nat)) (j : Nat) :
    (namesOf table psrc level index spans)[j]? = spans[j]?.map fun s =>
      freshChunk (table (index + j)) (index + j) level s.1 s.2 (psrc.drop s.1) := by
  induction spans generalizing index j with
  | nil => simp [namesOf]
  | cons s spans ih =>
      cases j with
      | zero => simp [namesOf]
      | succ j =>
          rw [namesOf, List.getElem?_cons_succ, ih, List.getElem?_cons_succ]
          simp only [show index + 1 + j = index + (j + 1) by omega]

/-- Where a level of the tree and its entry of `pli` stand in a table. -/
structure LevelAt (table names : NameTable) (psrc : Bytes) (level : Nat) (L : List (Nat × Nat)) (a : MRCPerLevelInfo) :
    Prop where
  numNames_eq : a.numNames = L.length
  chunk_eq : ∀ j s, L[j]? = some s → names (a.firstIndex + j) =
    freshChunk (table (a.firstIndex + j)) (a.firstIndex + j) level s.1 s.2 (psrc.drop s.1)

section LevelAt

variable {table names : NameTable} {psrc : Bytes} {level : Nat} {L : List (Nat × Nat)} {a : MRCPerLevelInfo}

/-- The chunks of a level, read from the table. -/
theorem LevelAt.spans_eq (h : LevelAt table names psrc level L a) :
    a.range.map (fun k => (offOf names k, lenOf names k)) = L := by
  apply List.ext_getElem?
  intro j
  by_cases hj : j < L.length
  · have hL : L[j]? = some L[j] := List.getElem?_eq_getElem hj
    have hrange : a.range[j]? = some (a.firstIndex + j) := by
      rw [MRCPerLevelInfo.range, List.getElem?_range' (by rw [h.numNames_eq]; exact hj), Nat.one_mul]
    rw [List.getElem?_map, hrange, hL, Option.map_some, offOf, lenOf, h.chunk_eq j _ hL]
    rfl
  · have hlen : a.range.length = L.length := by simp [MRCPerLevelInfo.range, h.numNames_eq]
    rw [List.getElem?_eq_none (by simp; omega), List.getElem?_eq_none (by omega)]

theorem LevelAt.tiles_iff (h : LevelAt table names psrc level L a) {n : Nat} :
    Tiles (offOf names) (lenOf names) 0 n a.range ↔ Tiles Prod.fst Prod.snd 0 n L := by
  rw [← h.spans_eq, tiles_map]
  rfl

theorem LevelAt.ends_eq (h : LevelAt table names psrc level L a) :
    ends (offOf names) (lenOf names) a.range = spanEnds L := by
  rw [← h.spans_eq, spanEnds, ends, ends, List.map_map]
  rfl

theorem LevelAt.chunk (h : LevelAt table names psrc level L a) {k : Nat} (hk : k ∈ a.range) :
    names k = freshChunk (table k) k level (offOf names k) (lenOf names k) (psrc.drop (offOf names k)) := by
  rw [MRCPerLevelInfo.mem_range, h.numNames_eq] at hk
  obtain ⟨j, rfl⟩ := Nat.exists_eq_add_of_le hk.1
  have hj : j < L.length := by omega
  have hL : L[j]? = some L[j] := List.getElem?_eq_getElem hj
  rw [offOf, lenOf, h.chunk_eq j _ hL]
  rfl

end LevelAt

/-- The entries of `pli` lie one after the other, from `index` up to the number of names. -/
theorem levelNames_contiguous (table : NameTable) (psrc : Bytes) (level index : Nat) (levels : List (List (Nat × Nat))) :
    let pli := (levelNames table psrc level index levels).map Prod.fst
    let numNames := ((levelNames table psrc level index levels).flatMap Prod.snd).length
    (∀ a ∈ pli.head?, a.firstIndex = index) ∧
      pli.IsChain (fun a b => b.firstIndex = a.firstIndex + a.numNames) ∧
      (∀ a ∈ pli, index ≤ a.firstIndex ∧ a.firstIndex + a.numNames ≤ index + numNames) ∧
      ∀ k, index ≤ k → k < index + numNames → ∃ a ∈ pli, k ∈ a.range := by
  induction levels generalizing level index with
  | nil =>
      refine ⟨by simp [levelNames], List.IsChain.nil, by simp [levelNames], ?_⟩
      intro k hk hlt
      simp [levelNames] at hlt
      omega
  | cons L levels ih =>
      obtain ⟨hhead, hchain, hbounds, hcovers⟩ := ih (level + 1) (index + L.length)
      simp only [levelNames, List.map_cons, List.flatMap_cons, List.length_append, namesOf_length]
      refine ⟨by simp, ?_, ?_, ?_⟩
      · rw [List.isChain_cons]
        exact ⟨hhead, hchain⟩
      · intro a ha
        rcases List.mem_cons.mp ha with rfl | ha
        · simp only
          omega
        · have := hbounds a ha
          omega
      · intro k hk hlt
        by_cases hfirst : k < index + L.length
        · exact ⟨⟨L.length, index⟩, by simp, MRCPerLevelInfo.mem_range.mpr ⟨hk, hfirst⟩⟩
        · obtain ⟨a, ha, hka⟩ := hcovers k (by omega) (by omega)
          exact ⟨a, List.mem_cons_of_mem _ ha, hka⟩

/-- In a table that holds the names, each level stands where `pli` says. -/
theorem levelNames_levelAt {table names : NameTable} {psrc : Bytes} {level index : Nat} {levels : List (List (Nat × Nat))}
    (hnames : ∀ j x, ((levelNames table psrc level index levels).flatMap Prod.snd)[j]? = some x → names (index + j) = x)
    {i : Nat} {a : MRCPerLevelInfo} (ha : ((levelNames table psrc level index levels).map Prod.fst)[i]? = some a) :
    ∃ L, levels[i]? = some L ∧ LevelAt table names psrc (level + i) L a := by
  induction levels generalizing level index i with
  | nil => simp [levelNames] at ha
  | cons L levels ih =>
      simp only [levelNames, List.map_cons, List.flatMap_cons] at hnames ha
      cases i with
      | zero =>
          cases ha
          refine ⟨L, rfl, rfl, ?_⟩
          intro j s hs
          apply hnames
          have hj : j < L.length := (List.getElem?_eq_some_iff.mp hs).1
          rw [List.getElem?_append_left (by simpa using hj), namesOf_getElem?, hs]
          rfl
      | succ i =>
          rw [List.getElem?_cons_succ] at ha ⊢
          rw [show level + (i + 1) = level + 1 + i by omega]
          refine ih ?_ ha
          intro j x hx
          rw [Nat.add_assoc]
          apply hnames
          rw [List.getElem?_append_right (by simp), namesOf_length, Nat.add_sub_cancel_left]
          exact hx

/-- The levels of a block, written to the table, are stacked. -/
theorem levelNames_stacked {table names : NameTable} {psrc : Bytes} {levels : List (List (Nat × Nat))} {rbSize : Nat}
    (hnames : ∀ j x, ((levelNames table psrc 0 0 levels).flatMap Prod.snd)[j]? = some x → names j = x)
    (htiles : ∀ L ∈ levels, Tiles Prod.fst Prod.snd 0 rbSize L) (hrefines : levels.IsChain Refines) :
    Stacked names rbSize ((levelNames table psrc 0 0 levels).flatMap Prod.snd).length
      ((levelNames table psrc 0 0 levels).map Prod.fst) := by
  obtain ⟨-, hchain, hbounds, -⟩ := levelNames_contiguous table psrc 0 0 levels
  have hat : ∀ i a, ((levelNames table psrc 0 0 levels).map Prod.fst)[i]? = some a →
      ∃ L, levels[i]? = some L ∧ LevelAt table names psrc i L a := by
    intro i a ha
    have hnames' : ∀ j x, ((levelNames table psrc 0 0 levels).flatMap Prod.snd)[j]? = some x → names (0 + j) = x := by
      simpa using hnames
    simpa using levelNames_levelAt hnames' ha
  refine ⟨?_, ?_, fun a ha => by have := (hbounds a ha).2; omega⟩
  · intro a ha
    obtain ⟨i, hi⟩ := List.mem_iff_getElem?.mp ha
    obtain ⟨L, hL, hlevel⟩ := hat i a hi
    exact hlevel.tiles_iff.mpr (htiles L (List.mem_of_getElem? hL))
  · rw [List.isChain_iff_getElem] at hchain hrefines ⊢
    intro i hi
    obtain ⟨L, hL, hlevel⟩ := hat i _ (List.getElem?_eq_getElem (by omega))
    obtain ⟨L', hL', hlevel'⟩ := hat (i + 1) _ (List.getElem?_eq_getElem hi)
    obtain ⟨hlt, rfl⟩ := List.getElem?_eq_some_iff.mp hL
    obtain ⟨hlt', rfl⟩ := List.getElem?_eq_some_iff.mp hL'
    refine ⟨hchain i hi, ?_⟩
    rw [hlevel.ends_eq, hlevel'.ends_eq]
    exact (hrefines i hlt').1

/-! ## The levels as lists of names -/

/-- The names of level `i`, where `pli` says they are. -/
def PreMRC.level (r : PreMRC) (i : Nat) : List OneChunkName :=
  (r.pNames.drop (r.pli.getD i default).firstIndex).take (r.pli.getD i default).numNames

/-- What `DoPreMRC` promises of its names: the levels `InitMRCParams` counted, the first one the block as a
whole, each a tiling of the block that keeps the cuts of the one above, new chunks longer than the
minimum. -/
structure WellFormedBlock (cfg : Config) (psrc : Bytes) (r : PreMRC) : Prop where
  maxLevel_eq : r.maxLevel = cfg.maxLevel
  pli_length : r.pli.length = r.maxLevel
  root : ∃ x, r.level 0 = [x] ∧ x.offset = 0 ∧ x.length = r.rbSize
  tiles : ∀ i, i < r.maxLevel → Tiles OneChunkName.offset OneChunkName.length 0 r.rbSize (r.level i)
  level_eq : ∀ i, i < r.maxLevel → ∀ x ∈ r.level i, x.level = i ∧ x.pChunk = some (psrc.drop x.offset)
  refines : ∀ i, i + 1 < r.maxLevel → ∀ e ∈ ends OneChunkName.offset OneChunkName.length (r.level i),
    e ∈ ends OneChunkName.offset OneChunkName.length (r.level (i + 1))
  long : ∀ i, i + 1 < r.maxLevel → ∀ x ∈ r.level (i + 1),
    x.offset + x.length ∉ ends OneChunkName.offset OneChunkName.length (r.level i) → waproxMinChunkSize < x.length

theorem namesOf_tiles {table : NameTable} {psrc : Bytes} {level index a n : Nat} {spans : List (Nat × Nat)} :
    Tiles OneChunkName.offset OneChunkName.length a n (namesOf table psrc level index spans) ↔
      Tiles Prod.fst Prod.snd a n spans := by
  induction spans generalizing index a with
  | nil => exact Iff.rfl
  | cons s spans ih => simp only [namesOf, tiles_cons, ih, freshChunk]

theorem namesOf_ends {table : NameTable} {psrc : Bytes} {level index : Nat} {spans : List (Nat × Nat)} :
    ends OneChunkName.offset OneChunkName.length (namesOf table psrc level index spans) = spanEnds spans := by
  induction spans generalizing index with
  | nil => rfl
  | cons s spans ih =>
      simp only [ends, spanEnds, namesOf, List.map_cons] at ih ⊢
      rw [ih]
      rfl

theorem namesOf_mem {table : NameTable} {psrc : Bytes} {level index : Nat} {spans : List (Nat × Nat)} {x : OneChunkName}
    (hx : x ∈ namesOf table psrc level index spans) :
    (x.offset, x.length) ∈ spans ∧ x.level = level ∧ x.pChunk = some (psrc.drop x.offset) := by
  induction spans generalizing index with
  | nil => cases hx
  | cons s spans ih =>
      rcases List.mem_cons.mp hx with rfl | hx
      · exact ⟨by simp [freshChunk], rfl, rfl⟩
      · obtain ⟨hmem, hrest⟩ := ih hx
        exact ⟨List.mem_cons_of_mem s hmem, hrest⟩

theorem levelNames_slice (table : NameTable) (psrc : Bytes) (level index : Nat) {levels : List (List (Nat × Nat))} {i : Nat}
    {L : List (Nat × Nat)} (hL : levels[i]? = some L) :
    ∃ first, ((levelNames table psrc level index levels).map Prod.fst)[i]? = some ⟨L.length, index + first⟩ ∧
      (((levelNames table psrc level index levels).flatMap Prod.snd).drop first).take L.length =
        namesOf table psrc (level + i) (index + first) L := by
  induction levels generalizing level index i with
  | nil => cases hL
  | cons L₀ levels ih =>
      cases i with
      | zero =>
          cases hL
          refine ⟨0, rfl, ?_⟩
          simp only [levelNames, List.flatMap_cons, List.drop_zero, Nat.add_zero]
          rw [List.take_left' (namesOf_length ..)]
      | succ i =>
          obtain ⟨first, hpli, hslice⟩ := ih (level + 1) (index + L₀.length) hL
          refine ⟨L₀.length + first, ?_, ?_⟩
          · rw [levelNames, List.map_cons, List.getElem?_cons_succ, hpli, Nat.add_assoc]
          · simp only [levelNames, List.flatMap_cons]
            rw [show level + (i + 1) = level + 1 + i by omega, ← Nat.add_assoc, ← hslice, ← List.drop_drop,
              List.drop_left' (namesOf_length ..)]

theorem preMRCOf_level (table : NameTable) (psrc : Bytes) (rbSize : Nat) {levels : List (List (Nat × Nat))}
    (rctx : RabinCtx) {i : Nat} {L : List (Nat × Nat)} (hL : levels[i]? = some L) :
    ∃ first, (preMRCOf table psrc rbSize levels rctx).level i = namesOf table psrc i first L := by
  obtain ⟨first, hpli, hslice⟩ := levelNames_slice table psrc 0 0 hL
  refine ⟨0 + first, ?_⟩
  rw [PreMRC.level, preMRCOf, List.getD_eq_getElem?_getD, hpli, Option.getD_some, Nat.zero_add]
  rw [Nat.zero_add, Nat.zero_add] at hslice
  exact hslice

section Block

variable {cfg : Config} {window minSize maxSize : Nat} {psrc : Bytes}

theorem preMRCOf_wellFormed (window minSize : Nat) (hcfg : cfg.Sized) (hsrc : psrc ≠ []) (hmax : 0 < maxSize) (table : NameTable)
    (rctx : RabinCtx) :
    WellFormedBlock cfg psrc (preMRCOf table psrc (blockSize cfg window minSize maxSize psrc)
      (blockLevels cfg window minSize maxSize psrc) rctx) := by
  have hlength := blockLevels_length window minSize maxSize psrc hcfg
  have hlevel : ∀ i, i < (blockLevels cfg window minSize maxSize psrc).length → ∃ L first,
      (blockLevels cfg window minSize maxSize psrc)[i]? = some L ∧
      (preMRCOf table psrc (blockSize cfg window minSize maxSize psrc) (blockLevels cfg window minSize maxSize psrc)
        rctx).level i = namesOf table psrc i first L := by
    intro i hi
    obtain ⟨first, hfirst⟩ := preMRCOf_level table psrc _ rctx (List.getElem?_eq_getElem hi)
    exact ⟨_, first, List.getElem?_eq_getElem hi, hfirst⟩
  have hrefines : ∀ i L L', (blockLevels cfg window minSize maxSize psrc)[i]? = some L →
      (blockLevels cfg window minSize maxSize psrc)[i + 1]? = some L' → Refines L L' := by
    intro i L L' hL hL'
    obtain ⟨hi, rfl⟩ := List.getElem?_eq_some_iff.mp hL
    obtain ⟨hi', rfl⟩ := List.getElem?_eq_some_iff.mp hL'
    exact List.isChain_iff_getElem.mp (blockLevels_refines hcfg hsrc hmax) i hi'
  refine ⟨hlength, by simp [preMRCOf], ?_, ?_, ?_, ?_, ?_⟩
  · have hhead := blockLevels_head window minSize hcfg hsrc hmax
    rw [List.head?_eq_getElem?] at hhead
    obtain ⟨first, hfirst⟩ := preMRCOf_level table psrc (blockSize cfg window minSize maxSize psrc) rctx hhead
    exact ⟨_, hfirst, rfl, rfl⟩
  · intro i hi
    obtain ⟨L, first, hL, hnames⟩ := hlevel i hi
    rw [hnames, namesOf_tiles]
    exact blockLevels_tiles hsrc hmax L (List.mem_of_getElem? hL)
  · intro i hi x hx
    obtain ⟨L, first, hL, hnames⟩ := hlevel i hi
    rw [hnames] at hx
    exact (namesOf_mem hx).2
  · intro i hi e he
    obtain ⟨L, first, hL, hnames⟩ := hlevel i (Nat.lt_of_succ_lt hi)
    obtain ⟨L', first', hL', hnames'⟩ := hlevel (i + 1) hi
    rw [hnames, namesOf_ends] at he
    rw [hnames', namesOf_ends]
    exact (hrefines i L L' hL hL').1 e he
  · intro i hi x hx hnew
    obtain ⟨L, first, hL, hnames⟩ := hlevel i (Nat.lt_of_succ_lt hi)
    obtain ⟨L', first', hL', hnames'⟩ := hlevel (i + 1) hi
    rw [hnames, namesOf_ends] at hnew
    rw [hnames'] at hx
    exact (hrefines i L L' hL hL').2 _ (namesOf_mem hx).1 hnew

theorem tableOf_getElem? {table : NameTable} {names : List OneChunkName} {j : Nat} {x : OneChunkName}
    (hx : names[j]? = some x) : tableOf table names j = x := by
  rw [tableOf, List.getD_eq_getElem?_getD, hx, Option.getD_some]

theorem preMRCOf_stacked (window minSize : Nat) (hcfg : cfg.Sized) (hsrc : psrc ≠ []) (hmax : 0 < maxSize) (table : NameTable)
    (rctx : RabinCtx) :
    let r := preMRCOf table psrc (blockSize cfg window minSize maxSize psrc)
      (blockLevels cfg window minSize maxSize psrc) rctx
    Stacked (tableOf table r.pNames) r.rbSize r.pNames.length r.pli :=
  levelNames_stacked (fun _ _ => tableOf_getElem?) (blockLevels_tiles hsrc hmax) (blockLevels_refines hcfg hsrc hmax)

/-- In a parented tree the parent of a chunk is the only chunk of the level above that it lies in. -/
theorem Parented.unique {names : NameTable} {rbSize : Nat} {upper lower : MRCPerLevelInfo}
    (hupper : Tiles (offOf names) (lenOf names) 0 rbSize upper.range)
    (hlower : Tiles (offOf names) (lenOf names) 0 rbSize lower.range) {k p q : Nat} (hk : k ∈ lower.range)
    (hp : p ∈ upper.range) (hq : q ∈ upper.range) (hkp : Inside names k p) (hkq : Inside names k q) : q = p := by
  have hpos := (tiles_mem hlower hk).2.2
  obtain ⟨hp1, hp2⟩ := hkp
  obtain ⟨hq1, hq2⟩ := hkq
  exact tiles_unique hupper hq hp (p := offOf names k) ⟨hq1, by omega⟩ ⟨hp1, by omega⟩

theorem Stacked.getD_tiles {names : NameTable} {rbSize numNames : Nat} {pli : List MRCPerLevelInfo}
    (h : Stacked names rbSize numNames pli) {i : Nat} (hi : i < pli.length) :
    Tiles (offOf names) (lenOf names) 0 rbSize (pli.getD i default).range := by
  rw [List.getD_eq_getElem _ _ hi]
  exact h.tiles _ (List.getElem_mem hi)

/-- `DoPreMRC` and `MakeTree` return on every non-empty buffer whose boundaries fit their table, the levels
are well formed, and each chunk below the root has as its parent the one chunk of the level above that it
lies in. -/
theorem doPreMRC_wellFormed (hcfg : cfg.Sized) (hlt : cfg.chunkSize < 128 * 1024) {bsize : Nat} {rctx : RabinCtx}
    (hwindow : 0 < window) (hctx : rctx.Used bsize window minSize maxSize) (hmax : 0 < maxSize) (table : NameTable)
    (psrc : Bytes) (hsrc : psrc ≠ [])
    (hfit : (boundaryPositions cfg.minChunkSize cfg.chunkSize
      (fingers window (scannedBytes minSize maxSize psrc))).length ≤ cfg.chunkSize) :
    ∃ r names', doPreMRC cfg table rctx psrc = .ok r ∧ WellFormedBlock cfg psrc r ∧
      makeTree r.pNames.length r.pli (tableOf table r.pNames) = .ok names' ∧
      SameButParents (tableOf table r.pNames) names' ∧
      ∀ i, i + 1 < r.maxLevel → ∀ k ∈ (r.pli.getD (i + 1) default).range,
        ∃ p ∈ (r.pli.getD i default).range, (names' k).parentIdx = some p ∧ Inside names' k p ∧
          ∀ q ∈ (r.pli.getD i default).range, Inside names' k q → q = p := by
  obtain ⟨rctx', hpre, -⟩ := doPreMRC_eq hcfg hlt (hctx.ready hwindow) table hsrc hmax
    ((blockBoundaries_length_le hcfg).mpr hfit)
  have hstacked := preMRCOf_stacked window minSize hcfg hsrc hmax table rctx'
  obtain ⟨names', htree, hsame, -, hparents⟩ := makeTree_eq hstacked
  have hstacked' := hstacked.congr hsame
  refine ⟨_, names', hpre, preMRCOf_wellFormed window minSize hcfg hsrc hmax table rctx', htree, hsame, ?_⟩
  intro i hi k hk
  have hlen : i + 1 < (preMRCOf table psrc (blockSize cfg window minSize maxSize psrc)
      (blockLevels cfg window minSize maxSize psrc) rctx').pli.length := by simpa [preMRCOf] using hi
  have hpar := List.isChain_iff_getElem.mp hparents i hlen
  rw [← List.getD_eq_getElem _ default hlen, ← List.getD_eq_getElem _ default (Nat.lt_of_succ_lt hlen)] at hpar
  obtain ⟨p, hp, hidx, hinside⟩ := hpar k hk
  refine ⟨p, hp, hidx, hinside, ?_⟩
  intro q hq hkq
  exact Parented.unique (hstacked'.getD_tiles (Nat.lt_of_succ_lt hlen)) (hstacked'.getD_tiles hlen) hk hp hq hinside hkq

end Block

/-! ## What a tree is -/

/-- The fields of an entry that describe the tree; resolving and merging leave them alone. -/
structure ChunkShape where
  offset : Nat
  length : Nat
  level : Nat
  index : Nat
  parentIdx : Option Nat
  pChunk : Option Bytes

def OneChunkName.shape (name : OneChunkName) : ChunkShape :=
  ⟨name.offset, name.length, name.level, name.index, name.parentIdx, name.pChunk⟩

/-- Two tables that hold the same tree. -/
def SameTree (names names' : NameTable) : Prop := ∀ k, (names' k).shape = (names k).shape

/-- A chunk tree in a table: `numNames` entries in levels that tile the block, each entry below the root
inside its parent. -/
structure ChunkTree (psrc : Bytes) (rbSize numNames : Nat) (pli : List MRCPerLevelInfo) (names : NameTable) : Prop where
  size_pos : 0 < rbSize
  size_le : rbSize ≤ psrc.length
  size_max : rbSize ≤ maxChunkSize
  root : pli.getD 0 default = ⟨1, 0⟩
  tiles : ∀ i, i < pli.length → Tiles (offOf names) (lenOf names) 0 rbSize (pli.getD i default).range
  first_succ : ∀ i, i + 1 < pli.length → (pli.getD (i + 1) default).firstIndex =
    (pli.getD i default).firstIndex + (pli.getD i default).numNames
  parented : ∀ i, i + 1 < pli.length → Parented names (pli.getD i default) (pli.getD (i + 1) default)
  bounds : ∀ i, i < pli.length → (pli.getD i default).firstIndex + (pli.getD i default).numNames ≤ numNames
  covers : ∀ k, k < numNames → ∃ i, i < pli.length ∧ k ∈ (pli.getD i default).range
  level_eq : ∀ i, i < pli.length → ∀ k ∈ (pli.getD i default).range, (names k).level = i
  index_eq : ∀ k, k < numNames → (names k).index = k
  content_eq : ∀ k, k < numNames → (names k).content = (psrc.drop (offOf names k)).take (lenOf names k)

/-- No entry from `k` on was resolved or marked. -/
def FreshFrom (names : NameTable) (numNames k : Nat) : Prop :=
  ∀ j, k ≤ j → j < numNames → (names j).isHit = false ∧ (names j).isSha1Ready = false

def Unmarked (names : NameTable) (numNames : Nat) : Prop := ∀ j, j < numNames → (names j).isCandidate = false

namespace SameTree

variable {names names' names'' : NameTable}

theorem refl (names : NameTable) : SameTree names names := fun _ => rfl

theorem trans (h : SameTree names names') (h' : SameTree names' names'') : SameTree names names'' :=
  fun k => (h' k).trans (h k)

variable (h : SameTree names names')

include h

theorem offOf_eq : offOf names' = offOf names := by
  funext k
  exact congrArg ChunkShape.offset (h k)

theorem lenOf_eq : lenOf names' = lenOf names := by
  funext k
  exact congrArg ChunkShape.length (h k)

theorem level_eq (k : Nat) : (names' k).level = (names k).level := congrArg ChunkShape.level (h k)

theorem index_eq (k : Nat) : (names' k).index = (names k).index := congrArg ChunkShape.index (h k)

theorem parentIdx_eq (k : Nat) : (names' k).parentIdx = (names k).parentIdx := congrArg ChunkShape.parentIdx (h k)

theorem content_eq (k : Nat) : (names' k).content = (names k).content := by
  rw [OneChunkName.content, OneChunkName.content, show (names' k).pChunk = (names k).pChunk from
    congrArg ChunkShape.pChunk (h k), show (names' k).length = (names k).length from congrArg ChunkShape.length (h k)]

theorem tree {psrc : Bytes} {rbSize numNames : Nat} {pli : List MRCPerLevelInfo}
    (ht : ChunkTree psrc rbSize numNames pli names) : ChunkTree psrc rbSize numNames pli names' where
  size_pos := ht.size_pos
  size_le := ht.size_le
  size_max := ht.size_max
  root := ht.root
  tiles := by
    rw [h.offOf_eq, h.lenOf_eq]
    exact ht.tiles
  first_succ := ht.first_succ
  parented := by
    intro i hi k hk
    obtain ⟨p, hp, hidx, hinside⟩ := ht.parented i hi k hk
    refine ⟨p, hp, (h.parentIdx_eq k).trans hidx, ?_⟩
    rw [Inside, h.offOf_eq, h.lenOf_eq]
    exact hinside
  bounds := ht.bounds
  covers := ht.covers
  level_eq := fun i hi k hk => (h.level_eq k).trans (ht.level_eq i hi k hk)
  index_eq := fun k hk => (h.index_eq k).trans (ht.index_eq k hk)
  content_eq := by
    intro k hk
    rw [h.content_eq k, h.offOf_eq, h.lenOf_eq]
    exact ht.content_eq k hk

end SameTree

/-- A table that one entry of was rewritten within its shape holds the same tree. -/
theorem sameTree_update {names : NameTable} {k : Nat} {name : OneChunkName} (h : name.shape = (names k).shape) :
    SameTree names (Function.update names k name) := by
  intro j
  by_cases hj : j = k
  · subst hj
    rw [Function.update_self, h]
  · rw [Function.update_of_ne hj]

/-- Where `DoPreMRC` returns, so does `MakeTree`, and the table then holds a tree that nothing was resolved
in yet. -/
theorem doPreMRC_chunkTree {cfg : Config} {window minSize maxSize : Nat} {psrc : Bytes} (hcfg : cfg.Sized) {rctx : RabinCtx}
    (hctx : rctx.Ready window minSize maxSize) {table : NameTable} {r : PreMRC}
    (hpre : doPreMRC cfg table rctx psrc = .ok r) :
    ∃ names, makeTree r.pNames.length r.pli (tableOf table r.pNames) = .ok names ∧
      ChunkTree psrc r.rbSize r.pNames.length r.pli names ∧ FreshFrom names r.pNames.length 0 ∧
      Unmarked names r.pNames.length ∧ r.pNames.length ≤ cfg.maxNames ∧ r.pli.length = cfg.maxLevel ∧
      r.maxLevel = cfg.maxLevel := by
  obtain ⟨hlt, hsrc, hmax, hfit⟩ := doPreMRC_ok hcfg hctx hpre
  obtain ⟨rctx', heq, -⟩ := doPreMRC_eq hcfg hlt hctx table hsrc hmax hfit
  rw [heq] at hpre
  cases hpre
  obtain ⟨hpos, hle⟩ := blockSize_bounds cfg window minSize hsrc hmax
  have hstacked := preMRCOf_stacked window minSize hcfg hsrc hmax table rctx'
  have hlength := blockLevels_length window minSize maxSize psrc hcfg
  obtain ⟨hfirst, hchain, hbounds, hcovers⟩ := levelNames_contiguous table psrc 0 0 (blockLevels cfg window minSize maxSize psrc)
  obtain ⟨names, htree, hsame, -, hparents⟩ := makeTree_eq hstacked
  have hstacked' := hstacked.congr hsame
  generalize hr : preMRCOf table psrc (blockSize cfg window minSize maxSize psrc)
    (blockLevels cfg window minSize maxSize psrc) rctx' = r at *
  have hpli : r.pli = (levelNames table psrc 0 0 (blockLevels cfg window minSize maxSize psrc)).map Prod.fst := by
    rw [← hr, preMRCOf]
  have hnames : r.pNames = (levelNames table psrc 0 0 (blockLevels cfg window minSize maxSize psrc)).flatMap Prod.snd := by
    rw [← hr, preMRCOf]
  have hsize : r.rbSize = blockSize cfg window minSize maxSize psrc := by rw [← hr, preMRCOf]
  have hplilen : r.pli.length = cfg.maxLevel := by rw [hpli, List.length_map, levelNames_length, hlength]
  rw [← hpli] at hfirst hchain hbounds hcovers
  rw [← hnames] at hbounds hcovers
  rw [Nat.zero_add] at hbounds
  -- every entry is the one `DoPreMRC` wrote, up to its parent
  have hat : ∀ i, i < r.pli.length → ∀ k ∈ (r.pli.getD i default).range, tableOf table r.pNames k =
      freshChunk (table k) k i (offOf (tableOf table r.pNames) k) (lenOf (tableOf table r.pNames) k)
        (psrc.drop (offOf (tableOf table r.pNames) k)) := by
    intro i hi k hk
    have hnames' : ∀ j x, ((levelNames table psrc 0 0 (blockLevels cfg window minSize maxSize psrc)).flatMap
        Prod.snd)[j]? = some x → tableOf table r.pNames (0 + j) = x := by
      rw [← hnames]
      intro j x hx
      rw [Nat.zero_add]
      exact tableOf_getElem? hx
    rw [List.getD_eq_getElem _ _ hi] at hk
    have hget : ((levelNames table psrc 0 0 (blockLevels cfg window minSize maxSize psrc)).map Prod.fst)[i]? =
        some r.pli[i] := by rw [← hpli, List.getElem?_eq_getElem hi]
    obtain ⟨L, -, hlevel⟩ := levelNames_levelAt hnames' hget
    rw [Nat.zero_add] at hlevel
    exact hlevel.chunk hk
  have hcover : ∀ k, k < r.pNames.length → ∃ i, i < r.pli.length ∧ k ∈ (r.pli.getD i default).range := by
    intro k hk
    obtain ⟨a, ha, hka⟩ := hcovers k (Nat.zero_le k) (by omega)
    obtain ⟨i, hi, rfl⟩ := List.mem_iff_getElem.mp ha
    exact ⟨i, hi, by rwa [List.getD_eq_getElem _ _ hi]⟩
  refine ⟨names, htree, ⟨hsize ▸ hpos, by omega, by omega, ?_, fun i hi => hstacked'.getD_tiles hi, ?_, ?_, ?_, hcover,
    ?_, ?_, ?_⟩, ?_, ?_, ?_, hplilen, ?_⟩
  · have hhead := blockLevels_head window minSize hcfg hsrc hmax
    cases hlevels : blockLevels cfg window minSize maxSize psrc with
    | nil => simp [hlevels] at hhead
    | cons L levels =>
        rw [hlevels, List.head?_cons, Option.some.injEq] at hhead
        rw [hpli, hlevels, hhead]
        rfl
  · intro i hi
    rw [List.getD_eq_getElem _ _ hi, List.getD_eq_getElem _ _ (Nat.lt_of_succ_lt hi)]
    exact List.isChain_iff_getElem.mp hchain i hi
  · intro i hi
    rw [List.getD_eq_getElem _ _ hi, List.getD_eq_getElem _ _ (Nat.lt_of_succ_lt hi)]
    exact List.isChain_iff_getElem.mp hparents i hi
  · intro i hi
    rw [List.getD_eq_getElem _ _ hi]
    exact (hbounds _ (List.getElem_mem hi)).2
  · intro i hi k hk
    rw [hsame k, hat i hi k hk]
    rfl
  · intro k hk
    obtain ⟨i, hi, hki⟩ := hcover k hk
    rw [hsame k, hat i hi k hki]
    rfl
  · intro k hk
    obtain ⟨i, hi, hki⟩ := hcover k hk
    rw [hsame.offOf_eq, hsame.lenOf_eq, hsame k, hat i hi k hki]
    rfl
  · intro k _ hk
    obtain ⟨i, hi, hki⟩ := hcover k hk
    rw [hsame k, hat i hi k hki]
    exact ⟨rfl, rfl⟩
  · intro k hk
    obtain ⟨i, hi, hki⟩ := hcover k hk
    rw [hsame k, hat i hi k hki]
    rfl
  · rw [hnames, levelNames_names_length]
    exact blockLevels_names_le hcfg hfit
  · rw [← hr, preMRCOf, hlength]

theorem doPreMRC_wellFormed_sample : ∃ rctx r names', startRabinCtx sampleConfig = .ok rctx ∧
    doPreMRC sampleConfig default rctx sampleData = .ok r ∧ WellFormedBlock sampleConfig sampleData r ∧
    makeTree r.pNames.length r.pli (tableOf default r.pNames) = .ok names' := by
  obtain ⟨rctx, hrctx⟩ : ∃ rctx, startRabinCtx sampleConfig = .ok rctx := ⟨_, rfl⟩
  have hlen := congrArg List.length sampleData_boundaries
  rw [List.length_map] at hlen
  obtain ⟨r, names', hpre, hwf, htree, -⟩ := doPreMRC_wellFormed sampleConfig_sized (by decide) (by decide)
    (RabinCtx.Used.init hrctx) (by decide) default sampleData (by decide)
    ((blockBoundaries_length_le sampleConfig_sized).mp (hlen.trans_le (by decide)))
  exact ⟨rctx, r, names', hrctx, hpre, hwf, htree⟩

/-- The rule on short chunks has to leave out the root, which has no level above: a buffer of one byte is
one chunk of length 1. And the last entry of `chunk_sizes` is no chunk size: it has no mask. -/
theorem root_may_be_short :
    (∃ rctx r, startRabinCtx sampleConfig = .ok rctx ∧ doPreMRC sampleConfig default rctx [7] = .ok r ∧
      ¬ ∀ i, i < r.maxLevel → ∀ x ∈ r.level i,
        (∀ j, j < i → x.offset + x.length ∉ ends OneChunkName.offset OneChunkName.length (r.level j)) →
        waproxMinChunkSize < x.length) ∧
    ∃ rctx, startRabinCtx { chunkSize := 128 * 1024 } = .ok rctx ∧
      doPreMRC { chunkSize := 128 * 1024 } default rctx [7] = .error .exit := by
  constructor
  · obtain ⟨rctx, hrctx⟩ : ∃ rctx, startRabinCtx sampleConfig = .ok rctx := ⟨_, rfl⟩
    have hready := (RabinCtx.Used.init hrctx).ready (by decide)
    have hsize : blockSize sampleConfig waproxRabinWindow waproxMrcMin waproxMrcMax [7] = 1 := by decide
    have hsrc : ([7] : Bytes) ≠ [] := by decide
    have hfit : (blockBoundaries sampleConfig waproxRabinWindow waproxMrcMin waproxMrcMax [7]).length ≤
        sampleConfig.chunkSize := by decide
    obtain ⟨rctx', hpre, -⟩ := doPreMRC_eq sampleConfig_sized (by decide) hready default hsrc (by decide) hfit
    obtain ⟨hlevels, -, ⟨x, hx, -, hlen⟩, -⟩ := preMRCOf_wellFormed waproxRabinWindow waproxMrcMin sampleConfig_sized hsrc
      (by decide : 0 < waproxMrcMax) default rctx'
    refine ⟨rctx, _, hrctx, hpre, ?_⟩
    intro hlong
    have hroot := hlong 0 (by rw [hlevels]; decide) x (by rw [hx]; simp) (by omega)
    have hone : x.length = 1 := hlen.trans hsize
    rw [hone] at hroot
    exact absurd hroot (by decide)
  · exact ⟨_, rfl, rfl⟩

end BeagleCache
