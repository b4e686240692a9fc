import Mathlib.Tactic
import BeagleCache.LinkedList
import BeagleCache.ListSort

/-! `sort` of a list in memory (list.c). The values and addresses of the elements are copied into an array, the array is sorted, and the
elements are linked in its order. Every access to the array is checked, and every loop counts its rounds. -/

namespace BeagleCache.LinkedList

open DoublyLinked Function Run

variable {α : Type}

/-- A `temp`. -/
structure Temp where
  value : Int
  ptr : Ptr

/-! ## `quicksort` -/

/-- `locations` with `size` places. -/
def readTemp (size : Int) (locations : Nat → Temp) (i : Int) : Run Temp := do
  inBounds (0 ≤ i ∧ i < size)
  return locations i.toNat

def writeTemp (size : Int) (locations : Nat → Temp) (i : Int) (t : Temp) : Run (Nat → Temp) := do
  inBounds (0 ≤ i ∧ i < size)
  return update locations i.toNat t

def scanRight (size : Int) (locations : Nat → Temp) (pivotValue left : Int) : Nat → Int → Run Int
  | 0, _ => .error .hang
  | fuel + 1, right => do
      let t ← readTemp size locations right
      if pivotValue ≤ t.value ∧ left < right then scanRight size locations pivotValue left fuel (right - 1) else return right

def scanLeft (size : Int) (locations : Nat → Temp) (pivotValue right : Int) : Nat → Int → Run Int
  | 0, _ => .error .hang
  | fuel + 1, left => do
      let t ← readTemp size locations left
      if t.value ≤ pivotValue ∧ left < right then scanLeft size locations pivotValue right fuel (left + 1) else return left

/-- An element goes into the hole at `i`, and leaves one at `j`; the end at `i` goes on to `next`. -/
def fill (size : Int) (locations : Nat → Temp) (i j next : Int) : Run ((Nat → Temp) × Int) :=
  if i ≠ j then do
    let t ← readTemp size locations j
    let locations ← writeTemp size locations i t
    return (locations, next)
  else return (locations, i)

/-- The loop of `quicksort`: the locations, and `left` at its end. -/
def moveHole (size : Int) (pivotValue : Int) : Nat → (Nat → Temp) → Int → Int → Run ((Nat → Temp) × Int)
  | 0, _, _, _ => .error .hang
  | fuel + 1, locations, left, right =>
      if left < right then do
        let right ← scanRight size locations pivotValue left fuel right
        let s ← fill size locations left right (left + 1)
        let left ← scanLeft size s.1 pivotValue right fuel s.2
        let t ← fill size s.1 right left (right - 1)
        moveHole size pivotValue fuel t.1 left t.2
      else return (locations, left)

def quicksort (size : Int) : Nat → (Nat → Temp) → Int → Int → Run (Nat → Temp)
  | 0, _, _, _ => .error .hang
  | fuel + 1, locations, left, right => do
      let pivotTemp ← readTemp size locations left
      let s ← moveHole size pivotTemp.value fuel locations left right
      let pivot := s.2
      let locations ← writeTemp size s.1 pivot pivotTemp
      let locations ← if left < pivot then quicksort size fuel locations left (pivot - 1) else pure locations
      if pivot < right then quicksort size fuel locations (pivot + 1) right else return locations

/-! ## `sort` -/

/-- The loop that copies the list. -/
def copyTemps (L : LinkedList α) : Nat → (Nat → Temp) → Option Ptr → Int → Run (Nat → Temp)
  | 0, _, _, _ => .error .hang
  | _ + 1, locations, none, _ => return locations
  | fuel + 1, locations, some present, i => do
      let e ← L.element (some present)
      let locations ← writeTemp L.size locations i ⟨e.body.value, present⟩
      copyTemps L fuel locations e.next (i + 1)

/-- The loop that links the elements, with `n` rounds left. -/
def linkTemps (size : Int) (locations : Nat → Temp) : Nat → LinkedList α → Int → Run (LinkedList α)
  | 0, L, _ => return L
  | n + 1, L, i => do
      let t ← readTemp size locations i
      let t' ← readTemp size locations (i + 1)
      let L ← L.setNext (some t.ptr) (some t'.ptr)
      let L ← L.setPrev (some t'.ptr) (some t.ptr)
      linkTemps size locations n L (i + 1)

/-- `memory` is the array as `malloc` returns it. -/
def sort (fuel : Nat) (L : LinkedList α) (memory : Nat → Temp) : Run (Int × LinkedList α) :=
  if L.size = 0 then return (0, L)
  else do
    let locations ← copyTemps L fuel memory L.head 0
    let locations ← quicksort L.size fuel locations 0 (L.size - 1)
    let t ← readTemp L.size locations 0
    let t' ← readTemp L.size locations (L.size - 1)
    let L := { L with head := some t.ptr, tail := some t'.ptr, iterator := none }
    let L ← linkTemps L.size locations (L.size - 1).toNat L 0
    let L ← L.setPrev (some t.ptr) none
    let L ← L.setNext (some t'.ptr) none
    return (0, L)

/-! ## The places that are looked at -/

section Places

variable {size : Int} {locations : Nat → Temp} {pivotValue : Int}

theorem readTemp_eq {i : Nat} (hi : (i : Int) < size) : readTemp size locations i = .ok (locations i) := by
  unfold readTemp
  rw [inBounds_of ⟨Int.natCast_nonneg i, hi⟩]
  rfl

theorem writeTemp_eq {i : Nat} (hi : (i : Int) < size) (t : Temp) : writeTemp size locations i t = .ok (update locations i t) := by
  unfold writeTemp
  rw [inBounds_of ⟨Int.natCast_nonneg i, hi⟩]
  rfl

theorem scanRight_eq {left right fuel : Nat} (hle : left ≤ right) (hright : (right : Int) < size) (hfuel : right - left < fuel) :
    scanRight size locations pivotValue left fuel right = .ok (ListSort.scanRight Temp.value locations pivotValue left right : Nat) := by
  induction right generalizing fuel with
  | zero =>
      obtain ⟨n, rfl⟩ := Nat.exists_eq_add_one.mpr hfuel.pos
      have hstop : ¬(pivotValue ≤ (locations 0).value ∧ (left : Int) < (0 : Nat)) := by omega
      rw [scanRight, readTemp_eq hright, ok_bind, if_neg hstop]
      rfl
  | succ right ih =>
      obtain ⟨n, rfl⟩ := Nat.exists_eq_add_one.mpr hfuel.pos
      rw [scanRight, readTemp_eq hright, ok_bind, ListSort.scanRight]
      by_cases hgo : pivotValue ≤ (locations (right + 1)).value ∧ left < right + 1
      · have hgo' : pivotValue ≤ (locations (right + 1)).value ∧ (left : Int) < (right + 1 : Nat) := ⟨hgo.1, by omega⟩
        have hprev : ((right + 1 : Nat) : Int) - 1 = right := by omega
        rw [if_pos hgo, if_pos hgo', hprev]
        exact ih (by omega) (by omega) (by omega)
      · have hgo' : ¬(pivotValue ≤ (locations (right + 1)).value ∧ (left : Int) < (right + 1 : Nat)) := fun h => hgo ⟨h.1, by omega⟩
        rw [if_neg hgo, if_neg hgo']
        rfl

theorem scanLeft_eq {left right n fuel : Nat} (hn : left + n = right) (hright : (right : Int) < size) (hfuel : n < fuel) :
    scanLeft size locations pivotValue right fuel left = .ok (ListSort.scanLeft Temp.value locations pivotValue n left : Nat) := by
  induction n generalizing left fuel with
  | zero =>
      obtain ⟨n, rfl⟩ := Nat.exists_eq_add_one.mpr hfuel
      have hstop : ¬((locations left).value ≤ pivotValue ∧ (left : Int) < right) := by omega
      rw [scanLeft, readTemp_eq (by omega), ok_bind, if_neg hstop]
      rfl
  | succ n ih =>
      obtain ⟨m, rfl⟩ := Nat.exists_eq_add_one.mpr hfuel.pos
      rw [scanLeft, readTemp_eq (by omega), ok_bind, ListSort.scanLeft]
      by_cases hgo : (locations left).value ≤ pivotValue
      · have hgo' : (locations left).value ≤ pivotValue ∧ (left : Int) < right := ⟨hgo, by omega⟩
        have hnext : left + 1 + n = right := by omega
        rw [if_pos hgo, if_pos hgo']
        exact ih hnext (by omega)
      · rw [if_neg hgo, if_neg fun h => hgo h.1]
        rfl

theorem fill_eq {i j : Nat} (next : Nat) {next' : Int} (hi : (i : Int) < size) (hj : (j : Int) < size) (hnext : i ≠ j → next' = next) :
    fill size locations i j next' =
      .ok (let s := if i ≠ j then (update locations i (locations j), next) else (locations, i); (s.1, (s.2 : Int))) := by
  unfold fill
  by_cases hne : i = j
  · rw [if_neg (not_not.mpr (congrArg Nat.cast hne)), if_neg (not_not.mpr hne)]
    rfl
  · have hne' : (i : Int) ≠ j := by omega
    rw [if_pos hne', if_pos hne, readTemp_eq hj, ok_bind, writeTemp_eq hi, ok_bind, hnext hne]
    rfl

theorem moveHole_eq {left right n fuel : Nat} (hle : left ≤ right) (hright : (right : Int) < size) (hn : right - left ≤ n)
    (hfuel : right - left + 1 < fuel) :
    moveHole size pivotValue fuel locations left right =
      .ok ((ListSort.moveHole Temp.value pivotValue n locations left right).1,
        ((ListSort.moveHole Temp.value pivotValue n locations left right).2 : Nat)) := by
  induction n generalizing locations left right fuel with
  | zero =>
      obtain ⟨m, rfl⟩ := Nat.exists_eq_add_one.mpr hfuel.pos
      rw [moveHole, if_neg (by omega)]
      rfl
  | succ n ih =>
      obtain ⟨m, rfl⟩ := Nat.exists_eq_add_one.mpr hfuel.pos
      by_cases hlt : left < right
      · obtain ⟨hlr, hrr, -, -⟩ := ListSort.scanRight_spec Temp.value locations pivotValue hle
        rw [moveHole, if_pos (by omega), ListSort.moveHole, if_pos hlt, scanRight_eq hle hright (by omega), ok_bind]
        dsimp only
        generalize ListSort.scanRight Temp.value locations pivotValue left right = r at hlr hrr ⊢
        have hcloser : ∀ s : (Nat → Temp) × Nat,
            s = (if left ≠ r then (update locations left (locations r), left + 1) else (locations, left)) →
              (left < s.2 ∨ s.2 = r) ∧ s.2 ≤ r := by
          rintro s rfl
          split
          · exact ⟨.inl (Nat.lt_succ_self left), by dsimp only; omega⟩
          · exact ⟨.inr (by omega), hlr⟩
        rw [fill_eq (left + 1) (by omega) (by omega) fun _ => (Nat.cast_succ left).symm, ok_bind]
        dsimp only
        generalize (if left ≠ r then (update locations left (locations r), left + 1) else (locations, left)) = s at hcloser ⊢
        obtain ⟨hs, hsr⟩ := hcloser s rfl
        obtain ⟨hsl, hlr', -, -⟩ := ListSort.scanLeft_spec Temp.value s.1 pivotValue (r - s.2) s.2
        rw [scanLeft_eq (show s.2 + (r - s.2) = r by omega) (by omega) (by omega), ok_bind]
        generalize ListSort.scanLeft Temp.value s.1 pivotValue (r - s.2) s.2 = l at hsl hlr' ⊢
        have hl : l ≤ r := by omega
        have hend : ∀ t : (Nat → Temp) × Nat, t = (if l ≠ r then (update s.1 r (s.1 l), r - 1) else (s.1, r)) → l ≤ t.2 ∧ t.2 ≤ r := by
          rintro t rfl
          split
          · exact ⟨by dsimp only; omega, Nat.sub_le r 1⟩
          · exact ⟨hl, Nat.le_refl r⟩
        have hflip : (if r ≠ l then (update s.1 r (s.1 l), r - 1) else (s.1, r)) =
            if l ≠ r then (update s.1 r (s.1 l), r - 1) else (s.1, r) := if_congr ne_comm rfl rfl
        rw [fill_eq (r - 1) (by omega) (by omega) fun hne => by omega, ok_bind, hflip]
        dsimp only
        generalize (if l ≠ r then (update s.1 r (s.1 l), r - 1) else (s.1, r)) = t at hend ⊢
        obtain ⟨hlt', htr⟩ := hend t rfl
        exact ih hlt' (by omega) (by omega) (by omega)
      · rw [moveHole, if_neg (by omega), ListSort.moveHole, if_neg hlt]
        rfl

/-- No place outside of the array is looked at, and the sort ends. -/
theorem quicksort_eq {left right n fuel : Nat} (hle : left ≤ right) (hright : (right : Int) < size) (hn : right - left < n)
    (hfuel : right - left + 2 < fuel) :
    quicksort size fuel locations left right = .ok (ListSort.quicksort Temp.value n locations left right) := by
  induction n generalizing locations left right fuel with
  | zero => exact absurd hn (Nat.not_lt_zero _)
  | succ n ih =>
      obtain ⟨m, rfl⟩ := Nat.exists_eq_add_one.mpr hfuel.pos
      have hend := ListSort.moveHole_spec (Nat.le_refl _) (ListSort.holed_start Temp.value locations hle)
      rw [quicksort, readTemp_eq (by omega), ok_bind, moveHole_eq hle hright (Nat.le_refl _) (by omega), ok_bind, ListSort.quicksort]
      dsimp only
      generalize ListSort.moveHole Temp.value (locations left).value (right - left) locations left right = s at hend ⊢
      obtain ⟨hlo, -, hhi, -, -, -⟩ := hend
      obtain ⟨moved, pivot⟩ := s
      dsimp only at hlo hhi ⊢
      rw [writeTemp_eq (by omega), ok_bind]
      generalize update moved pivot (locations left) = g
      have hbehind : ∀ g : Nat → Temp, (if (pivot : Int) < right then quicksort size m g (pivot + 1) right else return g) =
          .ok (if pivot < right then ListSort.quicksort Temp.value n g (pivot + 1) right else g) := by
        intro g
        by_cases hlt : pivot < right
        · rw [if_pos (by omega), if_pos hlt, ← Nat.cast_succ]
          exact ih (by omega) (by omega) (by omega) (by omega)
        · rw [if_neg (by omega), if_neg hlt]
          rfl
      by_cases hlt : left < pivot
      · have hprev : (pivot : Int) - 1 = (pivot - 1 : Nat) := by omega
        rw [if_pos (by omega), if_pos hlt, hprev, ih (by omega) (by omega) (by omega) (by omega), ok_bind]
        exact hbehind _
      · rw [if_neg (by omega), if_neg hlt]
        exact hbehind _

theorem quicksort_crossed {left right fuel : Nat} (hlt : right < left) (hleft : (left : Int) < size) (hfuel : 1 < fuel) :
    quicksort size fuel locations left right = .ok locations := by
  obtain ⟨n, rfl⟩ := Nat.exists_eq_add_of_le' hfuel
  rw [quicksort, readTemp_eq hleft, ok_bind, moveHole, if_neg (by omega)]
  dsimp only [pure_eq_ok, ok_bind]
  rw [writeTemp_eq hleft, ok_bind, if_neg (lt_irrefl _), if_neg (by omega), update_eq_self]

/-- The sort ends, and moves the values with their pointers, those from `left` to `right` only. -/
theorem quicksort_spec {left right fuel : Nat} (hleft : (left : Int) < size) (hright : (right : Int) < size)
    (hfuel : right - left + 2 < fuel) :
    ∃ sorted, quicksort size fuel locations left right = .ok sorted ∧ ListSort.Rearranges left right locations sorted ∧
      ListSort.Ascends Temp.value left right sorted := by
  by_cases hle : left ≤ right
  · exact ⟨_, quicksort_eq hle hright (Nat.lt_succ_self _) hfuel,
      ListSort.quicksort_spec Temp.value _ locations left right (Nat.lt_succ_self _) hle⟩
  · have hlt : right < left := Nat.not_le.mp hle
    refine ⟨locations, quicksort_crossed hlt hleft (by omega), ListSort.Rearranges.refl left right locations, fun i j hi hij hj => ?_⟩
    exact absurd (hi.trans (hij.trans hj)) hle

end Places

/-! ## A list is sorted -/

section Sorted

variable {L : LinkedList α} {seq xs ys : List (Ptr × Entry α)}

/-- What is copied of an element. -/
def temp (x : Ptr × Entry α) : Temp := ⟨x.2.value, x.1⟩

theorem copyTemps_eq (h : Linked L seq) (xs ys : List (Ptr × Entry α)) (hseq : seq = xs ++ ys) (locations : Nat → Temp) {fuel : Nat}
    (hfuel : ys.length < fuel) :
    ∃ copied, copyTemps L fuel locations (first ys) xs.length = .ok copied ∧ (∀ i, i < xs.length → copied i = locations i) ∧
      ∀ i (hi : i < ys.length), copied (xs.length + i) = temp ys[i] := by
  induction ys generalizing xs locations fuel with
  | nil =>
      obtain ⟨n, rfl⟩ := Nat.exists_eq_add_one.mpr hfuel.pos
      exact ⟨locations, rfl, fun i _ => rfl, fun i hi => absurd hi (Nat.not_lt_zero i)⟩
  | cons y ys ih =>
      obtain ⟨n, rfl⟩ := Nat.exists_eq_add_one.mpr hfuel.pos
      have hsize : (xs.length : Int) < L.size := by
        rw [h.size, hseq, List.length_append, List.length_cons]
        omega
      obtain ⟨copied, hrun, hbefore, hat⟩ := ih (xs ++ [y]) (by rw [hseq, List.append_cons]) (update locations xs.length (temp y))
        (Nat.lt_of_succ_lt_succ hfuel)
      have hlength : (xs ++ [y]).length = xs.length + 1 := by simp
      rw [hlength] at hrun hbefore hat
      refine ⟨copied, ?_, fun i hi => ?_, fun i hi => ?_⟩
      · rw [first_cons, copyTemps, Linked.element (b := y.2) (hseq ▸ h), ok_bind, writeTemp_eq hsize, ok_bind]
        exact hrun
      · rw [hbefore i (by omega), update_of_ne (by omega)]
      · cases i with
        | zero =>
            rw [Nat.add_zero, hbefore _ (Nat.lt_succ_self _), update_self]
            rfl
        | succ i =>
            have hstep := hat i (Nat.lt_of_succ_lt_succ hi)
            rw [Nat.add_right_comm, Nat.add_assoc] at hstep
            exact hstep

theorem linkTemps_eq {size : Int} {locations : Nat → Temp} (n i : Nat) (a : Ptr) (ks : List Ptr) (hlength : ks.length = n)
    (hsize : ((i + n : Nat) : Int) < size) (ha : (locations i).ptr = a)
    (hks : ∀ j (hj : j < ks.length), (locations (i + 1 + j)).ptr = ks[j])
    (hin : ∀ k ∈ a :: ks, L.nodes k ≠ none) :
    linkTemps size locations n L i = .ok { L with nodes := relink L.nodes (a :: ks) } := by
  induction n generalizing L i a ks with
  | zero =>
      obtain rfl : ks = [] := List.eq_nil_of_length_eq_zero hlength
      rfl
  | succ n ih =>
      obtain ⟨c, ks, rfl⟩ : ∃ c ks', ks = c :: ks' := List.exists_cons_of_length_eq_add_one hlength
      have hc : (locations (i + 1)).ptr = c := hks 0 (Nat.zero_lt_succ _)
      have hina : L.nodes a ≠ none := hin a List.mem_cons_self
      have hinc : L.nodes c ≠ none := hin c (by simp)
      rw [linkTemps, readTemp_eq (by omega), ok_bind, ← Nat.cast_succ, readTemp_eq (by omega), ok_bind, ha, hc, setNext_eq hina,
        ok_bind, setPrev_eq (by simp [hinc]), ok_bind]
      refine ih (i + 1) c ks (Nat.succ.inj hlength) (by omega) hc (fun j hj => ?_) fun k hk => ?_
      · have hstep := hks (j + 1) (Nat.succ_lt_succ hj)
        rwa [← Nat.add_assoc, Nat.add_right_comm (i + 1) j 1] at hstep
      · simpa using hin k (List.mem_cons_of_mem a hk)

/-- The items of a list in the order that its `sort` gives them. -/
def sorted (seq : List (Ptr × Entry α)) : List (Ptr × Entry α) := ListSort.sort (Temp.value ∘ temp) seq

theorem sorted_perm (seq : List (Ptr × Entry α)) : (sorted seq).Perm seq := (ListSort.sort_spec _ seq).1

theorem sorted_pairwise (seq : List (Ptr × Entry α)) : (sorted seq).Pairwise fun x y => x.2.value ≤ y.2.value :=
    (ListSort.sort_spec _ seq).2

theorem sorted_getElem {copied : Nat → Temp} {seq : List (Ptr × Entry α)} (hcopied : ∀ i (hi : i < seq.length), copied i = temp seq[i])
    (i : Nat) (hi : i < (sorted seq).length) :
    ListSort.quicksort Temp.value seq.length copied 0 (seq.length - 1) i = temp (sorted seq)[i] := by
  cases seq with
  | nil => exact absurd hi (Nat.not_lt_zero i)
  | cons x rest =>
      have hlength : (sorted (x :: rest)).length = (x :: rest).length := (sorted_perm _).length_eq
      have hagree : ListSort.Agrees temp ((x :: rest).length - 1) copied fun i => ((x :: rest)[i]?).getD x := by
        intro j hj
        have hjl : j < (x :: rest).length := by
          rw [List.length_cons] at hj ⊢
          omega
        dsimp only
        rw [hcopied j hjl, List.getElem?_eq_getElem hjl]
        rfl
      have hsorted : sorted (x :: rest) = (List.range (x :: rest).length).map (ListSort.quicksort (Temp.value ∘ temp) (x :: rest).length
          (fun i => ((x :: rest)[i]?).getD x) 0 ((x :: rest).length - 1)) := rfl
      rw [ListSort.quicksort_agrees Temp.value hagree _ (Nat.zero_le _) (Nat.le_refl _) i (by omega), List.getElem_of_eq hsorted,
        List.getElem_map,
        List.getElem_range]

theorem sort_spec (h : Linked L seq) (memory : Nat → Temp) {fuel : Nat} (hfuel : seq.length + 1 < fuel) :
    ∃ L', sort fuel L memory = .ok (0, L') ∧ Linked L' (sorted seq) ∧ L'.iterator = if seq = [] then L.iterator else none := by
  unfold sort
  by_cases hempty : seq = []
  · subst hempty
    rw [if_pos (h.size_eq_zero.mpr rfl)]
    exact ⟨L, rfl, h, rfl⟩
  · have hperm := sorted_perm seq
    have hpos : 0 < seq.length := List.length_pos_iff.mpr hempty
    have hnodup : (keys (sorted seq)).Nodup := (hperm.map Prod.fst).nodup_iff.mpr h.nodup
    have hlength : (sorted seq).length = seq.length := hperm.length_eq
    have hlast : L.size - 1 = (seq.length - 1 : Nat) := by
      rw [h.size]
      omega
    have hend : ((seq.length - 1 : Nat) : Int) < L.size := by omega
    obtain ⟨copied, hcopy, -, hcopied⟩ := copyTemps_eq h [] seq rfl memory (show seq.length < fuel by omega)
    have hplaces := sorted_getElem fun i hi => by simpa using hcopied i hi
    rw [if_neg (mt h.size_eq_zero.mp hempty), h.head]
    rw [List.length_nil] at hcopy
    rw [show (0 : Int) = (0 : Nat) from rfl, hcopy, ok_bind, hlast, quicksort_eq (n := seq.length) (Nat.zero_le _) hend (by omega)
      (by omega), ok_bind,
      readTemp_eq (by omega), ok_bind, readTemp_eq hend, ok_bind]
    generalize ListSort.quicksort Temp.value seq.length copied 0 (seq.length - 1) = locations at hplaces ⊢
    have hbodies : ∀ y ∈ sorted seq, (L.nodes y.1).map Cell.body = some y.2 := by
      intro y hy
      obtain ⟨xs, ys, hseq⟩ := List.append_of_mem (hperm.mem_iff.mp hy)
      rw [Linked.cell (hseq ▸ h)]
      rfl
    have honly : ∀ k, k ∉ keys (sorted seq) → L.nodes k = none := by
      intro k hk
      by_contra hnode
      exact hk ((hperm.map Prod.fst).mem_iff.mpr (h.allocated.mp hnode))
    have hiter : (none : Option Ptr) = if seq = [] then L.iterator else none := (if_neg hempty).symm
    rw [← hlength] at hlast hend hpos ⊢
    have hsize : L.size = (sorted seq).length := by omega
    generalize sorted seq = target at *
    obtain ⟨y, ys, rfl⟩ := List.exists_cons_of_length_pos hpos
    have hfirst : (locations 0).ptr = y.1 := congrArg Temp.ptr (hplaces 0 hpos)
    have hlastptr : (locations ((y :: ys).length - 1)).ptr = ((y :: ys).getLast (List.cons_ne_nil y ys)).1 := by
      rw [hplaces _ (by omega), List.getLast_eq_getElem]
      rfl
    have hfinal : final (y :: ys) = some ((y :: ys).getLast (List.cons_ne_nil y ys)).1 := by
      unfold final
      rw [List.getLast?_eq_some_getLast (List.cons_ne_nil y ys)]
      rfl
    have hlink : ∀ M : LinkedList α, M.nodes = L.nodes →
        linkTemps L.size locations ys.length M (0 : Nat) = .ok { M with nodes := relink L.nodes (keys (y :: ys)) } := by
      intro M hM
      rw [← hM]
      refine linkTemps_eq ys.length 0 y.1 (keys ys) (List.length_map _) (by simp [hsize]) hfirst (fun j hj => ?_) fun k hk => ?_
      · have hjl : 0 + 1 + j < (y :: ys).length := by
          rw [List.length_map] at hj
          rw [List.length_cons]
          omega
        rw [hplaces _ hjl]
        simp [temp, Nat.add_comm 1 j]
      · rw [hM, h.allocated]
        exact (hperm.map Prod.fst).mem_iff.mp hk
    have hin : ∀ z ∈ y :: ys, L.nodes z.1 ≠ none := fun z hz =>
      h.allocated.mpr ((hperm.map Prod.fst).mem_iff.mp (List.mem_map_of_mem hz))
    have hcount : (L.size - 1).toNat = ys.length := by
      rw [hlast]
      rfl
    dsimp only
    rw [hfirst, hlastptr, hcount, hlink ⟨L.nodes, some y.1, some ((y :: ys).getLast (List.cons_ne_nil y ys)).1, L.size, none⟩ rfl,
      ok_bind, setPrev_eq (by simpa using hin y List.mem_cons_self), ok_bind,
      setNext_eq (by simpa using hin _ (List.getLast_mem (List.cons_ne_nil y ys))), ok_bind]
    exact ⟨_, rfl, ⟨hnodup, relink_seg hnodup hbodies honly hfinal, rfl, hfinal.symm, hsize⟩, hiter⟩

theorem sort_ascending (h : Linked L seq) (memory : Nat → Temp) :
    (∀ fuel, seq.length + 1 < fuel → ∃ L' seq', sort fuel L memory = .ok (0, L') ∧ Linked L' seq' ∧ L'.size = L.size ∧ seq'.Perm seq ∧
      seq'.Pairwise fun x y => x.2.value ≤ y.2.value) ∧
    ∀ (size : Int) (locations : Nat → Temp) (left right : Nat), left < size → right < size → ∀ fuel, right - left + 2 < fuel →
      ∃ locations', quicksort size fuel locations left right = .ok locations' ∧ ListSort.Rearranges left right locations locations' ∧
        ListSort.Ascends Temp.value left right locations' := by
  constructor
  · intro fuel hfuel
    obtain ⟨L', hsort, hL', -⟩ := sort_spec h memory hfuel
    refine ⟨L', sorted seq, hsort, hL', ?_, sorted_perm seq, sorted_pairwise seq⟩
    rw [hL'.size, h.size, (sorted_perm seq).length_eq]
  · intro size locations left right hleft hright fuel hfuel
    exact quicksort_spec hleft hright hfuel

end Sorted

/-- Three elements, two of them with the same value. -/
def three : List (Ptr × Entry Unit) := [(10, ⟨5, ()⟩), (20, ⟨2, ()⟩), (30, ⟨5, ()⟩)]

theorem sort_ascending_three :
    ∃ L' seq', sort 5 ⟨seg none none three, some 10, some 30, 3, none⟩ (fun _ => ⟨0, 0⟩) = .ok (0, L') ∧ Linked L' seq' ∧ seq'.Perm three ∧
      seq'.Pairwise fun x y => x.2.value ≤ y.2.value := by
  have hthree : Linked ⟨seg none none three, some 10, some 30, 3, none⟩ three := ⟨by decide, rfl, rfl, rfl, rfl⟩
  obtain ⟨L', seq', hsort, hL', -, hperm, hascends⟩ := (sort_ascending hthree fun _ => ⟨0, 0⟩).1 5 (by decide)
  exact ⟨L', seq', hsort, hL', hperm, hascends⟩

end BeagleCache.LinkedList
