import Mathlib.Tactic

/-! `sort` of a list (list.c): a quicksort in place on the values and pointers of the elements. The pivot is taken out of the
array, and the hole it leaves goes from one end to the other until the two ends meet. -/

namespace BeagleCache.ListSort

open Function

variable {α : Type} (value : α → Int)

/-- `right` goes down to the next place with a value below the pivot. -/
def scanRight (locations : Nat → α) (pivotValue : Int) (left : Nat) : Nat → Nat
  | 0 => 0
  | right + 1 =>
      if pivotValue ≤ value (locations (right + 1)) ∧ left < right + 1 then scanRight locations pivotValue left right else right + 1

/-- `left` goes up to the next place with a value above the pivot, `n` places away from `right` at most. -/
def scanLeft (locations : Nat → α) (pivotValue : Int) : Nat → Nat → Nat
  | 0, left => left
  | n + 1, left => if value (locations left) ≤ pivotValue then scanLeft locations pivotValue n (left + 1) else left

/-- The loop that moves the hole: the locations, and `left` at its end. Every round brings the ends closer. -/
def moveHole (pivotValue : Int) : Nat → (Nat → α) → Nat → Nat → (Nat → α) × Nat
  | 0, locations, left, _ => (locations, left)
  | n + 1, locations, left, right =>
      if left < right then
        let right := scanRight value locations pivotValue left right
        let s := if left ≠ right then (update locations left (locations right), left + 1) else (locations, left)
        let left := scanLeft value s.1 pivotValue (right - s.2) s.2
        let t := if left ≠ right then (update s.1 right (s.1 left), right - 1) else (s.1, right)
        moveHole pivotValue n t.1 left t.2
      else (locations, left)

/-- `n` is more than the number of places. -/
def quicksort : Nat → (Nat → α) → Nat → Nat → Nat → α
  | 0, locations, _, _ => locations
  | n + 1, locations, left, right =>
      let s := moveHole value (value (locations left)) (right - left) locations left right
      let pivot := s.2
      let locations := update s.1 pivot (locations left)
      let locations := if left < pivot then quicksort n locations left (pivot - 1) else locations
      if pivot < right then quicksort n locations (pivot + 1) right else locations

/-- `sort` of a list, which is linked again in the order of the locations. -/
def sort (l : List α) : List α :=
  match l with
  | [] => []
  | x :: _ =>
      (List.range l.length).map (quicksort value l.length (fun i => (l[i]?).getD x) 0 (l.length - 1))

/-! ## The elements are moved -/

/-- `g` has the elements of `f`, those between `lo` and `hi` in another order. -/
def Rearranges (lo hi : Nat) (f g : Nat → α) : Prop :=
  ∃ σ : Equiv.Perm Nat, (∀ i, ¬(lo ≤ i ∧ i ≤ hi) → σ i = i) ∧ g = f ∘ σ

namespace Rearranges

variable {lo hi : Nat} {f g k : Nat → α}

theorem refl (lo hi : Nat) (f : Nat → α) : Rearranges lo hi f f := ⟨1, fun _ _ => rfl, rfl⟩

theorem trans (h : Rearranges lo hi f g) (h' : Rearranges lo hi g k) : Rearranges lo hi f k := by
  obtain ⟨σ, hσ, rfl⟩ := h
  obtain ⟨τ, hτ, rfl⟩ := h'
  refine ⟨σ * τ, fun i hi => ?_, rfl⟩
  rw [Equiv.Perm.mul_apply, hτ i hi, hσ i hi]

theorem symm (h : Rearranges lo hi f g) : Rearranges lo hi g f := by
  obtain ⟨σ, hσ, rfl⟩ := h
  refine ⟨σ⁻¹, fun i hi => ?_, ?_⟩
  · rw [Equiv.Perm.inv_eq_iff_eq, hσ i hi]
  · funext i
    simp

theorem widen {lo' hi' : Nat} (h : Rearranges lo hi f g) (hlo : lo' ≤ lo) (hhi : hi ≤ hi') : Rearranges lo' hi' f g := by
  obtain ⟨σ, hσ, rfl⟩ := h
  exact ⟨σ, fun i hi => hσ i (by omega), rfl⟩

theorem swap (f : Nat → α) {a b : Nat} (ha : lo ≤ a ∧ a ≤ hi) (hb : lo ≤ b ∧ b ≤ hi) :
    Rearranges lo hi f (f ∘ Equiv.swap a b) := by
  refine ⟨Equiv.swap a b, fun i hi => Equiv.swap_apply_of_ne_of_ne ?_ ?_, rfl⟩
  · rintro rfl
    exact hi ha
  · rintro rfl
    exact hi hb

theorem outside (h : Rearranges lo hi f g) {i : Nat} (hi' : ¬(lo ≤ i ∧ i ≤ hi)) : g i = f i := by
  obtain ⟨σ, hσ, rfl⟩ := h
  rw [Function.comp_apply, hσ i hi']

/-- A single element stays where it is. -/
theorem eq_of_single (h : Rearranges lo hi f g) (heq : lo = hi) : g = f := by
  obtain ⟨σ, hσ, rfl⟩ := h
  have hfix : ∀ i, i ≠ lo → σ i = i := fun i hne => hσ i (by omega)
  have hlo : σ lo = lo := by
    by_contra hne
    exact hne (σ.injective (hfix (σ lo) hne))
  funext i
  by_cases hi : i = lo
  · rw [Function.comp_apply, hi, hlo]
  · rw [Function.comp_apply, hfix i hi]

/-- What holds of all elements in the range holds of them in the other order. -/
theorem forall_mem (h : Rearranges lo hi f g) {p : α → Prop} (hp : ∀ i, lo ≤ i → i ≤ hi → p (f i)) (i : Nat) (hlo : lo ≤ i)
    (hhi : i ≤ hi) : p (g i) := by
  obtain ⟨σ, hσ, rfl⟩ := h
  have hin : lo ≤ σ i ∧ σ i ≤ hi := by
    by_contra hout
    have hfix : σ (σ i) = σ i := hσ _ hout
    have hi' : σ i = i := σ.injective hfix
    exact hout (by rw [hi']; exact ⟨hlo, hhi⟩)
  exact hp _ hin.1 hin.2

theorem map_perm {n : Nat} (h : Rearranges lo hi f g) (hn : hi < n) : ((List.range n).map g).Perm ((List.range n).map f) := by
  obtain ⟨σ, hσ, rfl⟩ := h
  have hrange : ((List.range n).map σ).Perm (List.range n) := by
    have hnodup : ((List.range n).map σ).Nodup := List.nodup_range.map σ.injective
    have hsub : (List.range n).map σ ⊆ List.range n := by
      intro x hx
      obtain ⟨i, hi', rfl⟩ := List.mem_map.mp hx
      rw [List.mem_range] at hi' ⊢
      by_contra hout
      have hfix : σ (σ i) = σ i := hσ _ (by omega)
      have heq : σ i = i := σ.injective hfix
      omega
    exact (List.subperm_of_subset hnodup hsub).perm_of_length_le (by simp)
  rw [← List.map_map]
  exact hrange.map f

end Rearranges

/-- The hole is moved from `a` to `b`, with the element of `b` put into it. -/
theorem update_hole (f : Nat → α) (x : α) {a b : Nat} (hne : a ≠ b) :
    update (update f a (f b)) b x = update f a x ∘ Equiv.swap a b := by
  funext i
  by_cases hb : i = b
  · subst hb
    simp
  · by_cases ha : i = a
    · subst ha
      simp [hne, hne.symm]
    · simp [ha, hb, Equiv.swap_apply_of_ne_of_ne ha hb]

/-! ## The hole meets in the middle -/

section Scan

variable (locations : Nat → α) (pivotValue : Int)

theorem scanRight_spec {left right : Nat} (h : left ≤ right) :
    left ≤ scanRight value locations pivotValue left right ∧ scanRight value locations pivotValue left right ≤ right ∧
    (∀ i, scanRight value locations pivotValue left right < i → i ≤ right → pivotValue ≤ value (locations i)) ∧
    (scanRight value locations pivotValue left right ≠ left →
      value (locations (scanRight value locations pivotValue left right)) < pivotValue) := by
  induction right with
  | zero =>
      have hleft : left = 0 := Nat.le_zero.mp h
      subst hleft
      exact ⟨Nat.le_refl _, Nat.le_refl _, fun i hlo hhi => absurd hlo (Nat.not_lt.mpr hhi), fun hne => absurd rfl hne⟩
  | succ right ih =>
      rw [scanRight]
      split
      · next hgo =>
          obtain ⟨hlo, hhi, habove, hbelow⟩ := ih (by omega)
          refine ⟨hlo, by omega, fun i hi hle => ?_, hbelow⟩
          by_cases hlast : i = right + 1
          · rw [hlast]
            exact hgo.1
          · exact habove i hi (by omega)
      · next hstop =>
          refine ⟨h, Nat.le_refl _, fun i hi hle => absurd hi (Nat.not_lt.mpr hle), fun hne => ?_⟩
          by_contra hge
          exact hstop ⟨not_lt.mp hge, by omega⟩

theorem scanLeft_spec (n left : Nat) :
    left ≤ scanLeft value locations pivotValue n left ∧ scanLeft value locations pivotValue n left ≤ left + n ∧
    (∀ i, left ≤ i → i < scanLeft value locations pivotValue n left → value (locations i) ≤ pivotValue) ∧
    (scanLeft value locations pivotValue n left ≠ left + n →
      pivotValue < value (locations (scanLeft value locations pivotValue n left))) := by
  induction n generalizing left with
  | zero => exact ⟨Nat.le_refl _, Nat.le_refl _, fun i hlo hhi => absurd hhi (Nat.not_lt.mpr hlo), fun hne => absurd rfl hne⟩
  | succ n ih =>
      rw [scanLeft]
      split
      · next hgo =>
          obtain ⟨hlo, hhi, hbelow, habove⟩ := ih (left + 1)
          refine ⟨by omega, by omega, fun i hi hlt => ?_, fun hne => habove (by omega)⟩
          by_cases hfirst : i = left
          · rw [hfirst]
            exact hgo
          · exact hbelow i (by omega) hlt
      · next hstop =>
          exact ⟨Nat.le_refl _, by omega, fun i hi hlt => absurd hlt (Nat.not_lt.mpr hi), fun _ => not_le.mp hstop⟩

end Scan

/-- While the hole is at `left`: what is before it is not above the pivot, what is behind `right` not below. -/
structure Holed (lo hi : Nat) (start : Nat → α) (pivot : α) (locations : Nat → α) (left right : Nat) : Prop where
  lo_le : lo ≤ left
  le_right : left ≤ right
  le_hi : right ≤ hi
  below : ∀ i, lo ≤ i → i < left → value (locations i) ≤ value pivot
  above : ∀ i, right < i → i ≤ hi → value pivot ≤ value (locations i)
  moved : Rearranges lo hi start (update locations left pivot)

/-- At the beginning the hole is where the pivot is. -/
theorem holed_start (locations : Nat → α) {left right : Nat} (h : left ≤ right) :
    Holed value left right locations (locations left) locations left right := by
  refine ⟨Nat.le_refl _, h, Nat.le_refl _, fun i hi hlt => absurd hlt (Nat.not_lt.mpr hi),
    fun i hi hle => absurd hi (Nat.not_lt.mpr hle), ?_⟩
  rw [update_eq_self]
  exact Rearranges.refl left right locations

section Hole

variable {value} {lo hi : Nat} {start locations : Nat → α} {pivot : α} {left right : Nat}

/-- The first half of a round: the hole goes to the right. -/
theorem Holed.goRight (h : Holed value lo hi start pivot locations left right) (hlt : left < right) :
    let r := scanRight value locations (value pivot) left right
    let s := if left ≠ r then (update locations left (locations r), left + 1) else (locations, left)
    (left < s.2 ∨ s.2 = r) ∧ lo ≤ s.2 ∧ s.2 ≤ r ∧ r ≤ right ∧ (∀ i, lo ≤ i → i < s.2 → value (s.1 i) ≤ value pivot) ∧
      (∀ i, r < i → i ≤ hi → value pivot ≤ value (s.1 i)) ∧ Rearranges lo hi start (update s.1 r pivot) := by
  obtain ⟨hlo, hhi, habove, hbelow⟩ := scanRight_spec value locations (value pivot) hlt.le
  intro r s
  have hlr : left ≤ r := hlo
  have hrr : r ≤ right := hhi
  have hle := h.le_hi
  have hll := h.lo_le
  have htail : ∀ i, r < i → i ≤ hi → value pivot ≤ value (locations i) := by
    intro i hi hle
    by_cases hin : i ≤ right
    · exact habove i hi hin
    · exact h.above i (by omega) hle
  by_cases hne : left = r
  · have hs : s = (locations, left) := if_neg (not_not.mpr hne)
    rw [hs]
    refine ⟨.inr hne, hll, by omega, hrr, h.below, htail, ?_⟩
    rw [← hne]
    exact h.moved
  · have hs : s = (update locations left (locations r), left + 1) := if_pos hne
    rw [hs]
    refine ⟨.inl (Nat.lt_succ_self left), by omega, by omega, hrr, ?_, ?_, ?_⟩
    · intro i hi hlt'
      by_cases hat : i = left
      · subst hat
        simp only [update_self]
        exact (hbelow (Ne.symm hne)).le
      · simp only [update_of_ne hat]
        exact h.below i hi (by omega)
    · intro i hi hle'
      have hat : i ≠ left := by omega
      simp only [update_of_ne hat]
      exact htail i hi hle'
    · show Rearranges lo hi start (update (update locations left (locations r)) r pivot)
      rw [update_hole locations pivot hne]
      exact h.moved.trans (Rearranges.swap _ ⟨by omega, by omega⟩ ⟨by omega, by omega⟩)

/-- The second half: the hole goes back to the left. -/
theorem Holed.goLeft {m r : Nat} (hlo : lo ≤ m) (hmr : m ≤ r) (hhi : r ≤ hi)
    (hbelow : ∀ i, lo ≤ i → i < m → value (locations i) ≤ value pivot)
    (habove : ∀ i, r < i → i ≤ hi → value pivot ≤ value (locations i))
    (hmoved : Rearranges lo hi start (update locations r pivot)) :
    let l := scanLeft value locations (value pivot) (r - m) m
    let t := if l ≠ r then (update locations r (locations l), r - 1) else (locations, r)
    m ≤ l ∧ t.2 ≤ r ∧ Holed value lo hi start pivot t.1 l t.2 := by
  obtain ⟨hml, hlr, hseen, hstop⟩ := scanLeft_spec value locations (value pivot) (r - m) m
  intro l t
  have hle : m ≤ l := hml
  have hlr' : l ≤ r := by
    have : l ≤ m + (r - m) := hlr
    omega
  have hhead : ∀ i, lo ≤ i → i < l → value (locations i) ≤ value pivot := by
    intro i hi hlt
    by_cases him : i < m
    · exact hbelow i hi him
    · exact hseen i (by omega) hlt
  by_cases hne : l = r
  · have ht : t = (locations, r) := if_neg (not_not.mpr hne)
    rw [ht]
    refine ⟨hle, Nat.le_refl _, ⟨by omega, by omega, hhi, hhead, habove, ?_⟩⟩
    rw [hne]
    exact hmoved
  · have ht : t = (update locations r (locations l), r - 1) := if_pos hne
    have hlt : l < r := by omega
    rw [ht]
    refine ⟨hle, Nat.sub_le _ _, ⟨by omega, by simp only; omega, by simp only; omega, ?_, ?_, ?_⟩⟩
    · intro i hi hlt'
      have hat : i ≠ r := by omega
      simp only [update_of_ne hat]
      exact hhead i hi hlt'
    · intro i hi hle'
      simp only at hi
      by_cases hat : i = r
      · subst hat
        simp only [update_self]
        have hgt : scanLeft value locations (value pivot) (i - m) m ≠ m + (i - m) := by
          show l ≠ _
          omega
        exact (hstop hgt).le
      · simp only [update_of_ne hat]
        exact habove i (by omega) hle'
    · show Rearranges lo hi start (update (update locations r (locations l)) l pivot)
      rw [update_hole locations pivot (Ne.symm hne)]
      exact hmoved.trans (Rearranges.swap _ ⟨by omega, by omega⟩ ⟨by omega, by omega⟩)

theorem moveHole_spec {n : Nat} (hn : right - left ≤ n) (h : Holed value lo hi start pivot locations left right) :
    Holed value lo hi start pivot (moveHole value (value pivot) n locations left right).1
      (moveHole value (value pivot) n locations left right).2 (moveHole value (value pivot) n locations left right).2 := by
  induction n generalizing locations left right with
  | zero =>
      have heq : left = right := by
        have := h.le_right
        omega
      subst heq
      exact h
  | succ n ih =>
      rw [moveHole]
      split
      · next hlt =>
          obtain ⟨hcloser, hlo, hmr, hrr, hbelow, habove, hmoved⟩ := h.goRight hlt
          obtain ⟨hml, htr, hholed⟩ := Holed.goLeft hlo hmr (hrr.trans h.le_hi) hbelow habove hmoved
          have hmeet := hholed.le_right
          apply ih _ hholed
          omega
      · next hge =>
          have heq : left = right := by
            have := h.le_right
            omega
          subst heq
          exact h

end Hole

/-- The values between two places ascend. -/
def Ascends (lo hi : Nat) (f : Nat → α) : Prop := ∀ i j, lo ≤ i → i ≤ j → j ≤ hi → value (f i) ≤ value (f j)

/-- What a sort does to the places from `lo` to `hi`: nothing where there are less than two. -/
def Sorts (lo hi : Nat) (f g : Nat → α) : Prop :=
  (lo < hi → Rearranges lo hi f g) ∧ (¬ lo < hi → g = f) ∧ Ascends value lo hi g

section Sides

variable {value} {lo hi pivot : Nat} {f g k m : Nat → α}

theorem Sorts.outside (h : Sorts value lo hi f g) {i : Nat} (hi' : ¬(lo ≤ i ∧ i ≤ hi)) : g i = f i := by
  by_cases hlt : lo < hi
  · exact (h.1 hlt).outside hi'
  · rw [h.2.1 hlt]

theorem Sorts.forall_mem (h : Sorts value lo hi f g) {p : α → Prop} (hp : ∀ i, lo ≤ i → i ≤ hi → p (f i)) (i : Nat)
    (hlo : lo ≤ i) (hhi : i ≤ hi) : p (g i) := by
  by_cases hlt : lo < hi
  · exact (h.1 hlt).forall_mem hp i hlo hhi
  · rw [h.2.1 hlt]
    exact hp i hlo hhi

theorem Sorts.rearranges (h : Sorts value lo hi f g) {lo' hi' : Nat} (hlo : lo' ≤ lo) (hhi : hi ≤ hi') : Rearranges lo' hi' f g := by
  by_cases hlt : lo < hi
  · exact (h.1 hlt).widen hlo hhi
  · rw [h.2.1 hlt]
    exact Rearranges.refl lo' hi' f

theorem Sorts.refl (h : ¬ lo < hi) : Sorts value lo hi f f := by
  refine ⟨fun hlt => absurd hlt h, fun _ => rfl, fun i j hi hij hj => ?_⟩
  have heq : i = j := by omega
  rw [heq]

/-- Both sides of the pivot are sorted one after the other: in the end the whole range is. -/
theorem Sorts.sides (hlo : lo ≤ pivot) (hhi : pivot ≤ hi) (hbelow : ∀ i, lo ≤ i → i < pivot → value (f i) ≤ value (f pivot))
    (habove : ∀ i, pivot < i → i ≤ hi → value (f pivot) ≤ value (f i)) (hleft : Sorts value lo (pivot - 1) f g)
    (hright : Sorts value (pivot + 1) hi g k) : Rearranges lo hi f k ∧ Ascends value lo hi k := by
  have hgleft : ∀ i, lo ≤ i → i < pivot → value (g i) ≤ value (f pivot) := fun i hi hlt =>
    hleft.forall_mem (p := fun x => value x ≤ value (f pivot)) (fun j hj hle => hbelow j hj (by omega)) i hi (by omega)
  -- with the pivot at the very beginning the left side is empty, also where `pivot - 1` is 0
  have hgsame : ∀ i, pivot ≤ i → g i = f i := by
    intro i hi
    by_cases hlt : lo < pivot
    · exact hleft.outside (by omega)
    · rw [hleft.2.1 (by omega)]
  have hkleft : ∀ i, i ≤ pivot → k i = g i := fun i hi => hright.outside (by omega)
  have hpivot : k pivot = f pivot := (hkleft pivot (Nat.le_refl _)).trans (hgsame pivot (Nat.le_refl _))
  have hkright : ∀ i, pivot < i → i ≤ hi → value (f pivot) ≤ value (k i) := fun i hi hle =>
    hright.forall_mem (p := fun x => value (f pivot) ≤ value x)
      (fun j hj hle' => by rw [hgsame j (by omega)]; exact habove j (by omega) hle') i hi hle
  have hle : ∀ i, lo ≤ i → i ≤ pivot → value (k i) ≤ value (f pivot) := by
    intro i hi hip
    by_cases hat : i = pivot
    · rw [hat, hpivot]
    · rw [hkleft i hip]
      exact hgleft i hi (by omega)
  refine ⟨(hleft.rearranges (Nat.le_refl lo) (by omega)).trans (hright.rearranges (by omega) (Nat.le_refl hi)), fun i j hi hij hj => ?_⟩
  by_cases hjp : j < pivot
  · rw [hkleft i (by omega), hkleft j hjp.le]
    exact hleft.2.2 i j hi hij (by omega)
  · by_cases hip : i ≤ pivot
    · calc value (k i) ≤ value (f pivot) := hle i hi hip
        _ ≤ value (k j) := by
          by_cases hat : j = pivot
          · rw [hat, hpivot]
          · exact hkright j (by omega) hj
    · exact hright.2.2 i j (by omega) hij hj

end Sides

theorem quicksort_spec (n : Nat) (locations : Nat → α) (left right : Nat) (hn : right - left < n) (h : left ≤ right) :
    Rearranges left right locations (quicksort value n locations left right) ∧
      Ascends value left right (quicksort value n locations left right) := by
  induction n generalizing locations left right with
  | zero => exact absurd hn (Nat.not_lt_zero _)
  | succ n ih =>
      have hend := moveHole_spec (Nat.le_refl _) (holed_start value locations h)
      rw [quicksort]
      generalize moveHole value (value (locations left)) (right - left) locations left right = s at hend ⊢
      obtain ⟨moved, pivot⟩ := s
      obtain ⟨hlo, -, hhi, hbelow, habove, hmoved⟩ := hend
      simp only at hlo hhi hbelow habove hmoved ⊢
      generalize hg : update moved pivot (locations left) = g at hmoved ⊢
      have hpivot : g pivot = locations left := by rw [← hg, update_self]
      have hother : ∀ i, i ≠ pivot → g i = moved i := fun i hi => by rw [← hg, update_of_ne hi]
      have hleft : Sorts value left (pivot - 1) g (if left < pivot then quicksort value n g left (pivot - 1) else g) := by
        split
        · next hlt =>
            obtain ⟨hre, hasc⟩ := ih g left (pivot - 1) (by omega) (by omega)
            refine ⟨fun _ => hre, fun hge => ?_, hasc⟩
            have heq : left = pivot - 1 := by omega
            exact hre.eq_of_single heq
        · exact Sorts.refl (by omega)
      generalize (if left < pivot then quicksort value n g left (pivot - 1) else g) = k at hleft ⊢
      have hright : Sorts value (pivot + 1) right k (if pivot < right then quicksort value n k (pivot + 1) right else k) := by
        split
        · next hlt =>
            obtain ⟨hre, hasc⟩ := ih k (pivot + 1) right (by omega) (by omega)
            refine ⟨fun _ => hre, fun hge => ?_, hasc⟩
            have heq : pivot + 1 = right := by omega
            exact hre.eq_of_single heq
        · exact Sorts.refl (by omega)
      obtain ⟨hre, hasc⟩ := Sorts.sides hlo hhi (fun i hi hlt => by rw [hother i (by omega), hpivot]; exact hbelow i hi hlt)
        (fun i hi hle => by rw [hother i (by omega), hpivot]; exact habove i hi hle) hleft hright
      exact ⟨hmoved.trans hre, hasc⟩

/-! ## Elements are read as others

The sort of what is read of the elements is what is read of their sort; places behind `hi` have no part in it. -/

section Agrees

variable {β : Type} {m : β → α} {hi : Nat} {f : Nat → α} {g : Nat → β}

def Agrees (m : β → α) (hi : Nat) (f : Nat → α) (g : Nat → β) : Prop := ∀ i, i ≤ hi → f i = m (g i)

theorem Agrees.update (h : Agrees m hi f g) (i : Nat) {a : α} {b : β} (hab : a = m b) : Agrees m hi (update f i a) (update g i b) := by
  intro j hj
  by_cases hji : j = i
  · subst hji
    rw [update_self, update_self, hab]
  · rw [update_of_ne hji, update_of_ne hji, h j hj]

theorem scanRight_agrees (h : Agrees m hi f g) (pivotValue : Int) (left : Nat) {right : Nat} (hright : right ≤ hi) :
    scanRight value f pivotValue left right = scanRight (value ∘ m) g pivotValue left right := by
  induction right with
  | zero => rfl
  | succ right ih =>
      rw [scanRight, scanRight, h _ hright, ih (Nat.le_of_succ_le hright)]
      rfl

theorem scanLeft_agrees (h : Agrees m hi f g) (pivotValue : Int) {n left : Nat} (hleft : left + n ≤ hi) :
    scanLeft value f pivotValue n left = scanLeft (value ∘ m) g pivotValue n left := by
  induction n generalizing left with
  | zero => rfl
  | succ n ih =>
      rw [scanLeft, scanLeft, h _ (by omega), ih (by omega)]
      rfl

theorem moveHole_agrees (h : Agrees m hi f g) (pivotValue : Int) (n : Nat) {left right : Nat} (hright : right ≤ hi) :
    (moveHole value pivotValue n f left right).2 = (moveHole (value ∘ m) pivotValue n g left right).2 ∧
      Agrees m hi (moveHole value pivotValue n f left right).1 (moveHole (value ∘ m) pivotValue n g left right).1 := by
  induction n generalizing f g left right with
  | zero => exact ⟨rfl, h⟩
  | succ n ih =>
      rw [moveHole, moveHole]
      by_cases hlt : left < right
      · obtain ⟨hlr, hrr, -, -⟩ := scanRight_spec (value ∘ m) g pivotValue hlt.le
        rw [if_pos hlt, if_pos hlt, scanRight_agrees value h pivotValue left hright]
        dsimp only
        generalize scanRight (value ∘ m) g pivotValue left right = r at hlr hrr ⊢
        have hfirst : ∀ (s : (Nat → α) × Nat) (s' : (Nat → β) × Nat),
            s = (if left ≠ r then (update f left (f r), left + 1) else (f, left)) →
            s' = (if left ≠ r then (update g left (g r), left + 1) else (g, left)) →
              s.2 = s'.2 ∧ s'.2 ≤ r ∧ Agrees m hi s.1 s'.1 := by
          rintro s s' rfl rfl
          split
          · exact ⟨rfl, by dsimp only; omega, h.update left (h r (hrr.trans hright))⟩
          · exact ⟨rfl, hlr, h⟩
        generalize (if left ≠ r then (update f left (f r), left + 1) else (f, left)) = s at hfirst ⊢
        generalize (if left ≠ r then (update g left (g r), left + 1) else (g, left)) = s' at hfirst ⊢
        obtain ⟨heq, hle, hs⟩ := hfirst s s' rfl rfl
        obtain ⟨-, hl, -, -⟩ := scanLeft_spec (value ∘ m) s'.1 pivotValue (r - s'.2) s'.2
        rw [heq, scanLeft_agrees value hs pivotValue (by omega)]
        generalize scanLeft (value ∘ m) s'.1 pivotValue (r - s'.2) s'.2 = l at hl ⊢
        by_cases hne : l ≠ r
        · rw [if_pos hne, if_pos hne]
          exact ih (hs.update r (hs l (by omega))) (by dsimp only; omega)
        · rw [if_neg hne, if_neg hne]
          exact ih hs (hrr.trans hright)
      · rw [if_neg hlt, if_neg hlt]
        exact ⟨rfl, h⟩

theorem quicksort_agrees (h : Agrees m hi f g) (n : Nat) {left right : Nat} (hle : left ≤ right) (hright : right ≤ hi) :
    Agrees m hi (quicksort value n f left right) (quicksort (value ∘ m) n g left right) := by
  induction n generalizing f g left right with
  | zero => exact h
  | succ n ih =>
      have hpivot : f left = m (g left) := h left (hle.trans hright)
      have hvalue : value (f left) = (value ∘ m) (g left) := congrArg value hpivot
      have hend := moveHole_spec (Nat.le_refl _) (holed_start (value ∘ m) g hle)
      obtain ⟨heq, hmoved⟩ := moveHole_agrees value h ((value ∘ m) (g left)) (right - left) hright
      rw [quicksort, quicksort, hvalue, heq]
      generalize moveHole value ((value ∘ m) (g left)) (right - left) f left right = s at hmoved ⊢
      generalize moveHole (value ∘ m) ((value ∘ m) (g left)) (right - left) g left right = s' at hend hmoved ⊢
      obtain ⟨hlo, -, hhi, -, -, -⟩ := hend
      have hstart : Agrees m hi (update s.1 s'.2 (f left)) (update s'.1 s'.2 (g left)) := hmoved.update _ hpivot
      generalize update s.1 s'.2 (f left) = f₁ at hstart ⊢
      generalize update s'.1 s'.2 (g left) = g₁ at hstart ⊢
      have hbehind : ∀ {f₂ : Nat → α} {g₂ : Nat → β}, Agrees m hi f₂ g₂ →
          Agrees m hi (if s'.2 < right then quicksort value n f₂ (s'.2 + 1) right else f₂)
            (if s'.2 < right then quicksort (value ∘ m) n g₂ (s'.2 + 1) right else g₂) := by
        intro f₂ g₂ hagree
        split
        · next hlt => exact ih hagree hlt hright
        · exact hagree
      by_cases hlt : left < s'.2
      · rw [if_pos hlt, if_pos hlt]
        exact hbehind (ih hstart (by omega) (by omega))
      · rw [if_neg hlt, if_neg hlt]
        exact hbehind hstart

end Agrees

/-- `sort` puts the elements into ascending order. -/
theorem sort_spec (l : List α) : (sort value l).Perm l ∧ (sort value l).Pairwise (fun x y => value x ≤ value y) := by
  cases l with
  | nil => exact ⟨List.Perm.refl _, List.Pairwise.nil⟩
  | cons x l =>
      obtain ⟨hre, hasc⟩ := quicksort_spec value (x :: l).length (fun i => ((x :: l)[i]?).getD x) 0 ((x :: l).length - 1) (by simp)
        (Nat.zero_le _)
      have hlist : (List.range (x :: l).length).map (fun i => ((x :: l)[i]?).getD x) = x :: l := by
        apply List.ext_getElem
        · simp
        · intro i hi hi'
          rw [List.getElem_map, List.getElem_range, List.getElem?_eq_getElem hi', Option.getD_some]
      constructor
      · have hperm := hre.map_perm (n := (x :: l).length) (by simp)
        rwa [hlist] at hperm
      · rw [sort, List.pairwise_map]
        refine List.pairwise_lt_range.imp_of_mem fun {i j} hi hj hlt => ?_
        exact hasc i j (Nat.zero_le _) hlt.le (by rw [List.mem_range] at hj; omega)

end BeagleCache.ListSort
