import Mathlib.Tactic
import Mathlib.Data.List.Basic

/-! Lists of pieces that tile an interval of positions: each piece starts where the one before ends,
and none is empty. Pieces are any type with an offset and a length. A tiling covers each position
exactly once; conversely, pieces in order of their offsets that cover each position exactly once are a
tiling. -/

namespace BeagleCache.Tiling

variable {α : Type} {off len : α → Nat}

/-- The pieces tile the positions from `a` to `n`. -/
def Tiles (off len : α → Nat) : Nat → Nat → List α → Prop
  | a, n, [] => a = n
  | a, n, x :: xs => off x = a ∧ 0 < len x ∧ Tiles off len (a + len x) n xs

/-- The position `p` lies in the piece `x`. -/
def Holds (off len : α → Nat) (x : α) (p : Nat) : Prop := off x ≤ p ∧ p < off x + len x

instance (x : α) (p : Nat) : Decidable (Holds off len x p) :=
  inferInstanceAs (Decidable (_ ∧ _))

@[simp] theorem tiles_nil {a n : Nat} : Tiles off len a n [] ↔ a = n := Iff.rfl

@[simp] theorem tiles_cons {a n : Nat} {x : α} {xs : List α} :
    Tiles off len a n (x :: xs) ↔ off x = a ∧ 0 < len x ∧ Tiles off len (a + len x) n xs := Iff.rfl

theorem tiles_sum {a n : Nat} {xs : List α} (h : Tiles off len a n xs) : a + (xs.map len).sum = n := by
  induction xs generalizing a with
  | nil => simpa using h
  | cons x xs ih =>
      have := ih h.2.2
      simp only [List.map_cons, List.sum_cons]
      omega

theorem tiles_le {a n : Nat} {xs : List α} (h : Tiles off len a n xs) : a ≤ n := by
  have := tiles_sum h
  omega

theorem tiles_ne_nil {a n : Nat} {xs : List α} (h : Tiles off len a n xs) (hlt : a < n) : xs ≠ [] := by
  rintro rfl
  exact hlt.ne h

theorem tiles_mem {a n : Nat} {xs : List α} (h : Tiles off len a n xs) {x : α} (hx : x ∈ xs) :
    a ≤ off x ∧ off x + len x ≤ n ∧ 0 < len x := by
  induction xs generalizing a with
  | nil => cases hx
  | cons y xs ih =>
      obtain ⟨hoff, hlen, htail⟩ := h
      rcases List.mem_cons.mp hx with rfl | hmem
      · have := tiles_le htail
        omega
      · have := ih htail hmem
        omega

/-- A piece ends before every later piece starts. -/
theorem tiles_pairwise {a n : Nat} {xs : List α} (h : Tiles off len a n xs) :
    xs.Pairwise (fun x y => off x + len x ≤ off y) := by
  induction xs generalizing a with
  | nil => exact List.Pairwise.nil
  | cons x xs ih =>
      obtain ⟨hoff, _, htail⟩ := h
      refine List.Pairwise.cons ?_ (ih htail)
      intro y hy
      have := (tiles_mem htail hy).1
      omega

/-- Pieces numbered in their order: an earlier one ends before a later one starts. -/
theorem tiles_range'_lt {off len : Nat → Nat} {a n f c : Nat} (h : Tiles off len a n (List.range' f c)) {x y : Nat}
    (hx : f ≤ x) (hxy : x < y) (hy : y < f + c) : off x + len x ≤ off y := by
  have hpair := List.pairwise_iff_getElem.mp (tiles_pairwise h) (x - f) (y - f) (by simp; omega) (by simp; omega) (by omega)
  simp only [List.getElem_range', Nat.one_mul] at hpair
  rwa [show f + (x - f) = x by omega, show f + (y - f) = y by omega] at hpair

/-- Two pieces of a tiling that share a position are the same piece. -/
theorem tiles_unique {a n : Nat} {xs : List α} (h : Tiles off len a n xs) {x y : α} (hx : x ∈ xs)
    (hy : y ∈ xs) {p : Nat} (hxp : Holds off len x p) (hyp : Holds off len y p) : x = y := by
  induction xs generalizing a with
  | nil => cases hx
  | cons z xs ih =>
      have htail := h.2.2
      have hbefore : ∀ w ∈ xs, ¬ (Holds off len z p ∧ Holds off len w p) := by
        intro w hw hboth
        have := (List.pairwise_cons.mp (tiles_pairwise h)).1 w hw
        have hz := hboth.1.2
        have hwp := hboth.2.1
        omega
      rcases List.mem_cons.mp hx with rfl | hx' <;> rcases List.mem_cons.mp hy with rfl | hy'
      · rfl
      · exact absurd ⟨hxp, hyp⟩ (hbefore y hy')
      · exact absurd ⟨hyp, hxp⟩ (hbefore x hx')
      · exact ih htail hx' hy'

theorem tiles_cover {a n : Nat} {xs : List α} (h : Tiles off len a n xs) {p : Nat} (hap : a ≤ p)
    (hpn : p < n) : ∃ x ∈ xs, Holds off len x p := by
  induction xs generalizing a with
  | nil =>
      have : a = n := h
      omega
  | cons x xs ih =>
      obtain ⟨hoff, _, htail⟩ := h
      by_cases hp : p < a + len x
      · exact ⟨x, by simp, by omega, by omega⟩
      · obtain ⟨y, hy, hyp⟩ := ih htail (by omega)
        exact ⟨y, List.mem_cons_of_mem x hy, hyp⟩

theorem tiles_append {a n : Nat} {xs ys : List α} :
    Tiles off len a n (xs ++ ys) ↔ ∃ m, Tiles off len a m xs ∧ Tiles off len m n ys := by
  induction xs generalizing a with
  | nil => simp
  | cons x xs ih =>
      simp only [List.cons_append, tiles_cons, ih]
      constructor
      · rintro ⟨hoff, hlen, m, hxs, hys⟩
        exact ⟨m, ⟨hoff, hlen, hxs⟩, hys⟩
      · rintro ⟨m, ⟨hoff, hlen, hxs⟩, hys⟩
        exact ⟨hoff, hlen, m, hxs, hys⟩

theorem tiles_map {β : Type} {f : β → α} {a n : Nat} {ys : List β} :
    Tiles off len a n (ys.map f) ↔ Tiles (off ∘ f) (len ∘ f) a n ys := by
  induction ys generalizing a with
  | nil => simp
  | cons y ys ih => simp [ih]

theorem tiles_congr {off' len' : α → Nat} {a n : Nat} {xs : List α} (hoff : ∀ x ∈ xs, off x = off' x)
    (hlen : ∀ x ∈ xs, len x = len' x) (h : Tiles off len a n xs) : Tiles off' len' a n xs := by
  induction xs generalizing a with
  | nil => exact h
  | cons x xs ih =>
      obtain ⟨hx, hpos, htail⟩ := h
      have hlen' := hlen x (by simp)
      refine ⟨by rw [← hoff x (by simp), hx], by omega, ?_⟩
      rw [← hlen']
      exact ih (fun y hy => hoff y (List.mem_cons_of_mem x hy))
        (fun y hy => hlen y (List.mem_cons_of_mem x hy)) htail

/-- Pieces in the order of their offsets that cover each position exactly once tile the interval. -/
theorem tiles_of_cover {n : Nat} {xs : List α} {a : Nat} (hle : a ≤ n)
    (hsorted : xs.Pairwise (fun x y => off x ≤ off y))
    (hrange : ∀ x ∈ xs, a ≤ off x ∧ off x + len x ≤ n ∧ 0 < len x)
    (hcover : ∀ p, a ≤ p → p < n → ∃ x ∈ xs, Holds off len x p)
    (hdisjoint : xs.Pairwise (fun x y => ∀ p, ¬ (Holds off len x p ∧ Holds off len y p))) :
    Tiles off len a n xs := by
  induction xs generalizing a with
  | nil =>
      by_contra hne
      obtain ⟨x, hx, _⟩ := hcover a (le_refl a) (by simp only [tiles_nil] at hne; omega)
      cases hx
  | cons x xs ih =>
      obtain ⟨hfirst, hsorted'⟩ := List.pairwise_cons.mp hsorted
      obtain ⟨hapart, hdisjoint'⟩ := List.pairwise_cons.mp hdisjoint
      obtain ⟨hax, hxn, hpos⟩ := hrange x (by simp)
      -- the position `a` lies in some piece, and no piece starts before the first one
      have hoff : off x = a := by
        obtain ⟨y, hy, hyp⟩ := hcover a (le_refl a) (by omega)
        have := hyp.1
        rcases List.mem_cons.mp hy with rfl | hmem
        · omega
        · have := hfirst y hmem
          omega
      refine ⟨hoff, hpos, ih (by omega) hsorted' ?_ ?_ hdisjoint'⟩
      · intro y hy
        obtain ⟨_, hyn, hylen⟩ := hrange y (List.mem_cons_of_mem x hy)
        refine ⟨?_, hyn, hylen⟩
        by_contra hlt
        have hle' := hfirst y hy
        exact hapart y hy (off y) ⟨⟨hle', by omega⟩, ⟨le_refl _, by omega⟩⟩
      · intro p hp hpn
        obtain ⟨y, hy, hyp⟩ := hcover p (by omega) hpn
        rcases List.mem_cons.mp hy with rfl | hmem
        · have := hyp.2
          omega
        · exact ⟨y, hmem, hyp⟩

/-- The positions where the pieces end. -/
def ends (off len : α → Nat) (xs : List α) : List Nat := xs.map fun x => off x + len x

theorem mem_ends {xs : List α} {e : Nat} : e ∈ ends off len xs ↔ ∃ x ∈ xs, off x + len x = e := by
  simp [ends]

/-- Pieces numbered in their order, by their ends: each end is a partial sum of lengths. -/
theorem mem_ends_range' {off len : Nat → Nat} {n f c e : Nat} (h : Tiles off len 0 n (List.range' f c)) :
    e ∈ ends off len (List.range' f c) ↔ ∃ m, 0 < m ∧ m ≤ c ∧ ((List.range' f m).map len).sum = e := by
  have hoff : ∀ m, m < c → off (f + m) = ((List.range' f m).map len).sum := by
    intro m hm
    have hsplit : List.range' f c = List.range' f m ++ List.range' (f + m) (c - m) := by
      rw [List.range'_append_1, Nat.add_sub_cancel' (by omega)]
    rw [hsplit] at h
    obtain ⟨a, hfront, hback⟩ := tiles_append.mp h
    rw [show c - m = (c - m - 1) + 1 by omega, List.range'_succ] at hback
    have := tiles_sum hfront
    have := hback.1
    omega
  have hend : ∀ m, m < c → off (f + m) + len (f + m) = ((List.range' f (m + 1)).map len).sum := by
    intro m hm
    rw [hoff m hm, List.range'_1_concat, List.map_append, List.sum_append, List.map_singleton, List.sum_singleton]
  rw [mem_ends]
  constructor
  · rintro ⟨x, hx, rfl⟩
    rw [List.mem_range'_1] at hx
    obtain ⟨m, rfl⟩ := Nat.exists_eq_add_of_le hx.1
    exact ⟨m + 1, by omega, by omega, (hend m (by omega)).symm⟩
  · rintro ⟨m, hpos, hm, rfl⟩
    refine ⟨f + (m - 1), ?_, ?_⟩
    · rw [List.mem_range'_1]
      omega
    · rw [hend _ (by omega), Nat.sub_add_cancel hpos]

/-- Pieces numbered in their order tile an interval when each starts behind the sum of those before it. -/
theorem tiles_partialSums {len : Nat → Nat} {f c : Nat} (hpos : ∀ k, f ≤ k → k < f + c → 0 < len k) :
    Tiles (fun k => ((List.range' f (k - f)).map len).sum) len 0 ((List.range' f c).map len).sum (List.range' f c) := by
  induction c with
  | zero => rfl
  | succ c ih =>
      rw [List.range'_1_concat, tiles_append]
      refine ⟨_, ih fun k hk hlt => hpos k hk (by omega), ?_, hpos (f + c) (by omega) (by omega), ?_⟩
      · show ((List.range' f (f + c - f)).map len).sum = _
        rw [Nat.add_sub_cancel_left]
      · rw [List.map_append, List.sum_append, List.map_singleton, List.sum_singleton]
        rfl

/-- A tiling with no cut inside is one piece. -/
theorem tiles_eq_singleton {a n : Nat} {xs : List α} (h : Tiles off len a n xs) (hlt : a < n)
    (hends : ∀ x ∈ xs, off x + len x = n) : ∃ x, xs = [x] ∧ off x = a ∧ len x = n - a := by
  cases xs with
  | nil =>
      have : a = n := h
      omega
  | cons x xs =>
      obtain ⟨hoff, hpos, htail⟩ := h
      have hend := hends x (by simp)
      cases xs with
      | nil => exact ⟨x, rfl, hoff, by omega⟩
      | cons y xs =>
          have hy := hends y (by simp)
          have hyoff := htail.1
          have hypos := htail.2.1
          omega

/-! ## Pieces that may be empty -/

/-- The pieces lie one behind the other from `a` to `n`. -/
def Abut (off len : α → Nat) : Nat → Nat → List α → Prop
  | a, n, [] => a = n
  | a, n, x :: xs => off x = a ∧ Abut off len (a + len x) n xs

theorem sum_le_of_disjoint {a n : Nat} {xs : List α} (han : a ≤ n) (h : xs.Pairwise fun x y => off x + len x ≤ off y)
    (hbounds : ∀ x ∈ xs, a ≤ off x ∧ off x + len x ≤ n) : a + (xs.map len).sum ≤ n := by
  induction xs generalizing a with
  | nil => simpa using han
  | cons x xs ih =>
      obtain ⟨hx, hrest⟩ := List.pairwise_cons.mp h
      obtain ⟨hfirst, hlast⟩ := hbounds x List.mem_cons_self
      have := ih hlast hrest fun y hy => ⟨hx y hy, (hbounds y (List.mem_cons_of_mem x hy)).2⟩
      rw [List.map_cons, List.sum_cons]
      omega

/-- Disjoint pieces in order, as long together as the interval they lie in, leave nothing out. -/
theorem abut_of_disjoint {a n : Nat} {xs : List α} (h : xs.Pairwise fun x y => off x + len x ≤ off y)
    (hbounds : ∀ x ∈ xs, a ≤ off x ∧ off x + len x ≤ n) (hsum : a + (xs.map len).sum = n) : Abut off len a n xs := by
  induction xs generalizing a with
  | nil =>
      rw [List.map_nil, List.sum_nil, Nat.add_zero] at hsum
      exact hsum
  | cons x xs ih =>
      obtain ⟨hx, hrest⟩ := List.pairwise_cons.mp h
      obtain ⟨hfirst, hlast⟩ := hbounds x List.mem_cons_self
      rw [List.map_cons, List.sum_cons] at hsum
      have hafter : ∀ y ∈ xs, off x + len x ≤ off y ∧ off y + len y ≤ n := fun y hy =>
        ⟨hx y hy, (hbounds y (List.mem_cons_of_mem x hy)).2⟩
      have hle := sum_le_of_disjoint hlast hrest hafter
      have hoff : off x = a := by omega
      rw [hoff] at hafter
      exact ⟨hoff, ih hrest hafter (by omega)⟩

end BeagleCache.Tiling
