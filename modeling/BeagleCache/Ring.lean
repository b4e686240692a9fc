import Mathlib.Tactic
import Mathlib.Data.List.Basic

/-! A circular buffer read as a queue. The buffer holds `size` cells and a position; the cell at the
position is the oldest entry, overwriting it and moving the position on drops the oldest entry and
appends the new one. Nothing else about the position can be observed through the queue. -/

namespace BeagleCache.Ring

variable {α : Type}

/-- The entries of the ring, oldest first. -/
def queue (buf : Nat → α) (pos size : Nat) : List α :=
  (List.range size).map fun i => buf ((pos + i) % size)

@[simp] theorem queue_length (buf : Nat → α) (pos size : Nat) : (queue buf pos size).length = size := by
  simp [queue]

theorem queue_getElem? (buf : Nat → α) (pos size i : Nat) (hi : i < size) :
    (queue buf pos size)[i]? = some (buf ((pos + i) % size)) := by
  simp [queue, hi]

/-- The cell at the position is the oldest entry. -/
theorem queue_head? (buf : Nat → α) {pos size : Nat} (hpos : pos < size) :
    (queue buf pos size).head? = some (buf pos) := by
  rw [List.head?_eq_getElem?, queue_getElem? buf pos size 0 (by omega), Nat.add_zero,
    Nat.mod_eq_of_lt hpos]

/-- A constant buffer is the same queue at every position. -/
theorem queue_const (a : α) (pos size : Nat) :
    queue (fun _ => a) pos size = List.replicate size a := by
  simp [queue, List.map_const']

/-- Overwriting the oldest cell and moving on is a step of the queue. -/
theorem queue_push (buf : Nat → α) {pos size : Nat} (hpos : pos < size) (a : α) :
    queue (Function.update buf pos a) ((pos + 1) % size) size = (queue buf pos size).tail ++ [a] := by
  apply List.ext_getElem?
  intro i
  by_cases hi : i < size
  · have hmod : ((pos + 1) % size + i) % size = (pos + 1 + i) % size := by simp
    rw [queue_getElem? _ _ _ _ hi, hmod]
    by_cases hlast : i + 1 < size
    · -- an entry that was there before moves one place to the front
      have hne : (pos + 1 + i) % size ≠ pos := by
        intro heq
        by_cases hwrap : pos + 1 + i < size
        · rw [Nat.mod_eq_of_lt hwrap] at heq
          omega
        · rw [Nat.mod_eq_sub_mod (by omega), Nat.mod_eq_of_lt (by omega)] at heq
          omega
      rw [List.getElem?_append_left (by simp; omega), List.getElem?_tail,
        queue_getElem? _ _ _ _ hlast, Function.update_of_ne hne]
      congr 3
      omega
    · -- the last entry is the one just written
      have hsize : i + 1 = size := by omega
      have hpos' : (pos + 1 + i) % size = pos := by
        rw [show pos + 1 + i = pos + size by omega, Nat.add_mod_right, Nat.mod_eq_of_lt hpos]
      have hlen : (queue buf pos size).tail.length ≤ i := by simp; omega
      rw [hpos', Function.update_self, List.getElem?_append_right hlen]
      simp only [List.length_tail, queue_length]
      rw [show i - (size - 1) = 0 by omega]
      rfl
  · rw [List.getElem?_eq_none (by simp; omega), List.getElem?_eq_none (by simp; omega)]

end BeagleCache.Ring
