import Mathlib.Tactic
import BeagleCache.Turns

/-! A table that counts how often each lock is held, when every holder takes and gives back in turn. -/

namespace LockTable

open Turns Function

variable {α : Type} [DecidableEq α] [BEq α] [LawfulBEq α]

/-- The table counts what is held; a holder has at most one lock. -/
def Counts (table : α → Nat) (held : List (Option α)) : Prop := ∀ x, table x = held.count (some x)

/-- What an operation does to the table. -/
def apply (table : α → Nat) : Op α → α → Nat
  | .take x => update table x (table x + 1)
  | .give x => update table x (table x - 1)

variable {table : α → Nat} {held : List (Option α)} {i : Nat} {o o' : Option α} {x : α}

omit [DecidableEq α] [LawfulBEq α] in
theorem counts_nil : Counts (fun _ : α => 0) [] := fun _ => rfl

omit [DecidableEq α] [LawfulBEq α] in
/-- A holder comes that has nothing. -/
theorem Counts.concat_none (h : Counts table held) : Counts table (held ++ [none]) := by
  intro x
  rw [h x, List.count_append]
  rfl

/-- The locks of the others, and the one of the holder. -/
theorem count_set (hi : held[i]? = some o) (o' : Option α) (x : α) :
    (held.set i o').count (some x) + (if o = some x then 1 else 0) = held.count (some x) + if o' = some x then 1 else 0 := by
  obtain ⟨hlt, hget⟩ := List.getElem?_eq_some_iff.mp hi
  have hpos : o = some x → 0 < held.count (some x) := by
    intro ho
    rw [List.count_pos_iff, ← ho, ← hget]
    exact List.getElem_mem hlt
  rw [List.count_set hlt, hget]
  simp only [beq_iff_eq]
  by_cases ho : o = some x
  · have hheld := hpos ho
    rw [if_pos ho]
    omega
  · rw [if_neg ho]
    omega

theorem Counts.step (h : Counts table held) (hi : held[i]? = some o) (op : Op α) (hstep : Turns.step o op = some o') :
    Counts (apply table op) (held.set i o') := by
  intro y
  have hset := count_set hi o' y
  have hold := h y
  cases op with
  | take x =>
      cases o with
      | some z => cases hstep
      | none =>
          obtain rfl := Option.some.inj hstep
          rw [if_neg (Option.some_ne_none y).symm] at hset
          show update table x (table x + 1) y = _
          by_cases hxy : y = x
          · subst hxy
            rw [if_pos rfl] at hset
            rw [update_self]
            omega
          · rw [if_neg fun heq => hxy (Option.some.inj heq).symm] at hset
            rw [update_of_ne hxy]
            omega
  | give x =>
      cases o with
      | none => cases hstep
      | some z =>
          obtain ⟨rfl, hnone⟩ := Option.ite_none_right_eq_some.mp (hstep : (if z = x then some none else none) = some o')
          obtain rfl := Option.some.inj hnone
          rw [if_neg (Option.some_ne_none y).symm] at hset
          show update table z (table z - 1) y = _
          by_cases hxy : y = z
          · subst hxy
            rw [if_pos rfl] at hset
            rw [update_self]
            omega
          · rw [if_neg fun heq => hxy (Option.some.inj heq).symm] at hset
            rw [update_of_ne hxy]
            omega

/-- A holder keeps to its turns. -/
theorem Counts.run (h : Counts table held) (hi : held[i]? = some o) {ops : List (Op α)} (hrun : Turns.run o ops = some o') :
    Counts (ops.foldl apply table) (held.set i o') := by
  induction ops generalizing table held o with
  | nil =>
      obtain rfl := Option.some.inj hrun
      obtain ⟨hlt, hget⟩ := List.getElem?_eq_some_iff.mp hi
      rw [← hget, List.set_getElem_self]
      exact h
  | cons op ops ih =>
      rw [run_cons] at hrun
      obtain ⟨middle, hfirst, hrest⟩ := Option.bind_eq_some_iff.mp hrun
      obtain ⟨hlt, -⟩ := List.getElem?_eq_some_iff.mp hi
      have hlater := ih (h.step hi op hfirst) (List.getElem?_set_self hlt) hrest
      rwa [List.set_set] at hlater

omit [DecidableEq α] in
theorem Counts.ne_zero_iff (h : Counts table held) : table x ≠ 0 ↔ ∃ i : Nat, held[i]? = some (some x) := by
  rw [h x, ← Nat.pos_iff_ne_zero, List.count_pos_iff, List.mem_iff_getElem?]

/-- What is counted once is held by one. -/
theorem Counts.existsUnique (h : Counts table held) (hone : table x = 1) : ∃! i : Nat, held[i]? = some (some x) := by
  have hlocked : table x ≠ 0 := by
    rw [hone]
    decide
  obtain ⟨i, hi⟩ := h.ne_zero_iff.mp hlocked
  refine ⟨i, hi, fun j hj => ?_⟩
  by_contra hne
  have hothers := count_set hi none x
  rw [← h x, hone, if_pos rfl, if_neg (Option.some_ne_none x).symm] at hothers
  have hthere : some x ∈ held.set i none := by
    rw [List.mem_iff_getElem?]
    refine ⟨j, ?_⟩
    rw [List.getElem?_set_ne (Ne.symm hne)]
    exact hj
  have hpos := List.count_pos_iff.mpr hthere
  omega

end LockTable
