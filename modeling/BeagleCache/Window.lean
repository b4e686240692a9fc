import Mathlib.Tactic

/-! The last `n` of the elements that were let in, where an element is let in only if it is not among the last `n`. -/

namespace Window

variable {α : Type} [DecidableEq α] {n : Nat}

/-- The last `n` elements. -/
def recent (n : Nat) (l : List α) : List α := l.drop (l.length - n)

/-- An element comes in unless it is among the last `n`. -/
def offer (n : Nat) (l : List α) (a : α) : List α := if a ∈ recent n l then l else l ++ [a]

/-- The elements that come in when a list of elements is offered. -/
def admitted (n : Nat) (offers : List α) : List α := offers.foldl (offer n) []

omit [DecidableEq α] in
theorem recent_length (l : List α) : (recent n l).length = min l.length n := by
  rw [recent, List.length_drop]
  omega

omit [DecidableEq α] in
theorem recent_eq_self {l : List α} (h : l.length ≤ n) : recent n l = l := by rw [recent, Nat.sub_eq_zero_of_le h, List.drop_zero]

omit [DecidableEq α] in
/-- While there is room an element comes in at the end. -/
theorem recent_append_of_lt {l : List α} (h : (recent n l).length < n) (a : α) : recent n (l ++ [a]) = recent n l ++ [a] := by
  rw [recent_length] at h
  have hafter : (l ++ [a]).length ≤ n := by
    rw [List.length_append, List.length_singleton]
    omega
  rw [recent_eq_self hafter, recent_eq_self (by omega)]

omit [DecidableEq α] in
/-- In a full window the oldest element makes room. -/
theorem recent_append_of_le {l : List α} (hpos : 0 < n) (h : n ≤ (recent n l).length) (a : α) :
    recent n (l ++ [a]) = (recent n l).tail ++ [a] := by
  rw [recent_length] at h
  have hlength : (l ++ [a]).length - n = l.length - n + 1 := by
    rw [List.length_append, List.length_singleton]
    omega
  have hdrop : l.length - n + 1 ≤ l.length := by omega
  rw [recent, recent, hlength, List.drop_append_of_le_length hdrop, List.tail_drop]

/-- What is offered once more than the list so far. -/
theorem admitted_append (offers more : List α) : admitted n (offers ++ more) = more.foldl (offer n) (admitted n offers) := by
  rw [admitted, List.foldl_append]
  rfl

/-- The last `n` elements are different ones. -/
theorem recent_admit_nodup (hpos : 0 < n) {l : List α} (h : (recent n l).Nodup) (a : α) : (recent n (offer n l a)).Nodup := by
  rw [offer]
  split
  · exact h
  · rename_i hnew
    have happend : ∀ k : List α, k.Sublist (recent n l) → (k ++ [a]).Nodup := by
      intro k hk
      rw [List.nodup_append]
      refine ⟨h.sublist hk, List.nodup_singleton a, ?_⟩
      rintro b hb _ hmem rfl
      rw [List.mem_singleton.mp hmem] at hb
      exact hnew (hk.subset hb)
    rcases Nat.lt_or_ge (recent n l).length n with hlt | hle
    · rw [recent_append_of_lt hlt]
      exact happend _ (List.Sublist.refl _)
    · rw [recent_append_of_le hpos hle]
      exact happend _ (List.tail_sublist _)

end Window
