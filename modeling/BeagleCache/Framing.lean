import Mathlib.Tactic

/-! Messages in a stream. The stream is the concatenation of messages, and a reader that has seen a first part of it has
seen some of the messages and a part of the next one. -/

namespace Framing

variable {α : Type}

/-- What is left of a stream behind its complete messages, `rest` being the messages that are not. -/
def Incomplete (left : List α) : List (List α) → Prop
  | [] => left = []
  | m :: _ => left <+: m ∧ left.length < m.length

theorem Incomplete.length_lt {left : List α} {rest : List (List α)} {n : Nat} (h : Incomplete left rest) (hn : 0 < n)
    (hrest : ∀ m ∈ rest, m.length ≤ n) : left.length < n := by
  cases rest with
  | nil =>
      rw [show left = [] from h]
      exact hn
  | cons m rest => exact lt_of_lt_of_le h.2 (hrest m (by simp))

/-- A first part of a stream is some messages and an incomplete one. -/
theorem exists_split (msgs : List (List α)) (k : Nat) :
    ∃ done rest left, msgs = done ++ rest ∧ msgs.flatten.take k = done.flatten ++ left ∧ Incomplete left rest := by
  induction msgs generalizing k with
  | nil => exact ⟨[], [], [], rfl, by simp, rfl⟩
  | cons m msgs ih =>
      by_cases hk : k < m.length
      · refine ⟨[], m :: msgs, m.take k, rfl, ?_, List.take_prefix k m, ?_⟩
        · rw [List.flatten_cons, List.take_append_of_le_length hk.le, List.flatten_nil, List.nil_append]
        · rw [List.length_take]
          omega
      · obtain ⟨done, rest, left, hmsgs, htake, hleft⟩ := ih (k - m.length)
        refine ⟨m :: done, rest, left, by rw [hmsgs, List.cons_append], ?_, hleft⟩
        rw [List.flatten_cons, List.take_append, List.take_of_length_le (Nat.le_of_not_lt hk), htake, List.flatten_cons,
          List.append_assoc]

/-- How much of the first `k` items of a stream belongs to a message that is not complete there. -/
def pending : List (List α) → Nat → Nat
  | [], _ => 0
  | m :: rest, k => if m.length ≤ k then pending rest (k - m.length) else k

theorem pending_append (done rest : List (List α)) (k : Nat) : pending (done ++ rest) (done.flatten.length + k) = pending rest k := by
  induction done with
  | nil => rw [List.nil_append, List.flatten_nil, List.length_nil, Nat.zero_add]
  | cons m done ih => rw [List.cons_append, pending, List.flatten_cons, List.length_append, if_pos (by omega), Nat.add_assoc,
      Nat.add_sub_cancel_left, ih]

theorem Incomplete.pending_eq {left : List α} {rest : List (List α)} (h : Incomplete left rest) :
    pending rest left.length = left.length := by
  cases rest with
  | nil =>
      rw [show left = [] from h]
      rfl
  | cons m rest => rw [pending, if_neg (Nat.not_le_of_lt h.2)]

theorem pending_lt {msgs : List (List α)} {n : Nat} (hn : 0 < n) (hmsgs : ∀ m ∈ msgs, m.length ≤ n) (k : Nat) : pending msgs k < n := by
  induction msgs generalizing k with
  | nil => exact hn
  | cons m msgs ih =>
      rw [pending]
      split
      · exact ih (fun m hm => hmsgs m (List.mem_cons_of_mem _ hm)) _
      · have hm := hmsgs m List.mem_cons_self
        omega

/-- Nothing is incomplete in a stream that was seen to its end. -/
theorem Incomplete.rest_eq_nil {left : List α} {rest : List (List α)} (h : Incomplete left rest)
    (hall : rest.flatten.length ≤ left.length) :
    rest = [] := by
  cases rest with
  | nil => rfl
  | cons m rest =>
      have hlt := h.2
      rw [List.flatten_cons, List.length_append] at hall
      omega

end Framing
