import Mathlib.Tactic

/-! Sending the queues of several senders in rounds: in round `k` everyone who has a `k`-th message sends it, in
the order of the list. Every sender's messages leave in their order, and between two messages of one sender there is
at most one of each other. -/

namespace BeagleCache

namespace RoundRobin

variable {κ μ : Type} [DecidableEq κ]

/-- What round `k` sends. -/
def turn (l : List κ) (q : κ → List μ) (k : Nat) : List (κ × μ) := l.filterMap fun i => (q i)[k]?.map fun m => (i, m)

/-- What the first `n` rounds send. -/
def rounds (l : List κ) (q : κ → List μ) (n : Nat) : List (κ × μ) := (List.range n).flatMap (turn l q)

/-- What is sent by `i`. -/
def sentBy (i : κ) (xs : List (κ × μ)) : List μ := (xs.filter fun x => x.1 = i).map Prod.snd

variable {l : List κ} {q : κ → List μ} {i j : κ} {n k : Nat}

section Rounds

omit [DecidableEq κ]

theorem rounds_zero (l : List κ) (q : κ → List μ) : rounds l q 0 = [] := rfl

theorem rounds_succ (l : List κ) (q : κ → List μ) (n : Nat) : rounds l q (n + 1) = rounds l q n ++ turn l q n := by
  rw [rounds, rounds, List.range_succ, List.flatMap_append, List.flatMap_singleton]

theorem turn_tail (l : List κ) (q : κ → List μ) (k : Nat) : turn l (fun i => (q i).tail) k = turn l q (k + 1) := by
  unfold turn
  apply List.filterMap_congr
  intro i _
  rw [List.getElem?_tail]

/-- The first round, and then the rounds of what it leaves. -/
theorem rounds_succ_tail (l : List κ) (q : κ → List μ) (n : Nat) :
    rounds l q (n + 1) = turn l q 0 ++ rounds l (fun i => (q i).tail) n := by
  induction n with
  | zero => rw [rounds_succ, rounds_zero, rounds_zero, List.nil_append, List.append_nil]
  | succ n ih => rw [rounds_succ, ih, rounds_succ l (fun i => (q i).tail) n, turn_tail, List.append_assoc]

theorem turn_congr {q' : κ → List μ} (h : ∀ i ∈ l, q i = q' i) (k : Nat) : turn l q k = turn l q' k := by
  unfold turn
  apply List.filterMap_congr
  intro i hi
  rw [h i hi]

theorem rounds_congr {q' : κ → List μ} (h : ∀ i ∈ l, q i = q' i) (n : Nat) : rounds l q n = rounds l q' n := by
  unfold rounds
  apply List.flatMap_congr
  intro k _
  exact turn_congr h k

theorem turn_eq_nil (h : ∀ i ∈ l, (q i).length ≤ k) : turn l q k = [] := by
  rw [turn, List.filterMap_eq_nil_iff]
  intro i hi
  rw [List.getElem?_eq_none (h i hi), Option.map_none]

theorem rounds_eq_nil (h : ∀ i ∈ l, q i = []) (n : Nat) : rounds l q n = [] := by
  rw [rounds, List.flatMap_eq_nil_iff]
  intro k _
  apply turn_eq_nil
  intro i hi
  rw [h i hi, List.length_nil]
  exact Nat.zero_le k

theorem mem_turn {x : κ × μ} (h : x ∈ turn l q k) : x.1 ∈ l := by
  rw [turn, List.mem_filterMap] at h
  obtain ⟨i, hi, hx⟩ := h
  rw [Option.map_eq_some_iff] at hx
  obtain ⟨m, -, rfl⟩ := hx
  exact hi

theorem mem_rounds {x : κ × μ} (h : x ∈ rounds l q n) : x.1 ∈ l := by
  rw [rounds, List.mem_flatMap] at h
  obtain ⟨k, -, hx⟩ := h
  exact mem_turn hx

end Rounds

/-! ## Order and number -/

theorem sentBy_append (i : κ) (xs ys : List (κ × μ)) : sentBy i (xs ++ ys) = sentBy i xs ++ sentBy i ys := by
  rw [sentBy, sentBy, sentBy, List.filter_append, List.map_append]

theorem sentBy_eq_nil {xs : List (κ × μ)} (h : ∀ x ∈ xs, x.1 ≠ i) : sentBy i xs = [] := by
  rw [sentBy, List.map_eq_nil_iff, List.filter_eq_nil_iff]
  intro x hx
  simpa using h x hx

omit [DecidableEq κ] in
theorem turn_cons (i : κ) (l : List κ) (q : κ → List μ) (k : Nat) :
    turn (i :: l) q k = ((q i)[k]?.map fun m => (i, m)).toList ++ turn l q k := by
  rw [turn, turn, List.filterMap_cons]
  cases (q i)[k]? with
  | none => rfl
  | some m => rfl

/-- A sender in the list sends one message in a round where it has one. -/
theorem sentBy_turn (hnodup : l.Nodup) (hi : i ∈ l) (q : κ → List μ) (k : Nat) :
    sentBy i (turn l q k) = (q i)[k]?.toList := by
  induction l with
  | nil => cases hi
  | cons j l ih =>
      rw [List.nodup_cons] at hnodup
      rw [turn_cons, sentBy_append]
      by_cases hij : i = j
      · subst hij
        have hrest : sentBy i (turn l q k) = [] := by
          apply sentBy_eq_nil
          rintro x hx rfl
          exact hnodup.1 (mem_turn hx)
        rw [hrest, List.append_nil]
        cases (q i)[k]? with
        | none => rfl
        | some m => simp [sentBy]
      · have hhead : sentBy i ((q j)[k]?.map fun m => (j, m)).toList = [] := by
          apply sentBy_eq_nil
          intro x hx
          rw [Option.mem_toList, Option.map_eq_some_iff] at hx
          obtain ⟨m, -, rfl⟩ := hx
          exact fun h => hij h.symm
        rw [hhead, List.nil_append]
        exact ih hnodup.2 ((List.mem_cons.mp hi).resolve_left hij)

/-- The messages of a sender leave in their order, each once. -/
theorem sentBy_rounds (hnodup : l.Nodup) (hi : i ∈ l) (q : κ → List μ) (n : Nat) :
    sentBy i (rounds l q n) = (q i).take n := by
  induction n with
  | zero => rw [rounds_zero, List.take_zero]; rfl
  | succ n ih => rw [rounds_succ, sentBy_append, ih, sentBy_turn hnodup hi, List.take_add_one]

omit [DecidableEq κ] in
theorem length_turn (l : List κ) (q : κ → List μ) (k : Nat) :
    (turn l q k).length = (l.map fun i => if k < (q i).length then 1 else 0).sum := by
  induction l with
  | nil => rfl
  | cons i l ih =>
      rw [turn_cons, List.length_append, ih, List.map_cons, List.sum_cons]
      congr 1
      by_cases hk : k < (q i).length
      · rw [if_pos hk, List.getElem?_eq_getElem hk]
        rfl
      · rw [if_neg hk, List.getElem?_eq_none (Nat.le_of_not_lt hk)]
        rfl

omit [DecidableEq κ] in
theorem length_rounds (l : List κ) (q : κ → List μ) (n : Nat) :
    (rounds l q n).length = (l.map fun i => min n (q i).length).sum := by
  induction n with
  | zero =>
      rw [rounds_zero, List.length_nil]
      simp
  | succ n ih =>
      rw [rounds_succ, List.length_append, ih, length_turn, ← List.sum_map_add]
      congr 1
      apply List.map_congr_left
      intro i _
      split <;> omega

/-! ## Fairness -/

/-- Between two messages of a sender there is at most one of each other sender. -/
def Fair (xs : List (κ × μ)) : Prop :=
  ∀ pre mid post : List (κ × μ), ∀ a b : κ × μ, xs = pre ++ a :: mid ++ b :: post → a.1 = b.1 → sentBy a.1 mid = [] →
    ∀ j, j ≠ a.1 → (sentBy j mid).length ≤ 1

/-- `xs` is what is sent up to somewhere in round `k`: those before have had their turn of it. -/
structure Reached (q : κ → List μ) (k : Nat) (before after : List κ) (xs : List (κ × μ)) : Prop where
  served : ∀ i ∈ before, (sentBy i xs).length = min (k + 1) (q i).length
  waiting : ∀ i ∈ after, (sentBy i xs).length = min k (q i).length

theorem Reached.between {before after : List κ} {xs : List (κ × μ)} (h : Reached q k before after xs)
    (hi : i ∈ before ++ after) :
    min k (q i).length ≤ (sentBy i xs).length ∧ (sentBy i xs).length ≤ min (k + 1) (q i).length := by
  obtain hbefore | hafter := List.mem_append.mp hi
  · have := h.served i hbefore
    omega
  · have := h.waiting i hafter
    omega

omit [DecidableEq κ] in
theorem prefix_turn {xs : List (κ × μ)} (h : xs <+: turn l q k) :
    ∃ before after, l = before ++ after ∧ xs = turn before q k := by
  induction l generalizing xs with
  | nil =>
      obtain rfl : xs = [] := List.prefix_nil.mp h
      exact ⟨[], [], rfl, rfl⟩
  | cons i l ih =>
      rw [turn_cons] at h
      cases hq : (q i)[k]? with
      | none =>
          rw [hq] at h
          obtain ⟨before, after, rfl, rfl⟩ := ih h
          exact ⟨i :: before, after, rfl, by rw [turn_cons, hq]; rfl⟩
      | some m =>
          rw [hq] at h
          cases xs with
          | nil => exact ⟨[], i :: l, rfl, rfl⟩
          | cons x xs =>
              obtain ⟨hx, hrest⟩ := List.cons_prefix_cons.mp h
              obtain ⟨before, after, rfl, rfl⟩ := ih hrest
              exact ⟨i :: before, after, rfl, by rw [turn_cons, hq, hx]; rfl⟩

/-- Every beginning of what is sent ends somewhere in a round. -/
theorem reached_of_prefix (hnodup : l.Nodup) {xs : List (κ × μ)} (h : xs <+: rounds l q n) :
    ∃ k before after, l = before ++ after ∧ Reached q k before after xs := by
  induction n with
  | zero =>
      obtain rfl : xs = [] := List.prefix_nil.mp h
      refine ⟨0, [], l, rfl, ?_, ?_⟩
      · intro i hi
        cases hi
      · intro i _
        rw [Nat.zero_min]
        rfl
  | succ n ih =>
      rw [rounds_succ] at h
      obtain hshort | hlong := List.prefix_or_prefix_of_prefix h (List.prefix_append _ _)
      · exact ih hshort
      · obtain ⟨rest, rfl⟩ := hlong
        rw [List.prefix_append_right_inj] at h
        obtain ⟨before, after, hl, rfl⟩ := prefix_turn h
        have hlists := hl ▸ hnodup
        rw [List.nodup_append] at hlists
        obtain ⟨hbefore, -, hapart⟩ := hlists
        refine ⟨n, before, after, hl, ?_, ?_⟩
        · intro i hi
          have hmem : i ∈ l := hl ▸ List.mem_append_left after hi
          rw [sentBy_append, sentBy_rounds hnodup hmem, sentBy_turn hbefore hi, ← List.take_add_one, List.length_take]
        · intro i hi
          have hmem : i ∈ l := hl ▸ List.mem_append_right before hi
          have hnone : sentBy i (turn before q n) = [] := by
            apply sentBy_eq_nil
            rintro x hx rfl
            exact hapart x.1 (mem_turn hx) x.1 hi rfl
          rw [sentBy_append, sentBy_rounds hnodup hmem, hnone, List.append_nil, List.length_take]

omit [DecidableEq κ] in
/-- Two ways of cutting a list keep the order of its elements. -/
theorem not_crossed (hnodup : l.Nodup) {before after before' after' : List κ} (hl : l = before ++ after)
    (hl' : l = before' ++ after') (hi : i ∈ before) (hj : j ∈ after) (hj' : j ∈ before') (hi' : i ∈ after') : False := by
  have hapart := (List.nodup_append.mp (hl ▸ hnodup)).2.2
  have hapart' := (List.nodup_append.mp (hl' ▸ hnodup)).2.2
  obtain ⟨more, rfl, -⟩ | ⟨more, rfl, -⟩ := List.append_eq_append_iff.mp (hl.symm.trans hl')
  · exact hapart' i (List.mem_append_left more hi) i hi' rfl
  · exact hapart j (List.mem_append_left more hj') j hj rfl

theorem sentBy_cons_self (x : κ × μ) (xs : List (κ × μ)) : (sentBy x.1 (x :: xs)).length = (sentBy x.1 xs).length + 1 := by
  simp [sentBy]

/-- The rounds are fair. -/
theorem rounds_fair (hnodup : l.Nodup) (q : κ → List μ) (n : Nat) : Fair (rounds l q n) := by
  intro pre mid post a b hsplit hab hmid j hj
  have hi : a.1 ∈ l := mem_rounds (n := n) (q := q) (by rw [hsplit]; simp)
  by_cases hjl : j ∈ l
  case neg =>
    have hnone : sentBy j mid = [] := by
      apply sentBy_eq_nil
      rintro x hx rfl
      exact hjl (mem_rounds (n := n) (q := q) (by rw [hsplit]; simp [hx]))
    rw [hnone]
    exact Nat.zero_le 1
  -- the two places between which `mid` was sent
  have hfirst : pre ++ [a] <+: rounds l q n := ⟨mid ++ b :: post, by rw [hsplit]; simp⟩
  have hsecond : pre ++ a :: mid <+: rounds l q n := ⟨b :: post, by rw [hsplit]⟩
  obtain ⟨k, before, after, hl, hreached⟩ := reached_of_prefix hnodup hfirst
  obtain ⟨k', before', after', hl', hreached'⟩ := reached_of_prefix hnodup hsecond
  have hmore : (sentBy a.1 (pre ++ a :: mid)).length < (q a.1).length := by
    have hall := congrArg List.length (sentBy_rounds hnodup hi q n)
    rw [hsplit, sentBy_append, List.length_append, List.length_take, hab, sentBy_cons_self, ← hab] at hall
    omega
  have hsame : (sentBy a.1 (pre ++ a :: mid)).length = (sentBy a.1 (pre ++ [a])).length := by
    have happend : pre ++ a :: mid = (pre ++ [a]) ++ mid := by simp
    rw [happend, sentBy_append, hmid, List.append_nil]
  have hcount : (sentBy j (pre ++ a :: mid)).length = (sentBy j (pre ++ [a])).length + (sentBy j mid).length := by
    have happend : pre ++ a :: mid = (pre ++ [a]) ++ mid := by simp
    rw [happend, sentBy_append, List.length_append]
  obtain ⟨hlow, -⟩ := hreached.between (hl ▸ hjl)
  obtain ⟨-, hhigh⟩ := hreached'.between (hl' ▸ hjl)
  obtain hi1 | hi1 := List.mem_append.mp (hl ▸ hi)
  · have hserved := hreached.served a.1 hi1
    obtain hi2 | hi2 := List.mem_append.mp (hl' ▸ hi)
    · have hserved' := hreached'.served a.1 hi2
      omega
    · -- the next round, before the turn of `a.1` in it
      have hwaiting' := hreached'.waiting a.1 hi2
      obtain hj1 | hj1 := List.mem_append.mp (hl ▸ hjl)
      · have hjserved := hreached.served j hj1
        omega
      · have hjwaiting := hreached.waiting j hj1
        obtain hj2 | hj2 := List.mem_append.mp (hl' ▸ hjl)
        · exact (not_crossed hnodup hl hl' hi1 hj1 hj2 hi2).elim
        · have hjwaiting' := hreached'.waiting j hj2
          omega
  · have hwaiting := hreached.waiting a.1 hi1
    obtain hi2 | hi2 := List.mem_append.mp (hl' ▸ hi)
    · have hserved' := hreached'.served a.1 hi2
      omega
    · have hwaiting' := hreached'.waiting a.1 hi2
      omega

end RoundRobin

end BeagleCache
