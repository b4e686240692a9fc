import Mathlib.Tactic

/-! A loop over a list that grows while it is gone through: each pass takes the first element and appends what comes of it, or
stops the loop. It returns unless at some time it only sends elements round. -/

namespace Worklist

variable {σ α : Type}

/-- A pass; `visit` says what becomes of an element, with `none` where it stops the loop. -/
def pass (visit : σ → α → Option (σ × List α)) : σ × List α → Option (σ × List α)
  | (_, []) => none
  | (s, a :: l) => (visit s a).map fun r => (r.1, l ++ r.2)

inductive Returns (visit : σ → α → Option (σ × List α)) : σ × List α → Prop where
  | stop {c : σ × List α} (h : pass visit c = none) : Returns visit c
  | step {c c' : σ × List α} (h : pass visit c = some c') (hrest : Returns visit c') : Returns visit c

/-- An element that is stuck is only sent round; what comes of another is lighter than it was. -/
structure Weighted (visit : σ → α → Option (σ × List α)) (Stuck : α → Prop) (weight : α → Nat) : Prop where
  round : ∀ {s a s' new}, Stuck a → visit s a = some (s', new) → s' = s ∧ new = [a]
  lighter : ∀ {s a s' new}, ¬Stuck a → visit s a = some (s', new) → (new.map weight).sum < weight a

variable {visit : σ → α → Option (σ × List α)} {Stuck : α → Prop} {weight : α → Nat}

theorem pass_cons_eq_some {s s' : σ} {a : α} {l l' : List α} (h : pass visit (s, a :: l) = some (s', l')) :
    ∃ new, visit s a = some (s', new) ∧ l' = l ++ new := by
  obtain ⟨r, hvisit, hr⟩ := Option.map_eq_some_iff.mp h
  cases hr
  exact ⟨r.2, hvisit, rfl⟩

/-- A list in which not all elements are stuck, up to the first that is not. -/
theorem exists_front {l : List α} (h : ¬∀ a ∈ l, Stuck a) :
    ∃ front a rest, l = front ++ a :: rest ∧ (∀ b ∈ front, Stuck b) ∧ ¬Stuck a := by
  induction l with
  | nil => exact absurd (fun a ha => absurd ha List.not_mem_nil) h
  | cons b l ih =>
      by_cases hb : Stuck b
      · have hrest : ¬∀ a ∈ l, Stuck a := fun hall => h (List.forall_mem_cons.mpr ⟨hb, hall⟩)
        obtain ⟨front, a, rest, rfl, hfront, ha⟩ := ih hrest
        exact ⟨b :: front, a, rest, rfl, List.forall_mem_cons.mpr ⟨hb, hfront⟩, ha⟩
      · exact ⟨[], b, l, rfl, fun a ha => absurd ha List.not_mem_nil, hb⟩

/-- What a pass keeps holds where the loop stops. -/
theorem Returns.invariant {I : σ × List α → Prop} (hstep : ∀ c c', pass visit c = some c' → (I c ↔ I c'))
    (hstop : ∀ c, pass visit c = none → I c) {c : σ × List α} (h : Returns visit c) : I c := by
  induction h with
  | stop h => exact hstop _ h
  | step h _ ih => exact (hstep _ _ h).mpr ih

section Stuck

variable {I : σ × List α → Prop} (hweight : Weighted visit Stuck weight)
  (hstep : ∀ c c', pass visit c = some c' → (I c ↔ I c'))
  (hstuck : ∀ s l, l ≠ [] → (∀ a ∈ l, Stuck a) → pass visit (s, l) ≠ none → ¬I (s, l))

include hweight hstep

/-- The stuck elements in front of another go round first. -/
theorem returns_front {n : Nat} (hless : ∀ s l, (l.map weight).sum < n → I (s, l) → Returns visit (s, l)) {front : List α}
    (hfront : ∀ b ∈ front, Stuck b) {a : α} (ha : ¬Stuck a) {s : σ} {rest : List α}
    (hn : ((front ++ a :: rest).map weight).sum ≤ n) (hI : I (s, front ++ a :: rest)) : Returns visit (s, front ++ a :: rest) := by
  induction front generalizing rest with
  | nil =>
      cases hpass : pass visit (s, a :: rest) with
      | none => exact .stop hpass
      | some c =>
          obtain ⟨s', l'⟩ := c
          have hI' : I (s', l') := (hstep _ _ hpass).mp hI
          obtain ⟨new, hvisit, rfl⟩ := pass_cons_eq_some hpass
          refine .step hpass (hless _ _ ?_ hI')
          have hlight := hweight.lighter ha hvisit
          simp only [List.nil_append, List.map_cons, List.sum_cons] at hn
          rw [List.map_append, List.sum_append]
          omega
  | cons b front ih =>
      rw [List.cons_append] at hn hI ⊢
      cases hpass : pass visit (s, b :: (front ++ a :: rest)) with
      | none => exact .stop hpass
      | some c =>
          obtain ⟨s', l'⟩ := c
          have hI' : I (s', l') := (hstep _ _ hpass).mp hI
          obtain ⟨new, hvisit, rfl⟩ := pass_cons_eq_some hpass
          obtain ⟨rfl, rfl⟩ := hweight.round (hfront b List.mem_cons_self) hvisit
          have hround : front ++ a :: rest ++ [b] = front ++ a :: (rest ++ [b]) := by simp
          rw [hround] at hpass hI'
          refine .step hpass (ih (fun d hd => hfront d (List.mem_cons_of_mem _ hd)) ?_ hI')
          simp only [List.map_append, List.map_cons, List.sum_append, List.sum_cons, List.map_nil, List.sum_nil] at hn ⊢
          omega

include hstuck

/-- The loop returns if it is never at a point where it only goes round. -/
theorem returns_of_invariant (s : σ) (l : List α) (hI : I (s, l)) : Returns visit (s, l) := by
  induction hn : (l.map weight).sum using Nat.strong_induction_on generalizing s l with
  | _ n ih =>
      have hless (s' : σ) (l' : List α) (hlt : (l'.map weight).sum < n) (hI' : I (s', l')) : Returns visit (s', l') :=
        ih _ hlt s' l' hI' rfl
      by_cases hall : ∀ a ∈ l, Stuck a
      · by_cases hnil : l = []
        · rw [hnil]
          exact .stop rfl
        · by_contra hnot
          exact hstuck s l hnil hall (fun hpass => hnot (.stop hpass)) hI
      · obtain ⟨front, a, rest, rfl, hfront, ha⟩ := exists_front hall
        exact returns_front hweight hstep hless hfront ha hn.le hI

/-- A property that a pass keeps, that holds where the loop stops and fails where it only goes round, says when it returns. -/
theorem returns_iff (hstop : ∀ c, pass visit c = none → I c) (c : σ × List α) : Returns visit c ↔ I c :=
  ⟨fun h => h.invariant hstep hstop, returns_of_invariant hweight hstep hstuck c.1 c.2⟩

end Stuck

end Worklist
