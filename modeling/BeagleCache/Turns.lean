import Mathlib.Tactic

/-! A place that is taken and given back in turn: at most one thing is held at a time, and only what is held is given back. -/

namespace Turns

variable {α : Type} [DecidableEq α]

inductive Op (α : Type) where
  | take (x : α)
  | give (x : α)
  deriving DecidableEq

/-- What is held after an operation that keeps to the turns. -/
def step : Option α → Op α → Option (Option α)
  | none, .take x => some (some x)
  | some y, .give x => if y = x then some none else none
  | _, _ => none

/-- What is held after operations that keep to the turns. -/
def run (held : Option α) (l : List (Op α)) : Option (Option α) := l.foldlM step held

variable {held held' : Option α} {l l' : List (Op α)} {x : α}

@[simp] theorem run_nil : run held [] = some held := rfl

theorem run_cons (op : Op α) : run held (op :: l) = (step held op).bind fun h => run h l := List.foldlM_cons

theorem run_append : run held (l ++ l') = (run held l).bind fun h => run h l' := List.foldlM_append

/-- Something is taken at the end. -/
theorem run_take (h : run held l = some none) : run held (l ++ [.take x]) = some (some x) := by
  rw [run_append, h]
  rfl

/-- What is held is given back at the end. -/
theorem run_give (h : run held l = some (some x)) : run held (l ++ [.give x]) = some none := by
  rw [run_append, h, Option.bind_some, run_cons, step, if_pos rfl]
  rfl

theorem step_count {op : Op α} (h : step held op = some held') (x : α) :
    [op].count (.take x) + (if held = some x then 1 else 0) = [op].count (.give x) + if held' = some x then 1 else 0 := by
  cases op with
  | take y =>
      cases held with
      | none =>
          obtain rfl := Option.some.inj h
          simp [List.count_singleton, Option.some.injEq]
      | some z => cases h
  | give y =>
      cases held with
      | none => cases h
      | some z =>
          have hstep : step (some z) (.give y) = if z = y then some none else none := rfl
          by_cases heq : z = y
          · rw [hstep, if_pos heq] at h
            obtain rfl := Option.some.inj h
            simp [List.count_singleton, heq]
          · rw [hstep, if_neg heq] at h
            cases h

/-- What was taken and not given back is held. -/
theorem run_count (h : run held l = some held') (x : α) :
    l.count (.take x) + (if held = some x then 1 else 0) = l.count (.give x) + if held' = some x then 1 else 0 := by
  induction l generalizing held with
  | nil =>
      obtain rfl := Option.some.inj h
      rfl
  | cons op l ih =>
      rw [run_cons] at h
      obtain ⟨middle, hfirst, hrest⟩ := Option.bind_eq_some_iff.mp h
      have hone := step_count hfirst x
      have hlater := ih hrest
      rw [← List.singleton_append, List.count_append, List.count_append]
      omega

/-- When nothing is held before and after, everything was given back as often as it was taken. -/
theorem count_eq (h : run none l = some none) (x : α) : l.count (.take x) = l.count (.give x) := run_count h x

/-- What is held in the end was held before or taken. -/
theorem taken_of_run (h : run held l = some (some x)) : held = some x ∨ .take x ∈ l := by
  have hcount := run_count h x
  by_cases hheld : held = some x
  · exact .inl hheld
  · rw [if_neg hheld, if_pos rfl] at hcount
    exact .inr (List.count_pos_iff.mp (by omega))

/-- The rule for a machine that is told what is taken and given back among other things: what every instruction keeps is
kept by a program. -/
theorem run_foldl {γ σ : Type} {op : γ → Option (Op α)} {next : σ → γ → σ} {P : σ → Option α → Prop}
    (hother : ∀ s held c, op c = none → P s held → P (next s c) held)
    (hstep : ∀ s held held' c o, op c = some o → step held o = some held' → P s held → P (next s c) held')
    {program : List γ} {s : σ} (hrun : run held (program.filterMap op) = some held') (hstart : P s held) :
    P (program.foldl next s) held' := by
  induction program generalizing s held with
  | nil =>
      obtain rfl := Option.some.inj hrun
      exact hstart
  | cons c program ih =>
      cases hop : op c with
      | none =>
          rw [List.filterMap_cons_none hop] at hrun
          exact ih hrun (hother s held c hop hstart)
      | some o =>
          rw [List.filterMap_cons_some hop, run_cons] at hrun
          obtain ⟨middle, hfirst, hrest⟩ := Option.bind_eq_some_iff.mp hrun
          exact ih hrest (hstep s held middle c o hop hfirst hstart)

end Turns
