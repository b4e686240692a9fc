import Mathlib.Tactic

/-! How a call of the C program can end. A call either returns a value or stops the process: an
`assert` fails (the Makefile keeps assertions), the program leaves through `NiceExit` or
`EXIT_TRACE`, it touches memory outside an allocation, or a loop never ends. The last two are not
results in C; they are named so that a theorem can say that they do not occur. -/

namespace BeagleCache

/-- The ways a call does not return. -/
inductive Fault
  /-- An `assert` failed. -/
  | assertion
  /-- `NiceExit` or `EXIT_TRACE` was called. -/
  | exit
  /-- A read or a write left its allocation. -/
  | overrun
  /-- A loop of the source does not end. -/
  | hang
  deriving DecidableEq, Repr

/-- The outcome of a call. -/
abbrev Run (α : Type) := Except Fault α

/-- The C `assert`. -/
def check (p : Prop) [Decidable p] : Run Unit := if p then .ok () else .error .assertion

/-- A memory access that is in bounds exactly when `p` holds. -/
def inBounds (p : Prop) [Decidable p] : Run Unit := if p then .ok () else .error .overrun

namespace Run

theorem bind_eq_ok {α β : Type} {x : Run α} {f : α → Run β} {b : β} :
    (x >>= f) = .ok b ↔ ∃ a, x = .ok a ∧ f a = .ok b := by
  cases x with
  | error e => simp [bind, Except.bind]
  | ok a => simp [bind, Except.bind]

@[simp] theorem ok_bind {α β : Type} (a : α) (f : α → Run β) : (Except.ok a >>= f) = f a := rfl

@[simp] theorem error_bind {α β : Type} (e : Fault) (f : α → Run β) :
    ((Except.error e : Run α) >>= f) = .error e := rfl

@[simp] theorem pure_eq_ok {α : Type} (a : α) : (pure a : Run α) = .ok a := rfl

/-- A run is known to return once something computed from its result is known. -/
theorem exists_of_map {α β : Type} {x : Run α} {f : α → β} {b : β} (h : x.toOption.map f = some b) :
    ∃ a, x = .ok a ∧ f a = b := by
  cases x with
  | error e => cases h
  | ok a => exact ⟨a, rfl, Option.some.inj h⟩

end Run

theorem check_eq_ok {p : Prop} [Decidable p] {u : Unit} : check p = .ok u ↔ p := by
  unfold check
  split <;> simp_all

theorem inBounds_eq_ok {p : Prop} [Decidable p] {u : Unit} : inBounds p = .ok u ↔ p := by
  unfold inBounds
  split <;> simp_all

@[simp] theorem check_of {p : Prop} [Decidable p] (h : p) : check p = .ok () := if_pos h

@[simp] theorem inBounds_of {p : Prop} [Decidable p] (h : p) : inBounds p = .ok () := if_pos h

/-- Two calls that agree: both return, with results that are related, or both end in the same other way. -/
inductive Agree {α β : Type} (R : α → β → Prop) : Run α → Run β → Prop
  | returned {a : α} {b : β} : R a b → Agree R (.ok a) (.ok b)
  | failed (f : Fault) : Agree R (.error f) (.error f)

/-- Two calls that go on only if a condition holds. -/
theorem Agree.check {γ δ : Type} {S : γ → δ → Prop} (p : Prop) [Decidable p] {x : Run γ} {y : Run δ} (h : p → Agree S x y) :
    Agree S (check p >>= fun _ => x) (check p >>= fun _ => y) := by
  unfold BeagleCache.check
  split
  · rename_i hp
    exact h hp
  · exact .failed _

end BeagleCache
