import Mathlib.Tactic

/-! Systems that take one step after the other, with a label on every step, and the rule for what holds in every state
they get to. -/

namespace Transition

variable {σ ε φ : Type}

/-- A transition system with labelled steps. -/
structure System (σ ε : Type) where
  init : σ → Prop
  step : σ → ε → σ → Prop

namespace System

/-- The states a system gets to, with the labels of the steps on the way. -/
inductive Runs (S : System σ ε) : List ε → σ → Prop
  | start {s : σ} : S.init s → Runs S [] s
  | step {labels : List ε} {s s' : σ} {e : ε} : Runs S labels s → S.step s e s' → Runs S (labels ++ [e]) s'

/-- What holds at the start and is kept by every step. -/
structure Invariant (S : System σ ε) (P : σ → Prop) : Prop where
  init : ∀ s, S.init s → P s
  step : ∀ s e s', P s → S.step s e s' → P s'

variable {S : System σ ε} {P : σ → Prop} {labels : List ε} {s s' : σ}

theorem Invariant.holds (h : S.Invariant P) (hrun : S.Runs labels s) : P s := by
  induction hrun with
  | start hinit => exact h.init _ hinit
  | step _ hstep ih => exact h.step _ _ _ ih hstep

/-- The steps that meet a condition. -/
def restrict (S : System σ ε) (allowed : σ → ε → Prop) : System σ ε where
  init := S.init
  step := fun s e s' => allowed s e ∧ S.step s e s'

/-- A run whose steps meet the condition is a run. -/
theorem Runs.of_restrict {allowed : σ → ε → Prop} (hrun : (S.restrict allowed).Runs labels s) : S.Runs labels s := by
  induction hrun with
  | start hinit => exact .start hinit
  | step _ hstep ih => exact ih.step hstep.2

/-- A run all whose labels meet the condition in every state. -/
theorem Runs.restrict {allowed : σ → ε → Prop} (hrun : S.Runs labels s) (hallowed : ∀ e ∈ labels, ∀ s, allowed s e) :
    (S.restrict allowed).Runs labels s := by
  induction hrun with
  | start hinit => exact .start hinit
  | @step labels s s' e _ hstep ih =>
      have hlabels : ∀ e ∈ labels, ∀ s, allowed s e := fun e he => hallowed e (List.mem_append_left _ he)
      exact (ih hlabels).step ⟨hallowed e (List.mem_append_right _ List.mem_cons_self) s, hstep⟩

/-- The labels of a run lead to one state. -/
theorem Runs.unique (hinit : ∀ s s', S.init s → S.init s' → s = s') (hstep : ∀ s e s₁ s₂, S.step s e s₁ → S.step s e s₂ → s₁ = s₂)
    (hrun : S.Runs labels s) (hrun' : S.Runs labels s') : s = s' := by
  induction hrun generalizing s' with
  | start h =>
      generalize hnil : ([] : List ε) = empty at hrun'
      cases hrun' with
      | start h' => exact hinit _ _ h h'
      | step _ _ => exact absurd hnil.symm (List.append_ne_nil_of_right_ne_nil _ (List.cons_ne_nil _ _))
  | @step labels s₀ s₁ e hbefore h ih =>
      generalize hlabels : labels ++ [e] = all at hrun'
      cases hrun' with
      | start _ => exact absurd hlabels (List.append_ne_nil_of_right_ne_nil _ (List.cons_ne_nil _ _))
      | @step labels' s₀' s₁' e' hbefore' h' =>
          obtain ⟨rfl, he⟩ := List.append_inj' hlabels rfl
          cases he
          cases ih hbefore'
          exact hstep _ _ _ _ h h'

/-- All states of a run have a property exactly if all its steps meet a condition, when the condition is enough for the
property and a step that does not meet it ends without the property. -/
theorem Runs.forall_prefix_iff {allowed : σ → ε → Prop} (hinit : ∀ s s', S.init s → S.init s' → s = s')
    (hstep : ∀ s e s₁ s₂, S.step s e s₁ → S.step s e s₂ → s₁ = s₂)
    (henough : ∀ labels s, (S.restrict allowed).Runs labels s → P s)
    (hneeded : ∀ labels s e s', (S.restrict allowed).Runs labels s → S.step s e s' → P s' → allowed s e) (hrun : S.Runs labels s) :
    (∀ before t, before <+: labels → S.Runs before t → P t) ↔ (S.restrict allowed).Runs labels s := by
  constructor
  · intro hall
    induction hrun with
    | start h => exact .start h
    | @step labels s s' e hbefore h ih =>
        have hlonger : labels <+: labels ++ [e] := List.prefix_append _ _
        have hrestricted := ih fun before t hle => hall before t (hle.trans hlonger)
        have hlast : P s' := hall _ _ (List.prefix_refl _) (hbefore.step h)
        exact hrestricted.step ⟨hneeded _ _ _ _ hrestricted h hlast, h⟩
  · intro hrestricted
    induction hrestricted with
    | start h =>
        intro before t hle ht
        rw [List.prefix_nil.mp hle] at ht
        cases Runs.unique hinit hstep ht (.start h)
        exact henough _ _ (.start h)
    | @step labels s s' e hbefore h ih =>
        intro before t hle ht
        rcases List.prefix_concat_iff.mp hle with hwhole | hshorter
        · rw [hwhole] at ht
          cases Runs.unique hinit hstep ht (hbefore.of_restrict.step h.2)
          exact henough _ _ (hbefore.step h)
        · exact ih hbefore.of_restrict before t hshorter ht

/-- A system whose next state is computed, where the step can be made. -/
def ofNext (init : σ → Prop) (next : σ → ε → Except φ σ) : System σ ε where
  init := init
  step := fun s e s' => next s e = .ok s'

/-- A computed run. -/
theorem runs_foldlM {init : σ → Prop} {next : σ → ε → Except φ σ} {before : List ε} (hrun : (ofNext init next).Runs before s)
    (hfold : labels.foldlM next s = .ok s') : (ofNext init next).Runs (before ++ labels) s' := by
  induction labels generalizing before s with
  | nil =>
      cases hfold
      rw [List.append_nil]
      exact hrun
  | cons e labels ih =>
      rw [List.foldlM_cons] at hfold
      cases hnext : next s e with
      | error f =>
          rw [hnext] at hfold
          cases hfold
      | ok s₁ =>
          rw [hnext] at hfold
          have hrest := ih (hrun.step hnext) hfold
          rwa [List.append_assoc, List.singleton_append] at hrest

/-- The next state, where the step meets a condition; `fault` otherwise. -/
def guarded (allowed : σ → ε → Prop) [∀ s e, Decidable (allowed s e)] (next : σ → ε → Except φ σ) (fault : φ) (s : σ) (e : ε) :
    Except φ σ := if allowed s e then next s e else .error fault

/-- A computed run whose steps meet a condition. -/
theorem runs_guarded {init : σ → Prop} {next : σ → ε → Except φ σ} {allowed : σ → ε → Prop} [∀ s e, Decidable (allowed s e)]
    {fault : φ} {before : List ε} (hrun : ((ofNext init next).restrict allowed).Runs before s)
    (hfold : labels.foldlM (guarded allowed next fault) s = .ok s') :
    ((ofNext init next).restrict allowed).Runs (before ++ labels) s' := by
  have hsame : ((ofNext init next).restrict allowed).step = (ofNext init (guarded allowed next fault)).step := by
    funext s e s'
    apply propext
    by_cases hallowed : allowed s e
    · simp [restrict, ofNext, guarded, hallowed]
    · simp [restrict, ofNext, guarded, hallowed]
  have hsystem : (ofNext init next).restrict allowed = ofNext init (guarded allowed next fault) := by
    rw [System.mk.injEq]
    exact ⟨rfl, hsame⟩
  rw [hsystem] at hrun ⊢
  exact runs_foldlM hrun hfold

/-- Every step of a concrete state is a step of the abstract state that it stands for. -/
structure Simulation {τ : Type} (C : System σ ε) (A : System τ ε) (R : σ → τ → Prop) : Prop where
  init : ∀ s, C.init s → ∃ t, A.init t ∧ R s t
  step : ∀ s t e s', R s t → C.step s e s' → ∃ t', A.step t e t' ∧ R s' t'

/-- A concrete run is an abstract one. -/
theorem Simulation.runs {τ : Type} {A : System τ ε} {R : σ → τ → Prop} (h : Simulation S A R) (hrun : S.Runs labels s) :
    ∃ t, A.Runs labels t ∧ R s t := by
  induction hrun with
  | start hinit =>
      obtain ⟨t, ht, hrel⟩ := h.init _ hinit
      exact ⟨t, .start ht, hrel⟩
  | step _ hstep ih =>
      obtain ⟨t, ht, hrel⟩ := ih
      obtain ⟨t', hstep', hrel'⟩ := h.step _ _ _ _ hrel hstep
      exact ⟨t', ht.step hstep', hrel'⟩

end System

/-- The step cannot be made in the state. -/
inductive Disabled where
  | disabled
  deriving DecidableEq

/-- The next state of a step that can be made if a condition holds. -/
def stepIf (p : Prop) [Decidable p] (s : σ) : Except Disabled σ := if p then .ok s else .error .disabled

theorem stepIf_eq_ok {p : Prop} [Decidable p] {s s' : σ} (h : stepIf p s = .ok s') : p ∧ s' = s := by
  unfold stepIf at h
  split at h
  · rename_i hp
    exact ⟨hp, (Except.ok.inj h).symm⟩
  · cases h

/-- A computed run ends in a state once something computed from the state is known. -/
theorem exists_of_map {α β : Type} {x : Except φ α} {f : α → β} {b : β} (h : x.toOption.map f = some b) : ∃ a, x = .ok a ∧ f a = b := by
  cases x with
  | error e => cases h
  | ok a => exact ⟨a, rfl, Option.some.inj h⟩

end Transition
