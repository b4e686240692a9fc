import BeagleCache.Transition

/-! A pool of connections to servers that are kept open to be used again: one that is listed under its server is handed out to one user
at a time, and is closed when it has not been used for long. What is closed at a call is left open, besides that it is old. -/

namespace ConnectionPool

open Transition Function

variable {ι κ : Type} [DecidableEq ι] [DecidableEq κ]

structure Connection (κ : Type) where
  server : κ
  port : Int
  used : Int
  lDel : Bool
  added : Bool
  inUse : Bool

/-- The connections that are allocated, those that may be used again, and those that are to be freed. -/
structure Pool (ι κ : Type) where
  connections : ι → Option (Connection κ)
  listed : κ → List ι
  dead : List ι

inductive Event (ι κ : Type)
  | opened (p : ι) (server : κ) (port : Int)
  | got (server : κ) (port now : Int) (answer : Option ι)
  | added (p : ι) (now : Int)
  | released (p : ι)
  | deleted (p : ι)
  | purged
  | closed (now : Int)

/-- A connection that may be handed out for a port. -/
def Idle (connections : ι → Option (Connection κ)) (port : Int) (p : ι) : Prop :=
  ∃ c, connections p = some c ∧ c.inUse = false ∧ c.port = port

/-- A connection that has not been used for `lifetime`. -/
def Old (lifetime now : Int) (connections : ι → Option (Connection κ)) (p : ι) : Prop :=
  ∃ c, connections p = some c ∧ c.inUse = false ∧ c.used + lifetime < now

/-- The connection `p` with other contents. -/
def Pool.set (s : Pool ι κ) (p : ι) (c : Connection κ) : Pool ι κ := { s with connections := update s.connections p (some c) }

/-- The pool without some of the listed connections. -/
def Pool.without (s : Pool ι κ) (gone : List ι) : Pool ι κ where
  connections := fun p => if p ∈ gone then none else s.connections p
  listed := fun server => (s.listed server).filter fun p => p ∉ gone
  dead := s.dead

/-- The first idle connection of a server, or none. -/
def FirstIdle (s : Pool ι κ) (server : κ) (port : Int) : Option ι → Prop
  | none => ∀ p ∈ s.listed server, ¬Idle s.connections port p
  | some p => ∃ before after, s.listed server = before ++ p :: after ∧ (∀ q ∈ before, ¬Idle s.connections port q) ∧
      Idle s.connections port p

/-- Some of the old listed connections are closed, and one at least if there is one. -/
structure Closes (lifetime now : Int) (s : Pool ι κ) (gone : List ι) : Prop where
  listed : ∀ p ∈ gone, ∃ server, p ∈ s.listed server
  old : ∀ p ∈ gone, Old lifetime now s.connections p
  some_old : ∀ server, ∀ p ∈ s.listed server, Old lifetime now s.connections p → gone ≠ []

def Step (lifetime : Int) (s : Pool ι κ) : Event ι κ → Pool ι κ → Prop
  | .opened p server port, s' => s.connections p = none ∧ ∃ used, s' = s.set p ⟨server, port, used, false, false, false⟩
  | .got server port now answer, s' => FirstIdle s server port answer ∧
      match answer with
      | none => s' = s
      | some p => ∃ c, s.connections p = some c ∧ s' = s.set p { c with inUse := true, used := now }
  | .added p now, s' => ∃ c, s.connections p = some c ∧ c.lDel = false ∧
      if c.added then s' = s.set p { c with inUse := true }
      else s' = { s.set p { c with inUse := true, added := true, used := now } with
        listed := update s.listed c.server (p :: s.listed c.server) }
  | .released p, s' => ∃ c, s.connections p = some c ∧ s' = s.set p { c with inUse := false }
  | .deleted p, s' => ∃ c, s.connections p = some c ∧
      if c.lDel then s' = s
      else s' = { s.set p { c with lDel := true } with
        listed := update s.listed c.server ((s.listed c.server).erase p), dead := p :: s.dead }
  | .purged, s' => s' = { s with connections := fun p => if p ∈ s.dead then none else s.connections p, dead := [] }
  | .closed now, s' => ∃ gone, Closes lifetime now s gone ∧ s' = s.without gone

/-- A pool, where a connection is old that has not been used for `lifetime`. -/
def pool (lifetime : Int) : System (Pool ι κ) (Event ι κ) where
  init := fun s => s = ⟨fun _ => none, fun _ => [], []⟩
  step := Step lifetime

/-! ## What is listed -/

/-- The connections that are listed are the ones that were added and not deleted, each once and under its server. The ones that are to
be freed are the ones that were deleted. -/
structure Sound (s : Pool ι κ) : Prop where
  listed : ∀ server p, p ∈ s.listed server ↔ ∃ c, s.connections p = some c ∧ c.server = server ∧ c.added = true ∧ c.lDel = false
  nodup : ∀ server, (s.listed server).Nodup
  dead : ∀ p, p ∈ s.dead ↔ ∃ c, s.connections p = some c ∧ c.lDel = true
  once : s.dead.Nodup

section Sound

variable {lifetime : Int} {s s' : Pool ι κ} {p q : ι} {c c' : Connection κ} {server : κ}

omit [DecidableEq κ] in
@[simp] theorem set_self (s : Pool ι κ) (p : ι) (c : Connection κ) : (s.set p c).connections p = some c := update_self ..

omit [DecidableEq κ] in
theorem set_of_ne (hne : q ≠ p) : (s.set p c).connections q = s.connections q := update_of_ne hne _ _

omit [DecidableEq ι] [DecidableEq κ] in
/-- A property of a connection that another one is not changed for. -/
theorem exists_congr_of_ne {s' : Pool ι κ} (hsame : s'.connections q = s.connections q) (P : Connection κ → Prop) :
    (∃ c, s'.connections q = some c ∧ P c) ↔ ∃ c, s.connections q = some c ∧ P c := by
  rw [hsame]

omit [DecidableEq κ] in
theorem exists_set_self (P : Connection κ → Prop) : (∃ d, (s.set p c).connections p = some d ∧ P d) ↔ P c := by
  rw [set_self]
  constructor
  · rintro ⟨d, hd, hP⟩
    cases hd
    exact hP
  · intro hP
    exact ⟨c, rfl, hP⟩

omit [DecidableEq κ] in
/-- A change of a connection that leaves its server and whether it is listed. -/
theorem Sound.set (h : Sound s) (hold : s.connections p = some c) (hserver : c'.server = c.server) (hadded : c'.added = c.added)
    (hlDel : c'.lDel = c.lDel) : Sound (s.set p c') := by
  have hwas : ∀ P : Connection κ → Prop, (∃ d, s.connections p = some d ∧ P d) ↔ P c := by
    intro P
    rw [hold]
    constructor
    · rintro ⟨d, hd, hP⟩
      cases hd
      exact hP
    · intro hP
      exact ⟨c, rfl, hP⟩
  refine ⟨fun server q => ?_, h.nodup, fun q => ?_, h.once⟩
  · apply (h.listed server q).trans
    by_cases hq : q = p
    · subst hq
      rw [hwas, exists_set_self, hserver, hadded, hlDel]
    · exact (exists_congr_of_ne (set_of_ne hq) _).symm
  · apply (h.dead q).trans
    by_cases hq : q = p
    · subst hq
      rw [hwas, exists_set_self, hlDel]
    · exact (exists_congr_of_ne (set_of_ne hq) _).symm

omit [DecidableEq ι] [DecidableEq κ] in
theorem Sound.server_eq (h : Sound s) (hold : s.connections p = some c) (hp : p ∈ s.listed server) : c.server = server := by
  obtain ⟨d, hd, hserver, -⟩ := (h.listed server p).mp hp
  cases hold.symm.trans hd
  exact hserver

omit [DecidableEq κ] in
theorem Sound.opened (h : Sound s) (hnone : s.connections p = none) (port used : Int) :
    Sound (s.set p ⟨server, port, used, false, false, false⟩) := by
  refine ⟨fun server' q => ?_, h.nodup, fun q => ?_, h.once⟩
  · apply (h.listed server' q).trans
    by_cases hq : q = p
    · subst hq
      rw [exists_set_self, hnone]
      simp
    · exact (exists_congr_of_ne (set_of_ne hq) _).symm
  · apply (h.dead q).trans
    by_cases hq : q = p
    · subst hq
      rw [exists_set_self, hnone]
      simp
    · exact (exists_congr_of_ne (set_of_ne hq) _).symm

theorem Sound.added (h : Sound s) (hold : s.connections p = some c) (hlDel : c.lDel = false) (hadded : c.added = false) (now : Int) :
    Sound { s.set p { c with inUse := true, added := true, used := now } with
      listed := update s.listed c.server (p :: s.listed c.server) } := by
  have hnot : ∀ server, p ∉ s.listed server := by
    intro server hp
    obtain ⟨d, hd, -, hyes, -⟩ := (h.listed server p).mp hp
    cases hold.symm.trans hd
    rw [hadded] at hyes
    cases hyes
  refine ⟨fun server q => ?_, fun server => ?_, fun q => ?_, h.once⟩
  · show q ∈ update s.listed c.server (p :: s.listed c.server) server ↔ ∃ d, (s.set p _).connections q = some d ∧ _
    by_cases hq : q = p
    · subst hq
      rw [exists_set_self]
      by_cases hserver : server = c.server
      · subst hserver
        simp [hlDel]
      · rw [update_of_ne hserver]
        constructor
        · exact fun hmem => absurd hmem (hnot server)
        · exact fun heq => absurd heq.1.symm hserver
    · rw [set_of_ne hq, ← h.listed server q]
      by_cases hserver : server = c.server
      · subst hserver
        rw [update_self, List.mem_cons, or_iff_right hq]
      · rw [update_of_ne hserver]
  · show (update s.listed c.server (p :: s.listed c.server) server).Nodup
    by_cases hserver : server = c.server
    · subst hserver
      rw [update_self]
      exact List.nodup_cons.mpr ⟨hnot _, h.nodup _⟩
    · rw [update_of_ne hserver]
      exact h.nodup server
  · apply (h.dead q).trans
    by_cases hq : q = p
    · subst hq
      show _ ↔ ∃ d, (s.set q _).connections q = some d ∧ _
      rw [exists_set_self, hold]
      simp [hlDel]
    · exact (exists_congr_of_ne (set_of_ne hq) _).symm

theorem Sound.deleted (h : Sound s) (hold : s.connections p = some c) (hlDel : c.lDel = false) :
    Sound { s.set p { c with lDel := true } with
      listed := update s.listed c.server ((s.listed c.server).erase p), dead := p :: s.dead } := by
  refine ⟨fun server q => ?_, fun server => ?_, fun q => ?_, ?_⟩
  · show q ∈ update s.listed c.server ((s.listed c.server).erase p) server ↔ ∃ d, (s.set p _).connections q = some d ∧ _
    by_cases hq : q = p
    · subst hq
      rw [exists_set_self]
      constructor
      · intro hmem
        by_cases hserver : server = c.server
        · subst hserver
          rw [update_self, (h.nodup _).mem_erase_iff] at hmem
          exact absurd rfl hmem.1
        · rw [update_of_ne hserver] at hmem
          exact absurd (h.server_eq hold hmem).symm hserver
      · intro hdel
        cases hdel.2.2
    · rw [set_of_ne hq, ← h.listed server q]
      by_cases hserver : server = c.server
      · subst hserver
        rw [update_self, (h.nodup _).mem_erase_iff, and_iff_right hq]
      · rw [update_of_ne hserver]
  · show (update s.listed c.server ((s.listed c.server).erase p) server).Nodup
    by_cases hserver : server = c.server
    · subst hserver
      rw [update_self]
      exact (h.nodup _).erase p
    · rw [update_of_ne hserver]
      exact h.nodup server
  · show q ∈ p :: s.dead ↔ ∃ d, (s.set p _).connections q = some d ∧ _
    by_cases hq : q = p
    · subst hq
      rw [exists_set_self]
      exact ⟨fun _ => rfl, fun _ => List.mem_cons_self⟩
    · rw [set_of_ne hq, ← h.dead q, List.mem_cons, or_iff_right hq]
  · apply List.nodup_cons.mpr
    refine ⟨fun hmem => ?_, h.once⟩
    obtain ⟨d, hd, hyes⟩ := (h.dead p).mp hmem
    cases hold.symm.trans hd
    rw [hlDel] at hyes
    cases hyes

omit [DecidableEq κ] in
theorem Sound.purged (h : Sound s) : Sound { s with connections := fun p => if p ∈ s.dead then none else s.connections p, dead := [] } := by
  refine ⟨fun server q => ?_, h.nodup, fun q => ?_, List.nodup_nil⟩
  · apply (h.listed server q).trans
    by_cases hq : q ∈ s.dead
    · obtain ⟨c, hc, hlDel⟩ := (h.dead q).mp hq
      simp [hq, hc, hlDel]
    · simp [hq]
  · by_cases hq : q ∈ s.dead
    · simp [hq]
    · have hnot := mt (h.dead q).mpr hq
      simpa [hq] using hnot

omit [DecidableEq κ] in
theorem without_nil : s.without [] = s := by
  unfold Pool.without
  simp

omit [DecidableEq κ] in
theorem without_without (gone gone' : List ι) : (s.without gone).without gone' = s.without (gone ++ gone') := by
  unfold Pool.without
  congr 1
  · funext p
    by_cases hp : p ∈ gone <;> by_cases hp' : p ∈ gone' <;> simp [hp, hp']
  · funext server
    rw [List.filter_filter]
    apply List.filter_congr
    intro p _
    simp [Bool.and_comm]

omit [DecidableEq κ] in
theorem Old.of_without {gone : List ι} {now : Int} (h : Old lifetime now (s.without gone).connections p) :
    Old lifetime now s.connections p := by
  obtain ⟨c, hc, hrest⟩ := h
  have hsome : (if p ∈ gone then none else s.connections p) = some c := hc
  split at hsome
  · cases hsome
  · exact ⟨c, hsome, hrest⟩

omit [DecidableEq κ] in
/-- What is not allocated any more was listed, and the others stay. -/
theorem Sound.without (h : Sound s) {gone : List ι} (hgone : ∀ p ∈ gone, ∃ server, p ∈ s.listed server) : Sound (s.without gone) := by
  refine ⟨fun server q => ?_, fun server => (h.nodup server).filter _, fun q => ?_, h.once⟩
  · show q ∈ (s.listed server).filter _ ↔ ∃ d, (if q ∈ gone then none else s.connections q) = some d ∧ _
    by_cases hq : q ∈ gone
    · simp [hq]
    · rw [List.mem_filter, if_neg hq, h.listed server q]
      simp [hq]
  · show q ∈ s.dead ↔ ∃ d, (if q ∈ gone then none else s.connections q) = some d ∧ _
    by_cases hq : q ∈ gone
    · obtain ⟨server, hlisted⟩ := hgone q hq
      obtain ⟨c, hc, -, -, hlDel⟩ := (h.listed server q).mp hlisted
      rw [h.dead q, hc]
      simp [hq, hlDel]
    · rw [if_neg hq]
      exact h.dead q

theorem sound_invariant (lifetime : Int) : System.Invariant (pool lifetime : System (Pool ι κ) _) Sound where
  init := by
    rintro s rfl
    exact ⟨fun _ _ => by simp, fun _ => List.nodup_nil, fun _ => by simp, List.nodup_nil⟩
  step := by
    intro s e s' h hstep
    cases e with
    | opened p server port =>
        obtain ⟨hnone, used, rfl⟩ := hstep
        exact h.opened hnone port used
    | got server port now answer =>
        obtain ⟨-, hstep⟩ := hstep
        cases answer with
        | none =>
            cases hstep
            exact h
        | some p =>
            obtain ⟨c, hc, rfl⟩ := hstep
            exact h.set hc rfl rfl rfl
    | added p now =>
        obtain ⟨c, hc, hlDel, hstep⟩ := hstep
        cases hadded : c.added with
        | true =>
            rw [if_pos hadded] at hstep
            rw [hstep]
            exact h.set hc rfl rfl rfl
        | false =>
            rw [if_neg (Bool.eq_false_iff.mp hadded)] at hstep
            rw [hstep]
            exact h.added hc hlDel hadded now
    | released p =>
        obtain ⟨c, hc, rfl⟩ := hstep
        exact h.set hc rfl rfl rfl
    | deleted p =>
        obtain ⟨c, hc, hstep⟩ := hstep
        cases hlDel : c.lDel with
        | true =>
            rw [if_pos hlDel] at hstep
            rw [hstep]
            exact h
        | false =>
            rw [if_neg (Bool.eq_false_iff.mp hlDel)] at hstep
            rw [hstep]
            exact h.deleted hc hlDel
    | purged =>
        cases hstep
        exact h.purged
    | closed now =>
        obtain ⟨gone, hgone, rfl⟩ := hstep
        exact h.without hgone.listed

end Sound

/-! ## One user at a time -/

/-- The connection is given to a user. -/
def Event.HandsOut (p : ι) : Event ι κ → Prop
  | .got _ _ _ (some q) => q = p
  | .added q _ => q = p
  | _ => False

/-- The user is done with the connection, or it is a new one at the same address. -/
def Event.Returns (p : ι) : Event ι κ → Prop
  | .released q => q = p
  | .opened q _ _ => q = p
  | _ => False

/-- The connection has been handed out, and not returned. -/
def Held (labels : List (Event ι κ)) (p : ι) : Prop :=
  ∃ before e after, labels = before ++ e :: after ∧ e.HandsOut p ∧ ∀ e' ∈ after, ¬e'.Returns p

/-- A connection that is in use, if it is still there. -/
def InUse (s : Pool ι κ) (p : ι) : Prop := ∀ c, s.connections p = some c → c.inUse = true

section Held

variable {lifetime : Int} {s s' : Pool ι κ} {p q : ι} {labels : List (Event ι κ)} {e : Event ι κ}

omit [DecidableEq ι] [DecidableEq κ] in
theorem Held.concat (h : Held (labels ++ [e]) p) : e.HandsOut p ∨ Held labels p ∧ ¬e.Returns p := by
  obtain ⟨before, e', after, hlabels, hhands, hafter⟩ := h
  obtain rfl | ⟨after, last, rfl⟩ := List.eq_nil_or_concat' after
  · obtain ⟨-, he⟩ := List.append_inj' hlabels rfl
    cases he
    exact .inl hhands
  · rw [← List.cons_append, ← List.append_assoc] at hlabels
    obtain ⟨hinit, he⟩ := List.append_inj' hlabels rfl
    cases he
    refine .inr ⟨⟨before, e', after, hinit, hhands, fun e'' he'' => hafter e'' (List.mem_append_left _ he'')⟩, ?_⟩
    exact hafter e (List.mem_append_right _ List.mem_cons_self)

omit [DecidableEq κ] in
theorem InUse.set (h : InUse s p) {c : Connection κ} (hc : q = p → c.inUse = true) : InUse (s.set q c) p := by
  intro d hd
  by_cases hp : p = q
  · subst hp
    rw [set_self] at hd
    cases hd
    exact hc rfl
  · rw [set_of_ne hp] at hd
    exact h d hd

omit [DecidableEq κ] in
theorem inUse_set {c : Connection κ} (hc : c.inUse = true) : InUse (s.set p c) p := by
  intro d hd
  rw [set_self] at hd
  cases hd
  exact hc

omit [DecidableEq ι] [DecidableEq κ] in
/-- What is freed is not in use any more. -/
theorem InUse.free (h : InUse s p) {P : ι → Prop} [DecidablePred P]
    (hfreed : ∀ q, s'.connections q = if P q then none else s.connections q) : InUse s' p := by
  intro d hd
  rw [hfreed p] at hd
  split at hd
  · cases hd
  · exact h d hd

theorem inUse_of_handsOut (hstep : Step lifetime s e s') (hhands : e.HandsOut p) : InUse s' p := by
  cases e with
  | got server port now answer =>
      cases answer with
      | none => exact absurd hhands not_false
      | some q =>
          cases hhands
          obtain ⟨-, c, -, rfl⟩ := hstep
          exact inUse_set rfl
  | added q now =>
      cases hhands
      obtain ⟨c, -, -, hstep⟩ := hstep
      split at hstep
      · rw [hstep]
        exact inUse_set rfl
      · rw [hstep]
        exact inUse_set rfl
  | _ => exact absurd hhands not_false

theorem InUse.step (h : InUse s p) (hstep : Step lifetime s e s') (hreturns : ¬e.Returns p) : InUse s' p := by
  cases e with
  | opened q server port =>
      obtain ⟨-, used, rfl⟩ := hstep
      exact h.set fun hq => absurd hq hreturns
  | got server port now answer =>
      obtain ⟨-, hstep⟩ := hstep
      cases answer with
      | none =>
          cases hstep
          exact h
      | some q =>
          obtain ⟨c, -, rfl⟩ := hstep
          exact h.set fun _ => rfl
  | added q now =>
      obtain ⟨c, -, -, hstep⟩ := hstep
      split at hstep
      · rw [hstep]
        exact h.set fun _ => rfl
      · rw [hstep]
        exact h.set fun _ => rfl
  | released q =>
      obtain ⟨c, -, rfl⟩ := hstep
      exact h.set fun hq => absurd hq hreturns
  | deleted q =>
      obtain ⟨c, hc, hstep⟩ := hstep
      split at hstep
      · rw [hstep]
        exact h
      · rw [hstep]
        refine h.set fun hq => ?_
        subst hq
        exact h c hc
  | purged =>
      cases hstep
      exact h.free fun _ => rfl
  | closed now =>
      obtain ⟨gone, -, rfl⟩ := hstep
      exact h.free fun _ => rfl

/-- A connection that is handed out is in use until it is returned. -/
theorem held_inUse (hrun : (pool lifetime).Runs labels s) (hheld : Held labels p) : InUse s p := by
  induction hrun with
  | start =>
      obtain ⟨before, e, after, hlabels, -⟩ := hheld
      exact absurd hlabels.symm (List.append_ne_nil_of_right_ne_nil _ (List.cons_ne_nil _ _))
  | step _ hstep ih =>
      obtain hhands | ⟨hheld, hreturns⟩ := hheld.concat
      · exact inUse_of_handsOut hstep hhands
      · exact (ih hheld).step hstep hreturns

/-- It is not handed out to a second user, and not closed as an old one. -/
theorem held_alone (hrun : (pool lifetime).Runs labels s) (hheld : Held labels p) :
    (∀ port, ¬Idle s.connections port p) ∧ ∀ now, ¬Old lifetime now s.connections p := by
  have hinUse := held_inUse hrun hheld
  constructor
  · rintro port ⟨c, hc, hidle, -⟩
    rw [hinUse c hc] at hidle
    cases hidle
  · rintro now ⟨c, hc, hidle, -⟩
    rw [hinUse c hc] at hidle
    cases hidle

end Held

end ConnectionPool
