import Mathlib.Tactic
import BeagleCache.StoredMetadata

/-! How long a stored response is served. `checkExpiry` is called for every hit, for the response as it was read from the disk. -/

namespace BeagleCache.Freshness

variable {r : HttpResponse} {L now : Int}

/-- The age of the response when the last of it was received. -/
def correctedInitialAge (r : HttpResponse) : Int :=
  max (max 0 (r.response_time - r.date_value)) r.age_value + (r.response_time - r.request_time)

/-- The age that `checkExpiry` computes. -/
def currentAge (r : HttpResponse) (now : Int) : Int := correctedInitialAge r + (now - r.response_time)

def checkExpiry (r : HttpResponse) (now : Int) : Int × HttpResponse :=
  let apparent_age := max 0 (r.response_time - r.date_value)
  let corrected_received_age := max apparent_age r.age_value
  let response_delay := r.response_time - r.request_time
  let corrected_initial_age := corrected_received_age + response_delay
  let resident_time := now - r.response_time
  let current_age := corrected_initial_age + resident_time
  let presentRes := { r with age_value := current_age }
  let freshness_lifetime :=
    match r.cc with
    | some ccs =>
        if ccs.max_age ≠ -1 then ccs.max_age
        else if r.expires_value ≠ -1 then r.expires_value - r.date_value else -1
    | none => if r.expires_value ≠ -1 then r.expires_value - r.date_value else -1
  let freshness_lifetime :=
    if freshness_lifetime ≤ 0 ∧ r.last_modified ≠ -1 then now - r.last_modified else freshness_lifetime
  if freshness_lifetime ≤ 0 ∧ r.last_modified = -1 then (0, presentRes)
  else if current_age < freshness_lifetime then (0, presentRes)
  else (-1, presentRes)

/-- The lifetime that the headers give, where -1 is that there is no such header. -/
inductive Lifetime (r : HttpResponse) : Int → Prop
  | maxAge {ccs : CacheControlResponse} : r.cc = some ccs → 0 ≤ ccs.max_age → Lifetime r ccs.max_age
  | expires : (∀ ccs, r.cc = some ccs → ccs.max_age = -1) → r.expires_value ≠ -1 → Lifetime r (r.expires_value - r.date_value)

/-! ## What is compared with the age -/

/-- The value of `freshness_lifetime` before `Last-Modified` is looked at. -/
def givenLifetime (r : HttpResponse) : Int :=
  match r.cc with
  | some ccs =>
      if ccs.max_age ≠ -1 then ccs.max_age
      else if r.expires_value ≠ -1 then r.expires_value - r.date_value else -1
  | none => if r.expires_value ≠ -1 then r.expires_value - r.date_value else -1

theorem Lifetime.given (hL : Lifetime r L) : givenLifetime r = L := by
  unfold givenLifetime
  cases hL with
  | @maxAge ccs hcc hpos =>
      have hne : ccs.max_age ≠ -1 := by omega
      rw [hcc]
      exact if_pos hne
  | expires hno hexpires =>
      cases hcc : r.cc with
      | none => exact if_pos hexpires
      | some ccs => exact (if_neg (not_not.mpr (hno ccs hcc))).trans (if_pos hexpires)

/-- A lifetime that is not positive is taken for none. -/
theorem checkExpiry_eq (hL : Lifetime r L) :
    (checkExpiry r now).1 = if 0 < L then (if currentAge r now < L then 0 else -1)
      else if r.last_modified = -1 then 0 else if currentAge r now < now - r.last_modified then 0 else -1 := by
  have hfst : (checkExpiry r now).1 =
      let freshness_lifetime := if givenLifetime r ≤ 0 ∧ r.last_modified ≠ -1 then now - r.last_modified else givenLifetime r
      if freshness_lifetime ≤ 0 ∧ r.last_modified = -1 then 0
      else if currentAge r now < freshness_lifetime then 0 else -1 :=
    (apply_ite Prod.fst _ _ _).trans (congrArg (ite _ _) (apply_ite Prod.fst _ _ _))
  rw [hfst, hL.given]
  dsimp only
  by_cases hpos : 0 < L
  · have hsome : ¬(L ≤ 0 ∧ r.last_modified ≠ -1) := fun h => absurd h.1 (not_le.mpr hpos)
    have hnone : ¬(L ≤ 0 ∧ r.last_modified = -1) := fun h => absurd h.1 (not_le.mpr hpos)
    rw [if_neg hsome, if_neg hnone, if_pos hpos]
  · by_cases hmodified : r.last_modified = -1
    · have hsome : ¬(L ≤ 0 ∧ r.last_modified ≠ -1) := fun h => h.2 hmodified
      rw [if_neg hsome, if_pos ⟨not_lt.mp hpos, hmodified⟩, if_neg hpos, if_pos hmodified]
    · have hsome : L ≤ 0 ∧ r.last_modified ≠ -1 := ⟨not_lt.mp hpos, hmodified⟩
      have hnone : ¬(now - r.last_modified ≤ 0 ∧ r.last_modified = -1) := fun h => hmodified h.2
      rw [if_pos hsome, if_neg hnone, if_neg hpos, if_neg hmodified]

/-- Whether the response is taken for stale does not depend on the time when `Last-Modified` decides. -/
theorem currentAge_lt_iff : currentAge r now < now - r.last_modified ↔ correctedInitialAge r < r.response_time - r.last_modified := by
  unfold currentAge
  omega

theorem currentAge_mono {later : Int} (h : now ≤ later) : currentAge r now ≤ currentAge r later := by
  unfold currentAge
  omega

theorem currentAge_nonneg (hrequest : r.request_time ≤ r.response_time) (hnow : r.response_time ≤ now) : 0 ≤ currentAge r now := by
  have happarent : 0 ≤ max (max 0 (r.response_time - r.date_value)) r.age_value := le_max_of_le_left (le_max_left _ _)
  unfold currentAge correctedInitialAge
  omega

/-! ## Fresh and stale -/

/-- What is asked of `checkExpiry` at one time: it accepts no response that is as old as its lifetime, and what it has refused it
refuses at every later time. -/
structure Judged (r : HttpResponse) (L now : Int) : Prop where
  fresh : (checkExpiry r now).1 = 0 → currentAge r now < L
  stale : (checkExpiry r now).1 = -1 → ∀ later, now ≤ later → (checkExpiry r later).1 = -1

/-- The response had not been changed for longer than it was old when it was received. -/
def Unmodified (r : HttpResponse) : Prop :=
  r.last_modified = -1 ∨ max (max 0 (r.response_time - r.date_value)) r.age_value < r.request_time - r.last_modified

theorem accepted_iff (hL : Lifetime r L) (hL0 : L ≤ 0) : (checkExpiry r now).1 = 0 ↔ Unmodified r := by
  have hiff : currentAge r now < now - r.last_modified ↔
      max (max 0 (r.response_time - r.date_value)) r.age_value < r.request_time - r.last_modified := by
    rw [currentAge_lt_iff, correctedInitialAge]
    omega
  rw [checkExpiry_eq hL, if_neg (not_lt.mpr hL0), Unmodified]
  by_cases hmodified : r.last_modified = -1
  · rw [if_pos hmodified]
    exact iff_of_true rfl (.inl hmodified)
  · rw [if_neg hmodified, or_iff_right hmodified, ← hiff]
    by_cases hage : currentAge r now < now - r.last_modified
    · rw [if_pos hage]
      exact iff_of_true rfl hage
    · rw [if_neg hage]
      exact iff_of_false (by decide) hage

theorem checkExpiry_ne_zero (hL : Lifetime r L) : (checkExpiry r now).1 = -1 ↔ (checkExpiry r now).1 ≠ 0 := by
  have hcases : (checkExpiry r now).1 = 0 ∨ (checkExpiry r now).1 = -1 := by
    rw [checkExpiry_eq hL]
    repeat' split
    all_goals decide
  rcases hcases with hzero | hminus <;> omega

theorem stale_later (hL : Lifetime r L) {later : Int} (hle : now ≤ later) (hstale : (checkExpiry r now).1 = -1) :
    (checkExpiry r later).1 = -1 := by
  by_cases hpos : 0 < L
  · rw [checkExpiry_eq hL, if_pos hpos] at hstale ⊢
    have hage : ¬currentAge r now < L := by
      intro hage
      rw [if_pos hage] at hstale
      exact absurd hstale (by decide)
    exact if_neg fun h => hage ((currentAge_mono hle).trans_lt h)
  · rw [checkExpiry_ne_zero hL, Ne, accepted_iff hL (not_lt.mp hpos)] at hstale ⊢
    exact hstale

/-- A lifetime that is 0 or negative is not seen, and the response is taken for fresh unless `Last-Modified` speaks against it. -/
theorem judged_iff (hrequest : r.request_time ≤ r.response_time) (hL : Lifetime r L) (hnow : r.response_time ≤ now) :
    Judged r L now ↔ 0 < L ∨ ¬Unmodified r := by
  have hstale : (checkExpiry r now).1 = -1 → ∀ later, now ≤ later → (checkExpiry r later).1 = -1 :=
    fun hstale later hle => stale_later hL hle hstale
  constructor
  · intro h
    by_cases hpos : 0 < L
    · exact .inl hpos
    · refine .inr fun hunmodified => ?_
      have hage : currentAge r now < L := h.fresh ((accepted_iff hL (not_lt.mp hpos)).mpr hunmodified)
      have hnonneg : 0 ≤ currentAge r now := currentAge_nonneg hrequest hnow
      omega
  · intro h
    refine ⟨fun hfresh => ?_, hstale⟩
    by_cases hpos : 0 < L
    · rw [checkExpiry_eq hL, if_pos hpos] at hfresh
      by_contra hage
      rw [if_neg hage] at hfresh
      exact absurd hfresh (by decide)
    · exact absurd ((accepted_iff hL (not_lt.mp hpos)).mp hfresh) (h.resolve_left hpos)

/-- `max-age=0`, and no `Last-Modified`. -/
def unkept : HttpResponse := { sampleResponse 0 (-1) with last_modified := -1 }

/-- Ten years later it is still fresh. -/
theorem unkept_accepted : unkept.date_value ≤ unkept.response_time ∧ unkept.request_time ≤ unkept.response_time ∧ Lifetime unkept 0 ∧
    unkept.response_time ≤ 1315360000 ∧ (checkExpiry unkept 1315360000).1 = 0 ∧ currentAge unkept 1315360000 = 315360001 ∧
      ¬Judged unkept 0 1315360000 := by
  have hzero : (checkExpiry unkept 1315360000).1 = 0 := by decide
  refine ⟨by decide, by decide, .maxAge (r := unkept) rfl (by decide), by decide, hzero, by decide, fun h => ?_⟩
  exact absurd (h.fresh hzero) (by decide)

/-- A minute that the response may be kept for. -/
theorem judged_sample : Judged (sampleResponse 60 (-1)) 60 1000000030 ∧ (checkExpiry (sampleResponse 60 (-1)) 1000000030).1 = 0 :=
  ⟨(judged_iff (r := sampleResponse 60 (-1)) (by decide) (.maxAge (r := sampleResponse 60 (-1)) rfl (by decide)) (by decide)).mpr
    (.inl (by decide)), by decide⟩

end BeagleCache.Freshness
