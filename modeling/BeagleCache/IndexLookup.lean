import Mathlib.Tactic
import BeagleCache.IndexOrder

/-! What a search of the index finds. The search starts from the clock 0, which one way of every set has, and that way is found by
no search; `discardHeaders` leaves that way its header. -/

namespace BeagleCache.Sets

open ByteMemory Store Transition Function

/-! ## The search -/

/-- What the search of a set gives: of the ways with the header the last one used, if its clock is not 0. -/
def SetHeader.IsBest (h : SetHeader) (hash : BitVec 32) : Option (Fin ways) → Prop
  | none => ∀ i, h.headers i = hash → h.clocks i = 0
  | some i => h.headers i = hash ∧ 0 < h.clocks i ∧ ∀ j, h.headers j = hash → h.clocks j ≤ h.clocks i

theorem getBestMatchByIndex_isBest {m : Memory} {set : Nat} {hash : BitVec 32} {best : Option (Fin ways)}
    (h : getBestMatchByIndex m set hash = .ok best) : (setAt m set).IsBest hash best := by
  have hsearch := Recency.foldl_best (fun i : Fin ways => hdrCmp hash (getIndexHeader m set i)) (fun i : Fin ways => getClock m set i)
    (List.finRange ways)
  have hcmp : ∀ i : Fin ways, (hdrCmp hash (getIndexHeader m set i) = true) ↔ (setAt m set).headers i = hash := by
    intro i
    rw [hdrCmp, decide_eq_true_iff]
    exact eq_comm
  simp only [getBestMatchByIndex] at h hsearch
  generalize List.foldl _ ((none : Option (Fin ways)), (0 : BitVec 32)) _ = found at h hsearch
  split at h
  · cases h
  · cases h
    obtain ⟨best, rank⟩ := found
    cases best with
    | none => exact fun i hi => congrArg BitVec.toNat (hsearch.2 i (List.mem_finRange i) ((hcmp i).mpr hi))
    | some i =>
        obtain ⟨-, hheader, hpos, hall⟩ := hsearch
        exact ⟨(hcmp i).mp hheader, hpos, fun j hj => hall j (List.mem_finRange j) ((hcmp j).mpr hj)⟩

/-! ## The history of the sets -/

/-- What was done to the ways of the sets: the header that `updateHeaders` gave to a way, until it gives it another or
`discardHeaders` takes the way, and when the way was used last. -/
structure History where
  time : Nat
  held : Nat → Fin ways → Option (BitVec 32)
  lastUse : Nat → Fin ways → Nat

/-- The way an operation is on. -/
def Op.On (numSets : Nat) (op : Op) (s : Nat) (k : Fin ways) : Prop := s = getSetFromHash numSets op.hash ∧ op.matchNum = k

instance (numSets : Nat) (op : Op) (s : Nat) (k : Fin ways) : Decidable (op.On numSets s k) :=
  inferInstanceAs (Decidable (_ ∧ _))

def History.step (numSets : Nat) (g : History) (op : Op) : History where
  time := g.time + 1
  held := fun s k =>
    if op.On numSets s k then
      match op with
      | .updateHeaders _ _ header _ _ _ => some header
      | .updateClocks _ _ => g.held s k
      | .discardHeaders _ _ => none
    else g.held s k
  lastUse := fun s k =>
    if op.On numSets s k then
      match op with
      | .updateHeaders _ _ _ _ _ _ | .updateClocks _ _ => g.time + 1
      | .discardHeaders _ _ => g.lastUse s k
    else g.lastUse s k

def history (numSets : Nat) (ops : List Op) : History := ops.foldl (History.step numSets) ⟨0, fun _ _ => none, fun _ _ => 0⟩

theorem history_append (numSets : Nat) (ops : List Op) (op : Op) :
    history numSets (ops ++ [op]) = (history numSets ops).step numSets op := by
  rw [history, List.foldl_append]
  rfl

/-- A set is as its history says: the ways that hold a header have it, and their clocks have the order of their last uses. -/
structure Recorded (g : History) (s : Nat) (h : SetHeader) : Prop where
  header : ∀ k x, g.held s k = some x → h.headers k = x
  past : ∀ k, g.lastUse s k ≤ g.time
  order : ∀ i j, i ≠ j → g.held s i ≠ none → g.held s j ≠ none → (g.lastUse s i < g.lastUse s j ↔ h.clocks i < h.clocks j)

theorem Recorded.elsewhere {g : History} {s numSets : Nat} {h : SetHeader} {op : Op} (hrec : Recorded g s h)
    (hs : s ≠ getSetFromHash numSets op.hash) : Recorded (g.step numSets op) s h := by
  have hoff : ∀ k, ¬op.On numSets s k := fun k hon => hs hon.1
  have hheld : ∀ k, (g.step numSets op).held s k = g.held s k := fun k => if_neg (hoff k)
  have huse : ∀ k, (g.step numSets op).lastUse s k = g.lastUse s k := fun k => if_neg (hoff k)
  refine ⟨?_, ?_, ?_⟩
  · intro k x hk
    exact hrec.header k x ((hheld k).symm.trans hk)
  · intro k
    rw [huse]
    exact (hrec.past k).trans (Nat.le_succ _)
  · intro i j hne hi hj
    rw [huse, huse]
    exact hrec.order i j hne (fun hnone => hi ((hheld i).trans hnone)) (fun hnone => hj ((hheld j).trans hnone))

/-- A way of the set is used: it goes to the top, and gets a header or keeps what it held. -/
theorem Recorded.used {g g' : History} {s : Nat} {h h' : SetHeader} {k : Fin ways} (hrec : Recorded g s h)
    (hrank : Recency.Ranking ways h.clocks) (htime : g'.time = g.time + 1) (hclocks : h'.clocks = Recency.touch ways h.clocks k)
    (huse : g'.lastUse s k = g.time + 1) (hother : ∀ i, i ≠ k → g'.held s i = g.held s i ∧ g'.lastUse s i = g.lastUse s i ∧
      h'.headers i = h.headers i) (hheader : ∀ x, g'.held s k = some x → h'.headers k = x) : Recorded g' s h' := by
  refine ⟨?_, ?_, ?_⟩
  · intro i x hi
    by_cases hk : i = k
    · subst hk
      exact hheader x hi
    · obtain ⟨hheld, -, hsame⟩ := hother i hk
      rw [hsame]
      exact hrec.header i x (hheld.symm.trans hi)
  · intro i
    rw [htime]
    by_cases hk : i = k
    · rw [hk, huse]
    · rw [(hother i hk).2.1]
      exact (hrec.past i).trans (Nat.le_succ _)
  · intro i j hne hi hj
    rw [hclocks]
    by_cases hik : i = k
    · subst hik
      have hjk : j ≠ i := hne.symm
      have hpast := hrec.past j
      have htop := hrank.touch_lt_top hjk
      rw [huse, (hother j hjk).2.1, Recency.touch_self]
      omega
    · by_cases hjk : j = k
      · subst hjk
        have hpast := hrec.past i
        have htop := hrank.touch_lt_top hik
        rw [huse, (hother i hik).2.1, Recency.touch_self]
        omega
      · obtain ⟨hheldi, husei, -⟩ := hother i hik
        obtain ⟨hheldj, husej, -⟩ := hother j hjk
        rw [husei, husej, hrank.touch_lt_touch hik hjk]
        exact hrec.order i j hne (hheldi ▸ hi) (hheldj ▸ hj)

theorem Recorded.discarded {g g' : History} {s : Nat} {h : SetHeader} {k : Fin ways} (hrec : Recorded g s h)
    (hrank : Recency.Ranking ways h.clocks) (htime : g'.time = g.time + 1) (hnone : g'.held s k = none)
    (huse : ∀ i, g'.lastUse s i = g.lastUse s i) (hother : ∀ i, i ≠ k → g'.held s i = g.held s i) :
    Recorded g' s (h.discard k) := by
  have hne : ∀ i, g'.held s i ≠ none → i ≠ k := by
    rintro i hi rfl
    exact hi hnone
  refine ⟨?_, ?_, ?_⟩
  · intro i x hi
    have hik := hne i (by rw [hi]; exact Option.some_ne_none x)
    have hold := hrec.header i x ((hother i hik).symm.trans hi)
    unfold SetHeader.discard
    split
    · exact hold
    · exact (update_of_ne hik _ _).trans hold
  · intro i
    rw [huse, htime]
    exact (hrec.past i).trans (Nat.le_succ _)
  · intro i j hij hi hj
    have hik := hne i hi
    have hjk := hne j hj
    rw [huse, huse, SetHeader.discard_clocks, hrank.retire_lt_retire hik hjk]
    exact hrec.order i j hij (hother i hik ▸ hi) (hother j hjk ▸ hj)

theorem Recorded.act {g : History} {s numSets : Nat} {h : SetHeader} {op : Op} {k : Fin ways} (hrec : Recorded g s h)
    (hrank : Recency.Ranking ways h.clocks) (hs : s = getSetFromHash numSets op.hash) (hk : op.matchNum = k) :
    Recorded (g.step numSets op) s (op.act k h) := by
  have hon : op.On numSets s k := ⟨hs, hk⟩
  have hoff : ∀ i, i ≠ k → ¬op.On numSets s i := by
    intro i hne hi
    have hval : (i : Int) = k := hi.2.symm.trans hk
    exact hne (Fin.ext (by omega))
  cases op with
  | updateHeaders hash matchNum header remOffset remLen version =>
      refine hrec.used (k := k) hrank rfl rfl (if_pos hon) ?_ ?_
      · intro i hi
        have hupdate : update h.headers k header i = h.headers i := update_of_ne hi ..
        exact ⟨if_neg (hoff i hi), if_neg (hoff i hi), hupdate⟩
      · intro x hx
        have hheld : some header = some x := (if_pos hon).symm.trans hx
        cases hheld
        have hupdate : update h.headers k header k = header := update_self ..
        exact hupdate
  | updateClocks hash matchNum =>
      refine hrec.used (k := k) hrank rfl rfl (if_pos hon) ?_ ?_
      · intro i hi
        exact ⟨if_neg (hoff i hi), if_neg (hoff i hi), rfl⟩
      · intro x hx
        exact hrec.header k x ((if_pos hon).symm.trans hx)
  | discardHeaders hash matchNum =>
      refine hrec.discarded (k := k) hrank rfl (if_pos hon) ?_ fun i hi => if_neg (hoff i hi)
      intro i
      show (if _ then _ else _) = _
      split <;> rfl

theorem recorded_runs {numSets : Nat} {mode : Mode} {file : File} {m₀ m : Memory} {ops : List Op}
    (hinit : Ranked numSets (initIndex numSets mode file m₀)) (hrun : (indexSystem numSets mode file m₀).Runs ops m) {s : Nat}
    (hs : s < numSets) : Recorded (history numSets ops) s (setAt m s) := by
  induction hrun with
  | start _ =>
      refine ⟨?_, fun k => Nat.le_refl _, ?_⟩
      · intro k x hk
        cases hk
      · intro i j _ hi _
        exact absurd rfl hi
  | @step ops m m' op hbefore hnext ih =>
      obtain ⟨k, hk, hall⟩ := next_cases hnext
      rw [history_append, hall s]
      split
      · next hset => exact ih.act (ranked_runs hinit hbefore s hs) hset hk
      · next hset => exact ih.elsewhere hset

/-! ## What is found -/

/-- The search for a hash is complete: if some way holds it the search gives the one of them that was used last, and it gives -1
if none does. -/
def Complete (g : History) (m : Memory) (s : Nat) (hash : BitVec 32) : Prop :=
  ∃ best, getBestMatchByIndex m s hash = .ok best ∧
    ((∃ j, g.held s j = some hash) →
      ∃ k, best = some k ∧ g.held s k = some hash ∧ ∀ j, g.held s j = some hash → g.lastUse s j ≤ g.lastUse s k) ∧
    (best = none → ∀ j, g.held s j ≠ some hash)

/-- The last used of the ways that hold the hash is not the one whose clock is 0, and a way that still has the hash for its header
without holding it has a lower clock. -/
def Visible (g : History) (h : SetHeader) (s : Nat) (hash : BitVec 32) : Prop :=
  ∀ k, g.held s k = some hash → (∀ j, g.held s j = some hash → g.lastUse s j ≤ g.lastUse s k) →
    h.clocks k ≠ 0 ∧ ∀ j, h.headers j = hash → g.held s j ≠ some hash → h.clocks j < h.clocks k

/-- Of the ways that hold a hash one was used last. -/
theorem exists_last (g : History) (s : Nat) (hash : BitVec 32) (h : ∃ j, g.held s j = some hash) :
    ∃ k, g.held s k = some hash ∧ ∀ j, g.held s j = some hash → g.lastUse s j ≤ g.lastUse s k := by
  obtain ⟨j₀, hj₀⟩ := h
  have hmem : j₀ ∈ (Finset.univ.filter fun j => g.held s j = some hash) := by simpa using hj₀
  obtain ⟨k, hk, hmax⟩ := Finset.exists_max_image _ (g.lastUse s) ⟨j₀, hmem⟩
  exact ⟨k, by simpa using hk, fun j hj => hmax j (by simpa using hj)⟩

theorem Recorded.clocks_le {g : History} {s : Nat} {h : SetHeader} {hash : BitVec 32} (hrec : Recorded g s h) {j k : Fin ways}
    (hj : g.held s j = some hash) (hk : g.held s k = some hash) : g.lastUse s j ≤ g.lastUse s k ↔ h.clocks j ≤ h.clocks k := by
  by_cases hne : j = k
  · rw [hne]
    simp only [Nat.le_refl]
  · have horder := hrec.order k j (Ne.symm hne) (by rw [hk]; exact Option.some_ne_none _) (by rw [hj]; exact Option.some_ne_none _)
    omega

theorem complete_iff_visible {g : History} {m : Memory} {s : Nat} {hash : BitVec 32} (hrec : Recorded g s (setAt m s))
    (hrank : Recency.Ranking ways (setAt m s).clocks) (hsearch : ∃ best, getBestMatchByIndex m s hash = .ok best) :
    Complete g m s hash ↔ Visible g (setAt m s) s hash := by
  constructor
  · rintro ⟨best, hok, hfound, -⟩ w hw hlast
    obtain ⟨k, rfl, hk, hmax⟩ := hfound ⟨w, hw⟩
    obtain ⟨-, hpos, hbest⟩ := getBestMatchByIndex_isBest hok
    have hwk : w = k := by
      have hle := (hrec.clocks_le hw hk).mp (hmax w hw)
      have hge := (hrec.clocks_le hk hw).mp (hlast k hk)
      exact hrank.injective (by omega)
    subst hwk
    refine ⟨by omega, fun j hj hheld => ?_⟩
    have hne : j ≠ w := by
      rintro rfl
      exact hheld hk
    exact lt_of_le_of_ne (hbest j hj) (hrank.ne hne)
  · intro hvisible
    obtain ⟨best, hok⟩ := hsearch
    have hbest := getBestMatchByIndex_isBest hok
    refine ⟨best, hok, ?_, ?_⟩
    · intro hsome
      obtain ⟨w, hw, hlast⟩ := exists_last g s hash hsome
      obtain ⟨hzero, hhigher⟩ := hvisible w hw hlast
      have hheader := hrec.header w hash hw
      cases best with
      | none => exact absurd (hbest w hheader) hzero
      | some k =>
          obtain ⟨hk, -, hmax⟩ := hbest
          have hheld : g.held s k = some hash := by
            by_contra hnot
            exact absurd (hhigher k hk hnot) (Nat.not_lt.mpr (hmax w hheader))
          refine ⟨k, rfl, hheld, fun j hj => (hrec.clocks_le hj hheld).mpr (hmax j (hrec.header j hash hj))⟩
    · rintro rfl j hj
      obtain ⟨w, hw, hlast⟩ := exists_last g s hash ⟨j, hj⟩
      exact (hvisible w hw hlast).1 (hbest w (hrec.header w hash hw))

/-- In every state of an index that did not start with clocks that are none, the search for a hash is complete exactly if the way
it has to find is not the one whose clock is 0, and not behind a way that only has the hash left for its header. -/
theorem search_complete_iff (indexSize : Nat) (mode : Mode) (file : File) (m₀ : Memory) {m : Memory} {ops : List Op}
    (hstart : mode = .REUSEV → ∀ s < numSetsOf indexSize, (List.ofFn (file.clocks s)).Perm (List.range ways))
    (hrun : (indexSystem (numSetsOf indexSize) mode file m₀).Runs ops m) {hash : BitVec 32}
    (hset : getSetFromHash (numSetsOf indexSize) hash < numSetsOf indexSize) :
    Complete (history (numSetsOf indexSize) ops) m (getSetFromHash (numSetsOf indexSize) hash) hash ↔
      Visible (history (numSetsOf indexSize) ops) (setAt m (getSetFromHash (numSetsOf indexSize) hash))
        (getSetFromHash (numSetsOf indexSize) hash) hash := by
  have hinit := ranked_init m₀ hstart
  have hranked := ranked_runs hinit hrun
  exact complete_iff_visible (recorded_runs hinit hrun hset) (hranked _ hset) ((lruOrder_of_ranked hranked).searched _ hset hash)

/-! ## Operations one after the other -/

/-- The way of an operation, if it is one. -/
def Op.way (op : Op) : Fin ways := ⟨op.matchNum.toNat % ways, Nat.mod_lt _ (by decide)⟩

/-- What operations do to a set. -/
def actAll (numSets s : Nat) (ops : List Op) (h : SetHeader) : SetHeader :=
  ops.foldl (fun h op => if s = getSetFromHash numSets op.hash then op.act op.way h else h) h

/-- An operation on a way of a set that is there. -/
def Op.Fits (numSets : Nat) (op : Op) : Prop :=
  0 ≤ op.matchNum ∧ op.matchNum < ways ∧ getSetFromHash numSets op.hash ≤ numSets

instance (numSets : Nat) (op : Op) : Decidable (op.Fits numSets) := inferInstanceAs (Decidable (_ ∧ _))

theorem foldlM_next {numSets : Nat} (ops : List Op) (hops : ∀ op ∈ ops, op.Fits numSets) (m : Memory) :
    ∃ m', ops.foldlM (next numSets) m = .ok m' ∧ ∀ s, setAt m' s = actAll numSets s ops (setAt m s) := by
  induction ops generalizing m with
  | nil => exact ⟨m, rfl, fun s => rfl⟩
  | cons op ops ih =>
      obtain ⟨hlo, hhi, hset⟩ := hops op List.mem_cons_self
      have hmod : op.matchNum.toNat % ways = op.matchNum.toNat := Nat.mod_eq_of_lt (by omega)
      have hway : op.matchNum = op.way := by
        show op.matchNum = ((op.matchNum.toNat % ways : Nat) : Int)
        rw [hmod, Int.toNat_of_nonneg hlo]
      obtain ⟨m₁, hok, hall⟩ := (next_way numSets m hway).resolve_right fun hexit => absurd hexit.2 (Nat.not_lt.mpr hset)
      obtain ⟨m₂, hrest, hall'⟩ := ih (fun op' hop' => hops op' (List.mem_cons_of_mem _ hop')) m₁
      refine ⟨m₂, ?_, fun s => ?_⟩
      · rw [List.foldlM_cons, hok]
        exact hrest
      · rw [hall', hall]
        rfl

theorem exists_run (ops : List Op) (hops : ∀ op ∈ ops, op.Fits 1) :
    ∃ m, (indexSystem 1 .CREATE ⟨0, fun _ => 0⟩ fun _ => 0).Runs ops m ∧ setAt m 0 = actAll 1 0 ops SetHeader.init := by
  obtain ⟨m, hok, hall⟩ := foldlM_next ops hops (initIndex 1 .CREATE ⟨0, fun _ => 0⟩ fun _ => 0)
  have hstart : (indexSystem 1 .CREATE ⟨0, fun _ => 0⟩ fun _ => 0).Runs [] (initIndex 1 .CREATE ⟨0, fun _ => 0⟩ fun _ => 0) :=
    .start rfl
  refine ⟨m, System.runs_foldlM hstart hok, ?_⟩
  rw [hall]
  exact congrArg (actAll 1 0 ops) (setAt_initSets _ Nat.one_pos)

/-- One object for every way. -/
def fillWays : List Op := (List.range 8).map fun i => .updateHeaders (BitVec.ofNat 32 (5 + i)) i (BitVec.ofNat 32 (5 + i)) 0 1 0

/-- Eight objects later the first of them is still held, and is not found. -/
theorem search_incomplete :
    ¬∀ ops m, (indexSystem (numSetsOf 8) .CREATE ⟨0, fun _ => 0⟩ fun _ => 0).Runs ops m → ∀ hash,
      getSetFromHash (numSetsOf 8) hash < numSetsOf 8 →
        Complete (history (numSetsOf 8) ops) m (getSetFromHash (numSetsOf 8) hash) hash := by
  intro h
  obtain ⟨m, hrun, hset⟩ := exists_run fillWays (by decide)
  obtain ⟨best, hok, hfound, -⟩ := h fillWays m hrun 5 (by decide)
  obtain ⟨k, rfl, -, -⟩ := hfound ⟨⟨0, by decide⟩, by decide⟩
  have hbest := getBestMatchByIndex_isBest hok
  have hat : getSetFromHash (numSetsOf 8) 5 = 0 := by decide
  rw [hat, hset] at hbest
  have hzero : ∀ i : Fin ways, (actAll 1 0 fillWays SetHeader.init).headers i = 5 → (actAll 1 0 fillWays SetHeader.init).clocks i = 0 := by
    decide
  exact absurd hbest.2.1 (by rw [hzero k hbest.1]; exact Nat.lt_irrefl 0)

/-- The object that was put in last is found. -/
theorem search_complete_last : ∃ m, (indexSystem (numSetsOf 8) .CREATE ⟨0, fun _ => 0⟩ fun _ => 0).Runs fillWays m ∧
    Complete (history (numSetsOf 8) fillWays) m (getSetFromHash (numSetsOf 8) 12) 12 := by
  obtain ⟨m, hrun, hset⟩ := exists_run fillWays (by decide)
  refine ⟨m, hrun, (search_complete_iff 8 .CREATE ⟨0, fun _ => 0⟩ (fun _ => 0) (fun h => nomatch h) hrun (by decide)).mpr ?_⟩
  have hat : getSetFromHash (numSetsOf 8) 12 = 0 := by decide
  rw [hat, hset]
  unfold Visible
  decide

/-! ## Discarded entries -/

/-- The operation gives the way a header. -/
def Op.Enters (numSets s : Nat) (k : Fin ways) : Op → Prop
  | .updateHeaders hash matchNum _ _ _ _ => s = getSetFromHash numSets hash ∧ matchNum = k
  | .updateClocks _ _ | .discardHeaders _ _ => False

/-- After `discardHeaders` no search for the hash gives the way, until it gets a header again. -/
def StaysDiscarded (numSets : Nat) (m : Memory) (hash : BitVec 32) (k : Fin ways) : Prop :=
  ∀ m₁, discardHeaders numSets m hash k = .ok m₁ →
    ∀ (ops : List Op) m₂, (∀ op ∈ ops, ¬op.Enters numSets (getSetFromHash numSets hash) k) → ops.foldlM (next numSets) m₁ = .ok m₂ →
      getBestMatchByIndex m₂ (getSetFromHash numSets hash) hash ≠ .ok (some k)

theorem discard_header_ne {h : SetHeader} {hash : BitVec 32} {k : Fin ways} (hhash : hash ≠ -1) (hne : h.headers k ≠ hash)
    (i : Fin ways) : (h.discard i).headers k ≠ hash := by
  unfold SetHeader.discard
  split
  · exact hne
  · by_cases hk : k = i
    · subst hk
      have hupdate : update h.headers k (-1) k = -1 := update_self ..
      exact fun heq => hhash (heq.symm.trans hupdate)
    · have hupdate : update h.headers i (-1) k = h.headers k := update_of_ne hk ..
      exact fun heq => hne (hupdate.symm.trans heq)

/-- A way that does not have the hash does not get it but by `updateHeaders`. -/
theorem header_ne_next {numSets : Nat} {m m' : Memory} {op : Op} {s : Nat} {hash : BitVec 32} {k : Fin ways} (hhash : hash ≠ -1)
    (hne : (setAt m s).headers k ≠ hash) (hop : ¬op.Enters numSets s k) (hnext : next numSets m op = .ok m') :
    (setAt m' s).headers k ≠ hash := by
  obtain ⟨i, hi, hall⟩ := next_cases hnext
  rw [hall s]
  split
  · next hs =>
      cases op with
      | updateHeaders hash' matchNum header remOffset remLen version =>
          have hki : k ≠ i := by
            rintro rfl
            exact hop ⟨hs, hi⟩
          have hupdate : update (setAt m s).headers i header k = (setAt m s).headers k := update_of_ne hki ..
          exact fun heq => hne (hupdate.symm.trans heq)
      | updateClocks hash' matchNum => exact hne
      | discardHeaders hash' matchNum => exact discard_header_ne hhash hne i
  · exact hne

theorem header_ne_foldlM {numSets : Nat} {m m' : Memory} {ops : List Op} {s : Nat} {hash : BitVec 32} {k : Fin ways} (hhash : hash ≠ -1)
    (hne : (setAt m s).headers k ≠ hash) (hops : ∀ op ∈ ops, ¬op.Enters numSets s k) (hfold : ops.foldlM (next numSets) m = .ok m') :
    (setAt m' s).headers k ≠ hash := by
  induction ops generalizing m with
  | nil =>
      cases hfold
      exact hne
  | cons op ops ih =>
      rw [List.foldlM_cons, Run.bind_eq_ok] at hfold
      obtain ⟨m₁, hnext, hrest⟩ := hfold
      have hne₁ := header_ne_next hhash hne (hops op List.mem_cons_self) hnext
      exact ih hne₁ (fun op' hop' => hops op' (List.mem_cons_of_mem _ hop')) hrest

theorem discarded_stays {numSets : Nat} {m : Memory} {hash : BitVec 32} {k : Fin ways} (hhash : hash ≠ -1)
    (h : (setAt m (getSetFromHash numSets hash)).clocks k ≠ 0 ∨ (setAt m (getSetFromHash numSets hash)).headers k ≠ hash) :
    StaysDiscarded numSets m hash k := by
  intro m₁ hdiscard ops m₂ hops hfold hfound
  have hne₁ : (setAt m₁ (getSetFromHash numSets hash)).headers k ≠ hash := by
    obtain ⟨m', hok, hset, -⟩ := discardHeaders_spec numSets m hash k
    rw [hdiscard] at hok
    cases hok
    rw [hset]
    by_cases hheader : (setAt m (getSetFromHash numSets hash)).headers k = hash
    · have hclock := h.resolve_right (not_not.mpr hheader)
      have hupdate : update (setAt m (getSetFromHash numSets hash)).headers k (-1) k = -1 := update_self ..
      rw [SetHeader.discard, if_neg hclock]
      exact fun heq => hhash (heq.symm.trans hupdate)
    · exact discard_header_ne hhash hheader k
  exact header_ne_foldlM hhash hne₁ hops hfold (getBestMatchByIndex_isBest hfound).1

/-- The search finds the way with the hash that was used last, if its clock is not 0. -/
theorem search_finds {m : Memory} {s : Nat} {hash : BitVec 32} {k : Fin ways} (hrank : Recency.Ranking ways (setAt m s).clocks)
    (hk : (setAt m s).headers k = hash ∧ 0 < (setAt m s).clocks k ∧
      ∀ j, (setAt m s).headers j = hash → (setAt m s).clocks j ≤ (setAt m s).clocks k) :
    getBestMatchByIndex m s hash = .ok (some k) := by
  obtain ⟨hheader, hpos, hlast⟩ := hk
  have hok : ∃ best, getBestMatchByIndex m s hash = .ok best := by
    rw [getBestMatchByIndex]
    exact ⟨_, if_neg (not_not.mpr (total_eq hrank))⟩
  obtain ⟨best, hok⟩ := hok
  have hbest := getBestMatchByIndex_isBest hok
  cases best with
  | none =>
      have hzero := hbest k hheader
      omega
  | some i =>
      have hle := hbest.2.2 k hheader
      have hge := hlast i hbest.1
      have hik : i = k := hrank.injective (by omega)
      rw [hok, hik]

/-- An entry that is discarded stays discarded if its way does not have the clock 0, or has another hash; and where the clocks of
the set are a permutation, in no other case. -/
theorem discarded_stays_iff (numSets : Nat) (m : Memory) {hash : BitVec 32} (hhash : hash ≠ -1) (k : Fin ways) :
    ((setAt m (getSetFromHash numSets hash)).clocks k ≠ 0 ∨ (setAt m (getSetFromHash numSets hash)).headers k ≠ hash →
      StaysDiscarded numSets m hash k) ∧
    ((List.ofFn (setAt m (getSetFromHash numSets hash)).clocks).Perm (List.range ways) → StaysDiscarded numSets m hash k →
      (setAt m (getSetFromHash numSets hash)).clocks k ≠ 0 ∨ (setAt m (getSetFromHash numSets hash)).headers k ≠ hash) := by
  refine ⟨discarded_stays hhash, fun hperm hstays => ?_⟩
  have hrank := Recency.Ranking.perm_iff.mp hperm
  by_contra hnot
  rw [not_or, not_not, not_not] at hnot
  obtain ⟨hclock, hheader⟩ := hnot
  obtain ⟨m₁, hdiscard, hset₁, -⟩ := discardHeaders_spec numSets m hash k
  rw [SetHeader.discard, if_pos hclock] at hset₁
  obtain ⟨m₂, htouch, hset₂, -⟩ := updateClocks_spec m₁ (getSetFromHash numSets hash) k
  rw [hset₁] at hset₂
  have hfold : [Op.updateClocks hash k].foldlM (next numSets) m₁ = .ok m₂ := by
    rw [List.foldlM_cons]
    show (updateClocks m₁ (getSetFromHash numSets hash) k >>= _) = _
    rw [htouch]
    rfl
  refine hstays m₁ hdiscard _ m₂ ?_ hfold ?_
  · intro op hop
    rw [List.mem_singleton.mp hop]
    exact id
  · have hrank₂ : Recency.Ranking ways (setAt m₂ (getSetFromHash numSets hash)).clocks := by
      rw [hset₂]
      exact hrank.touch k
    have htop : (setAt m₂ (getSetFromHash numSets hash)).clocks k = ways - 1 := by
      rw [hset₂, SetHeader.touch_clocks, Recency.touch_self]
    refine search_finds hrank₂ ⟨?_, ?_, ?_⟩
    · rw [hset₂]
      exact hheader
    · rw [htop]
      decide
    · intro j _
      have hlt := hrank₂.lt j
      omega

/-- An entry with the clock 5 is discarded and stays so. -/
theorem discarded_stays_sample : ∃ m, (indexSystem (numSetsOf 8) .CREATE ⟨0, fun _ => 0⟩ fun _ => 0).Runs fillWays m ∧
    StaysDiscarded (numSetsOf 8) m 10 ⟨5, by decide⟩ := by
  obtain ⟨m, hrun, hset⟩ := exists_run fillWays (by decide)
  refine ⟨m, hrun, (discarded_stays_iff (numSetsOf 8) m (by decide) _).1 (.inl ?_)⟩
  have hat : getSetFromHash (numSetsOf 8) 10 = 0 := by decide
  rw [hat, hset]
  decide

/-- The object that was not used for longest is discarded; when another one is, it is found again. -/
theorem discarded_returns :
    ¬∀ ops m, (indexSystem (numSetsOf 8) .CREATE ⟨0, fun _ => 0⟩ fun _ => 0).Runs ops m → ∀ hash, hash ≠ -1 →
      ∀ k, StaysDiscarded (numSetsOf 8) m hash k := by
  intro h
  obtain ⟨m, hrun, hset⟩ := exists_run fillWays (by decide)
  have hfits : ∀ op ∈ [Op.discardHeaders 5 0, Op.discardHeaders 12 7], op.Fits 1 := by decide
  obtain ⟨m₂, hfold, hall⟩ := foldlM_next _ hfits m
  have hset₂ := hall 0
  rw [hset] at hset₂
  rw [List.foldlM_cons, Run.bind_eq_ok] at hfold
  obtain ⟨m₁, hdiscard, hlater⟩ := hfold
  have hrank : Recency.Ranking ways (setAt m₂ 0).clocks := by
    rw [hset₂]
    exact Recency.Ranking.perm_iff.mp (by decide)
  refine h fillWays m hrun 5 (by decide) ⟨0, by decide⟩ m₁ hdiscard _ m₂ ?_ hlater ?_
  · intro op hop
    rw [List.mem_singleton.mp hop]
    exact id
  · apply search_finds hrank
    rw [hset₂]
    decide

end BeagleCache.Sets
