import BeagleCache.Reconstruct

/-! `CheckOneChunkTree` as a test. It takes references while it scans, stops where a name is missing or where a
count falls below zero, and gives back what it took, so its answer is about the table as it found it: the
length of the tree where every name is referenced as often as it occurs, and zero elsewhere. With that many
references the loop of `ReconstructOneChunkTree` finds all it looks for. -/

namespace BeagleCache

open Function Run

namespace TreeCheck

variable {cfg : Config} {sha1 : Bytes → Sha1Name} {tmp : TempCache} {name : Sha1Name} {value : CacheValue}

/-- A table whose entries are referenced and not empty. -/
structure Stored (tmp : TempCache) : Prop where
  referenced : ∀ n value, tmp n = some value → 0 < value.refCount
  nonempty : ∀ n value, tmp n = some value → 0 < value.pBlock.length


theorem stored_of_valid (hvalid : ValidCache tmp) : Stored tmp where
  referenced n value h := (hvalid n value h).1
  nonempty n value h := (hvalid n value h).2.1

/-- Every name is referenced as often as the list has it. -/
def Enough (tmp : TempCache) (names : List Sha1Name) : Prop := ∀ n, names.count n ≤ refs tmp n

/-- The length of what the table holds under a list of names. -/
def totalLength (tmp : TempCache) (names : List Sha1Name) : Nat :=
  (names.map fun n => ((blockOf tmp n).getD []).length).sum

/-- What the table holds under a list of names. -/
def blocks (tmp : TempCache) (names : List Sha1Name) : Bytes := names.flatMap fun n => (blockOf tmp n).getD []

/-- The table after a reference was dropped for every name of a list: an entry without references is gone. -/
def flushed (tmp : TempCache) (names : List Sha1Name) : TempCache := fun n =>
  (tmp n).bind fun value =>
    if value.refCount = names.count n then none
    else some { value with refCount := value.refCount - names.count n }

/-! ## The scan -/

/-- The table after the scan took a reference to `name`. -/
def taken (tmp : TempCache) (name : Sha1Name) : TempCache := shift tmp fun n => if n = name then -1 else 0

theorem takeRefs_cons (walk : ChunkNameInfo) (rest : List ChunkNameInfo) (bufLen numChecked : Nat) (tmp : TempCache) :
    (tmp walk.sha1name = none ∧ takeRefs (walk :: rest) bufLen numChecked tmp = (false, bufLen, numChecked, tmp)) ∨
    (∃ value, tmp walk.sha1name = some value ∧ value.refCount ≤ 0 ∧
      takeRefs (walk :: rest) bufLen numChecked tmp =
        (false, bufLen + value.pBlock.length, numChecked + 1, taken tmp walk.sha1name)) ∨
    (∃ value, tmp walk.sha1name = some value ∧ 0 < value.refCount ∧
      takeRefs (walk :: rest) bufLen numChecked tmp =
        takeRefs rest (bufLen + value.pBlock.length) (numChecked + 1) (taken tmp walk.sha1name)) := by
  cases hsome : tmp walk.sha1name with
  | none => exact .inl ⟨rfl, by rw [takeRefs, searchCache, hsome]⟩
  | some value =>
      have hupdate := update_eq_shift hsome (-1)
      rw [← Int.sub_eq_add_neg] at hupdate
      have hstep : takeRefs (walk :: rest) bufLen numChecked tmp =
          if value.refCount - 1 < 0 then
            (false, bufLen + value.pBlock.length, numChecked + 1, taken tmp walk.sha1name)
          else takeRefs rest (bufLen + value.pBlock.length) (numChecked + 1) (taken tmp walk.sha1name) := by
        rw [takeRefs, searchCache, hsome, taken, ← hupdate]
      by_cases hneg : value.refCount - 1 < 0
      · exact .inr (.inl ⟨value, rfl, by omega, by rw [hstep, if_pos hneg]⟩)
      · exact .inr (.inr ⟨value, rfl, by omega, by rw [hstep, if_neg hneg]⟩)

theorem taken_apply (tmp : TempCache) (name n : Sha1Name) :
    taken tmp name n = (tmp n).map fun value => { value with refCount := value.refCount + if n = name then -1 else 0 } := rfl

theorem taken_some {n : Sha1Name} (h : taken tmp name n = some value) :
    ∃ old, tmp n = some old ∧ value.refCount = old.refCount + (if n = name then -1 else 0) ∧ value.pBlock = old.pBlock := by
  rw [taken_apply, Option.map_eq_some_iff] at h
  obtain ⟨old, hold, rfl⟩ := h
  exact ⟨old, hold, rfl, rfl⟩

theorem blockOf_taken (tmp : TempCache) (name : Sha1Name) : blockOf (taken tmp name) = blockOf tmp := by
  funext n
  rw [blockOf, blockOf, taken_apply, Option.map_map]
  rfl

theorem refs_taken (hsome : tmp name = some value) (hpos : 0 < value.refCount) (n : Sha1Name) :
    refs (taken tmp name) n + (if n = name then 1 else 0) = refs tmp n := by
  by_cases hn : n = name
  · subst hn
    rw [refs, refs, taken_apply, hsome]
    simp only [Option.map_some, if_pos]
    omega
  · rw [refs, refs, taken_apply, if_neg hn, if_neg hn]
    cases tmp n with
    | none => rfl
    | some value => simp

/-- One name more is enough for a table where the name is there and the rest is enough without it. -/
theorem enough_cons (hsome : tmp name = some value) (hpos : 0 < value.refCount) (rest : List Sha1Name) :
    Enough tmp (name :: rest) ↔ Enough (taken tmp name) rest := by
  refine forall_congr' fun n => ?_
  have hrefs := refs_taken hsome hpos n
  rw [List.count_cons]
  by_cases hn : n = name
  · rw [if_pos hn] at hrefs
    rw [if_pos (by simp [hn])]
    omega
  · rw [if_neg hn] at hrefs
    rw [if_neg (by simpa using Ne.symm hn)]
    omega

theorem not_enough_of_refs (rest : List Sha1Name) (hzero : refs tmp name = 0) : ¬ Enough tmp (name :: rest) := by
  intro henough
  have hname := henough name
  rw [List.count_cons_self] at hname
  omega

/-- The counts of a table are at least `low`. -/
def AtLeast (low : Int) (tmp : TempCache) : Prop := ∀ n value, tmp n = some value → low ≤ value.refCount

theorem atLeast_taken_of_pos (hzero : AtLeast 0 tmp) (hsome : tmp name = some value) (hpos : 0 < value.refCount) :
    AtLeast 0 (taken tmp name) := by
  intro n v hv
  obtain ⟨old, hold, hcount, -⟩ := taken_some hv
  have := hzero n old hold
  by_cases hn : n = name
  · rw [hn, hsome] at hold
    cases hold
    rw [if_pos hn] at hcount
    omega
  · rw [if_neg hn] at hcount
    omega

theorem atLeast_taken (hzero : AtLeast 0 tmp) (name : Sha1Name) : AtLeast (-1) (taken tmp name) := by
  intro n v hv
  obtain ⟨old, hold, hcount, -⟩ := taken_some hv
  have := hzero n old hold
  split at hcount <;> omega

/-- The scan is complete where the table has enough references, and it then has the length of the tree. -/
theorem takeRefs_complete (names : List ChunkNameInfo) (bufLen numChecked : Nat) (hzero : AtLeast 0 tmp) :
    ((takeRefs names bufLen numChecked tmp).1 = true ↔ Enough tmp (names.map ChunkNameInfo.sha1name)) ∧
    ((takeRefs names bufLen numChecked tmp).1 = true →
      (takeRefs names bufLen numChecked tmp).2.1 = bufLen + totalLength tmp (names.map ChunkNameInfo.sha1name)) := by
  induction names generalizing bufLen numChecked tmp with
  | nil => exact ⟨⟨fun _ n => Nat.zero_le _, fun _ => rfl⟩, fun _ => rfl⟩
  | cons walk rest ih =>
      rw [List.map_cons]
      obtain ⟨hnone, hrun⟩ | ⟨value, hsome, hneg, hrun⟩ | ⟨value, hsome, hpos, hrun⟩ :=
        takeRefs_cons walk rest bufLen numChecked tmp
      · have hnot := not_enough_of_refs (rest.map ChunkNameInfo.sha1name) (refs_of_none hnone)
        rw [hrun]
        exact ⟨⟨fun h => (Bool.false_ne_true h).elim, fun h => (hnot h).elim⟩, fun h => (Bool.false_ne_true h).elim⟩
      · have hrefs : refs tmp walk.sha1name = 0 := by
          rw [refs_of_some hsome]
          omega
        have hnot := not_enough_of_refs (rest.map ChunkNameInfo.sha1name) hrefs
        rw [hrun]
        exact ⟨⟨fun h => (Bool.false_ne_true h).elim, fun h => (hnot h).elim⟩, fun h => (Bool.false_ne_true h).elim⟩
      · obtain ⟨hiff, hlen⟩ := ih (bufLen + value.pBlock.length) (numChecked + 1) (atLeast_taken_of_pos hzero hsome hpos)
        rw [hrun, enough_cons hsome hpos]
        refine ⟨hiff, ?_⟩
        intro hcomplete
        have hblock : blockOf tmp walk.sha1name = some value.pBlock := by rw [blockOf, hsome, Option.map_some]
        calc (takeRefs rest (bufLen + value.pBlock.length) (numChecked + 1) (taken tmp walk.sha1name)).2.1
            = bufLen + value.pBlock.length + totalLength tmp (rest.map ChunkNameInfo.sha1name) := by
              rw [hlen hcomplete, totalLength, totalLength, blockOf_taken]
          _ = bufLen + totalLength tmp (walk.sha1name :: rest.map ChunkNameInfo.sha1name) := by
              rw [totalLength, totalLength, List.map_cons, List.sum_cons, hblock, Option.getD_some, Nat.add_assoc]

/-- The scan brings no count below minus one, and the names it counted are in the table. -/
theorem takeRefs_low (names : List ChunkNameInfo) (bufLen numChecked : Nat) (hzero : AtLeast 0 tmp) :
    AtLeast (-1) (takeRefs names bufLen numChecked tmp).2.2.2 ∧
    ∃ j, j ≤ names.length ∧ (takeRefs names bufLen numChecked tmp).2.2.1 = numChecked + j ∧
      ∀ walk ∈ names.take j, (tmp walk.sha1name).isSome := by
  have hlow : AtLeast (-1) tmp := fun n value h => le_trans (by decide) (hzero n value h)
  induction names generalizing bufLen numChecked tmp with
  | nil => exact ⟨hlow, 0, le_refl 0, rfl, by simp⟩
  | cons walk rest ih =>
      obtain ⟨-, hrun⟩ | ⟨value, hsome, -, hrun⟩ | ⟨value, hsome, hpos, hrun⟩ :=
        takeRefs_cons walk rest bufLen numChecked tmp
      · rw [hrun]
        exact ⟨hlow, 0, Nat.zero_le _, rfl, by simp⟩
      · rw [hrun]
        exact ⟨atLeast_taken hzero _, 1, by simp, rfl, by simp [hsome]⟩
      · have hzero' := atLeast_taken_of_pos hzero hsome hpos
        obtain ⟨hlow', j, hj, hnum, hthere⟩ := ih (bufLen + value.pBlock.length) (numChecked + 1) hzero'
          (fun n value h => le_trans (by decide) (hzero' n value h))
        rw [hrun]
        refine ⟨hlow', j + 1, by simpa using hj, by rw [hnum]; omega, ?_⟩
        intro other hother
        rw [List.take_succ_cons, List.mem_cons] at hother
        obtain rfl | hother := hother
        · simp [hsome]
        · simpa [taken_apply] using hthere other hother

/-- References are given back without a failed assertion where the names are there and no count is below minus one. -/
theorem giveRefs_runs {names : List ChunkNameInfo} {j : Nat} (hj : j ≤ names.length) (hlow : AtLeast (-1) tmp)
    (hthere : ∀ walk ∈ names.take j, (tmp walk.sha1name).isSome) : ∃ tmp', giveRefs names j tmp = .ok tmp' := by
  induction names generalizing j tmp with
  | nil =>
      obtain rfl : j = 0 := by simpa using hj
      exact ⟨tmp, by rw [giveRefs, check_of rfl]; rfl⟩
  | cons walk rest ih =>
      cases j with
      | zero => exact ⟨tmp, rfl⟩
      | succ j =>
          rw [List.take_succ_cons] at hthere
          obtain ⟨value, hsome⟩ := Option.isSome_iff_exists.mp (hthere walk List.mem_cons_self)
          have hcount := hlow _ value hsome
          rw [giveRefs, searchCache, hsome]
          simp only
          rw [check_of (by omega), ok_bind]
          apply ih (by simpa using hj)
          · intro n v hv
            by_cases hn : n = walk.sha1name
            · rw [hn, update_self] at hv
              cases hv
              simp only
              omega
            · rw [update_of_ne hn] at hv
              exact hlow n v hv
          · intro other hother
            by_cases hn : other.sha1name = walk.sha1name
            · rw [hn, update_self]
              rfl
            · rw [update_of_ne hn]
              exact hthere other (List.mem_cons_of_mem _ hother)

theorem atLeast_of_stored (hstored : Stored tmp) : AtLeast 0 tmp := fun n value h => (hstored.referenced n value h).le

/-- `CheckOneChunkTree` gives an answer, which is the length of the tree or zero, and changes nothing. -/
theorem checkOneChunkTree_eq (hstored : Stored tmp) (ri : ReassembleInfo) [Decidable (Enough tmp ri.names)] :
    checkOneChunkTree ri tmp = .ok (if Enough tmp ri.names then totalLength tmp ri.names else 0, tmp) := by
  have hzero := atLeast_of_stored hstored
  obtain ⟨hiff, hlen⟩ := takeRefs_complete ri.nameList 0 0 hzero
  obtain ⟨hlow, j, hj, hnum, hthere⟩ := takeRefs_low ri.nameList 0 0 hzero
  obtain ⟨i, hi, hnum', htmp⟩ := takeRefs_eq ri.nameList 0 0 tmp
  obtain rfl : i = j := by omega
  have hthere' : ∀ walk ∈ ri.nameList.take i, ((takeRefs ri.nameList 0 0 tmp).2.2.2 walk.sha1name).isSome := by
    intro walk hwalk
    rw [htmp, shift, Option.isSome_map]
    exact hthere walk hwalk
  obtain ⟨tmp', hgive⟩ := giveRefs_runs hi hlow hthere'
  have hgive0 : giveRefs ri.nameList (takeRefs ri.nameList 0 0 tmp).2.2.1 (takeRefs ri.nameList 0 0 tmp).2.2.2 = .ok tmp' := by
    rw [hnum, Nat.zero_add, hgive]
  have hrun : checkOneChunkTree ri tmp =
      .ok (if (takeRefs ri.nameList 0 0 tmp).1 then (takeRefs ri.nameList 0 0 tmp).2.1 else 0, tmp') := by
    simp only [checkOneChunkTree, hgive0, ok_bind]
    rfl
  have hsame : tmp' = tmp := checkOneChunkTree_tmp hrun
  rw [hrun, hsame]
  by_cases henough : Enough tmp ri.names
  · have hcomplete := hiff.mpr henough
    rw [if_pos hcomplete, if_pos henough, hlen hcomplete, Nat.zero_add]
    rfl
  · rw [if_neg henough, if_neg fun hcomplete => henough (hiff.mp hcomplete)]

/-! ## The flush loop -/

theorem flushed_nil (hstored : Stored tmp) : flushed tmp [] = tmp := by
  funext n
  cases hn : tmp n with
  | none => rw [flushed, hn, Option.bind_none]
  | some value =>
      have := hstored.referenced n value hn
      rw [flushed, hn, Option.bind_some, List.count_nil, if_neg (by omega)]
      simp

/-- Flushing after a flush is flushing both lists, where there are references for both. -/
theorem flushed_flushed {first second : List Sha1Name} (hstored : Stored tmp) (henough : Enough tmp (first ++ second)) :
    flushed (flushed tmp first) second = flushed tmp (first ++ second) := by
  funext n
  cases hn : tmp n with
  | none => simp [flushed, hn]
  | some value =>
      have hcount := henough n
      rw [refs_of_some hn, List.count_append] at hcount
      have hpos := hstored.referenced n value hn
      have hfirst : flushed tmp first n = if value.refCount = first.count n then none
          else some { value with refCount := value.refCount - first.count n } := by
        rw [flushed, hn, Option.bind_some]
      have hboth : flushed tmp (first ++ second) n = if value.refCount = first.count n + second.count n then none
          else some { value with refCount := value.refCount - (first.count n + second.count n) } := by
        rw [flushed, hn, Option.bind_some, List.count_append, Nat.cast_add]
      rw [flushed, hfirst, hboth]
      by_cases hgone : value.refCount = first.count n
      · -- nothing is left for the second list, which therefore does not have the name
        have hzero : second.count n = 0 := by omega
        rw [if_pos hgone, if_pos (by omega), Option.bind_none]
      · rw [if_neg hgone, Option.bind_some]
        simp only
        by_cases hgone' : value.refCount - first.count n = second.count n
        · rw [if_pos hgone', if_pos (by omega)]
        · rw [if_neg hgone', if_neg (by omega)]
          congr 2
          omega

theorem refs_flushed {first second : List Sha1Name} (henough : Enough tmp (first ++ second)) (n : Sha1Name) :
    refs (flushed tmp first) n + first.count n = refs tmp n := by
  have hcount := henough n
  rw [List.count_append] at hcount
  cases hn : tmp n with
  | none =>
      have hnone : flushed tmp first n = none := by rw [flushed, hn, Option.bind_none]
      rw [refs_of_none hn] at hcount ⊢
      rw [refs_of_none hnone]
      omega
  | some value =>
      rw [refs_of_some hn] at hcount ⊢
      by_cases hgone : value.refCount = first.count n
      · rw [refs, flushed, hn, Option.bind_some, if_pos hgone]
        simp only
        omega
      · rw [refs, flushed, hn, Option.bind_some, if_neg hgone]
        simp only
        omega

theorem enough_flushed {first second : List Sha1Name} (henough : Enough tmp (first ++ second)) :
    Enough (flushed tmp first) second := by
  intro n
  have hcount := henough n
  have hrefs := refs_flushed henough n
  rw [List.count_append] at hcount
  omega

theorem flushed_some {names : List Sha1Name} {n : Sha1Name} (h : flushed tmp names n = some value) :
    ∃ old, tmp n = some old ∧ old.refCount ≠ names.count n ∧ value = { old with refCount := old.refCount - names.count n } := by
  rw [flushed, Option.bind_eq_some_iff] at h
  obtain ⟨old, hold, hvalue⟩ := h
  split at hvalue
  · cases hvalue
  case isFalse hleft =>
    cases hvalue
    exact ⟨old, hold, hleft, rfl⟩

theorem stored_flushed {first second : List Sha1Name} (hstored : Stored tmp) (henough : Enough tmp (first ++ second)) :
    Stored (flushed tmp first) := by
  constructor
  · intro n value hvalue
    obtain ⟨old, hold, hleft, rfl⟩ := flushed_some hvalue
    have hcount := henough n
    have := hstored.referenced n old hold
    rw [refs_of_some hold, List.count_append] at hcount
    simp only
    omega
  · intro n value hvalue
    obtain ⟨old, hold, -, rfl⟩ := flushed_some hvalue
    exact hstored.nonempty n old hold

theorem refFlushChunk_eq (hstored : Stored tmp) (hsome : tmp name = some value) :
    refFlushChunk tmp name = .ok (flushed tmp [name]) := by
  have hpos := hstored.referenced name value hsome
  have hother : ∀ n, n ≠ name → flushed tmp [name] n = tmp n := by
    intro n hn
    have hcount : [name].count n = 0 := List.count_eq_zero_of_not_mem (by simpa using hn)
    have hnil := congrFun (flushed_nil hstored) n
    rw [flushed, List.count_nil] at hnil
    rw [flushed, hcount]
    exact hnil
  unfold refFlushChunk searchCache
  rw [hsome]
  simp only
  rw [check_of (hstored.nonempty name value hsome), ok_bind, check_of (by omega), ok_bind]
  by_cases hlast : value.refCount - 1 = 0
  · rw [if_pos hlast]
    refine congrArg Except.ok ?_
    funext n
    by_cases hn : n = name
    · rw [hn, update_self, flushed, hsome, Option.bind_some, List.count_singleton_self, if_pos (by omega)]
    · rw [update_of_ne hn, hother n hn]
  · rw [if_neg hlast]
    refine congrArg Except.ok ?_
    funext n
    by_cases hn : n = name
    · rw [hn, update_self, flushed, hsome, Option.bind_some, List.count_singleton_self, if_neg (by omega)]
      rfl
    · rw [update_of_ne hn, hother n hn]

theorem found_of_enough {rest : List Sha1Name} (henough : Enough tmp (name :: rest)) : ∃ value, tmp name = some value := by
  cases hname : tmp name with
  | none => exact (not_enough_of_refs _ (refs_of_none hname) henough).elim
  | some value => exact ⟨value, rfl⟩

/-- The assertions of the loop that are about the chunk and not about the table. -/
def Agrees (cfg : Config) (sha1 : Bytes → Sha1Name) (tmp : TempCache) (walk : ChunkNameInfo) : Prop :=
  ∀ value, tmp walk.sha1name = some value →
    value.pBlock.length = walk.length ∧ verifySHA1 cfg sha1 value.pBlock walk.sha1name = true

/-- The flush loop of `ReconstructOneChunkTree`. Wherever it comes to a name, the table is the one from which
the names before were flushed, the name is found and `RefFlushChunk` drops its reference; and the loop comes to the
end where the chunks agree with their names. -/
structure FlushLoop (cfg : Config) (sha1 : Bytes → Sha1Name) (names : List ChunkNameInfo) (tmp : TempCache) : Prop where
  reached : ∀ front rest r, names = front ++ rest → copyChunks cfg sha1 front tmp = .ok r →
    r.2 = flushed tmp (front.map ChunkNameInfo.sha1name)
  found : ∀ front walk rest, names = front ++ walk :: rest →
    ∃ value, searchCache (flushed tmp (front.map ChunkNameInfo.sha1name)) walk.sha1name = some value ∧
      blockOf tmp walk.sha1name = some value.pBlock ∧
      refFlushChunk (flushed tmp (front.map ChunkNameInfo.sha1name)) walk.sha1name =
        .ok (flushed tmp ((front ++ [walk]).map ChunkNameInfo.sha1name))
  finished : (∀ walk ∈ names, Agrees cfg sha1 tmp walk) → copyChunks cfg sha1 names tmp =
    .ok (blocks tmp (names.map ChunkNameInfo.sha1name), flushed tmp (names.map ChunkNameInfo.sha1name))

theorem blockOf_of_some (hsome : tmp name = some value) : blockOf tmp name = some value.pBlock := by
  rw [blockOf, hsome, Option.map_some]

/-- What the loop does where there are enough references: it ends with all of them dropped or fails at a chunk that
does not agree with its name. -/
theorem copyChunks_cases {names : List ChunkNameInfo} (hstored : Stored tmp)
    (henough : Enough tmp (names.map ChunkNameInfo.sha1name)) :
    (∀ r, copyChunks cfg sha1 names tmp = .ok r → r.2 = flushed tmp (names.map ChunkNameInfo.sha1name)) ∧
    ((∀ walk ∈ names, Agrees cfg sha1 tmp walk) → copyChunks cfg sha1 names tmp =
      .ok (blocks tmp (names.map ChunkNameInfo.sha1name), flushed tmp (names.map ChunkNameInfo.sha1name))) := by
  induction names generalizing tmp with
  | nil =>
      have hrun : copyChunks cfg sha1 [] tmp = .ok ([], flushed tmp []) := by rw [copyChunks, flushed_nil hstored]
      refine ⟨?_, fun _ => hrun⟩
      intro r hr
      rw [hrun] at hr
      cases hr
      rfl
  | cons walk rest ih =>
      rw [List.map_cons] at henough ⊢
      obtain ⟨value, hsome⟩ := found_of_enough henough
      have hflush := refFlushChunk_eq hstored hsome
      have hone : Enough tmp ([walk.sha1name] ++ rest.map ChunkNameInfo.sha1name) := henough
      have hboth := flushed_flushed hstored hone
      have hstored' := stored_flushed hstored hone
      have henough' := enough_flushed hone
      obtain ⟨hends, hruns⟩ := ih hstored' henough'
      rw [copyChunks, searchCache, hsome]
      refine ⟨?_, ?_⟩
      · intro r hr
        obtain ⟨_, -, hr⟩ := bind_eq_ok.mp hr
        obtain ⟨_, -, hr⟩ := bind_eq_ok.mp hr
        rw [hflush, ok_bind] at hr
        obtain ⟨last, hlast, hr⟩ := bind_eq_ok.mp hr
        cases hr
        rw [hends last hlast, hboth]
        rfl
      · intro hagree
        obtain ⟨hlength, hdigest⟩ := hagree walk List.mem_cons_self value hsome
        have hrest : ∀ other ∈ rest, Agrees cfg sha1 (flushed tmp [walk.sha1name]) other := by
          intro other hother v hv
          obtain ⟨old, hold, -, rfl⟩ := flushed_some hv
          exact hagree other (List.mem_cons_of_mem _ hother) old hold
        simp only
        rw [check_of hlength, ok_bind, check_of hdigest, ok_bind, hflush, ok_bind, hruns hrest, ok_bind,
          hboth]
        have hblocks : blocks (flushed tmp [walk.sha1name]) (rest.map ChunkNameInfo.sha1name) =
            blocks tmp (rest.map ChunkNameInfo.sha1name) := by
          unfold blocks
          refine List.flatMap_congr ?_
          intro n hn
          have hcount : 0 < (rest.map ChunkNameInfo.sha1name).count n := List.count_pos_iff.mpr hn
          have hrefs := henough' n
          cases hleft : flushed tmp [walk.sha1name] n with
          | none =>
              rw [refs_of_none hleft] at hrefs
              omega
          | some v =>
              obtain ⟨old, hold, -, rfl⟩ := flushed_some hleft
              rw [blockOf_of_some hleft, blockOf_of_some hold]
        rw [hblocks]
        simp only [blocks, List.flatMap_cons, blockOf_of_some hsome, Option.getD_some, List.cons_append, List.nil_append]
        rfl

theorem flushLoop_of_enough {names : List ChunkNameInfo} (hstored : Stored tmp)
    (henough : Enough tmp (names.map ChunkNameInfo.sha1name)) : FlushLoop cfg sha1 names tmp where
  reached front rest r hsplit hr := by
    rw [hsplit, List.map_append] at henough
    have hfront : Enough tmp (front.map ChunkNameInfo.sha1name) := by
      intro n
      have := henough n
      rw [List.count_append] at this
      omega
    exact (copyChunks_cases hstored hfront).1 r hr
  found front walk rest hsplit := by
    rw [hsplit, List.map_append, List.map_cons] at henough
    have henough' := enough_flushed henough
    have hstored' := stored_flushed hstored henough
    obtain ⟨value, hsome⟩ := found_of_enough henough'
    obtain ⟨old, hold, -, hvalue⟩ := flushed_some hsome
    have hone : Enough tmp (front.map ChunkNameInfo.sha1name ++ [walk.sha1name]) := by
      intro n
      have := henough n
      simp only [List.count_append, List.count_cons, List.count_nil] at this ⊢
      omega
    refine ⟨value, hsome, ?_, ?_⟩
    · rw [blockOf_of_some hold, hvalue]
    · rw [refFlushChunk_eq hstored' hsome, flushed_flushed hstored hone, List.map_append]
      rfl
  finished hagree := (copyChunks_cases hstored henough).2 hagree

theorem totalLength_pos {names : List Sha1Name} (hstored : Stored tmp) (henough : Enough tmp names) (hnames : names ≠ []) :
    0 < totalLength tmp names := by
  cases names with
  | nil => exact (hnames rfl).elim
  | cons n rest =>
      obtain ⟨value, hsome⟩ := found_of_enough henough
      have := hstored.nonempty n value hsome
      rw [totalLength, List.map_cons, List.sum_cons, blockOf_of_some hsome, Option.getD_some]
      omega

/-- `CheckOneChunkTree` leaves the table as it is and answers whether every name is referenced as often as the entry
has it, with the length of the tree; after such an answer the flush loop goes through and drops a reference for every
name. -/
theorem checkOneChunkTree_pure (cfg : Config) (sha1 : Bytes → Sha1Name) (hstored : Stored tmp) (ri : ReassembleInfo)
    (hnames : ri.nameList ≠ []) :
    ∃ len, checkOneChunkTree ri tmp = .ok (len, tmp) ∧
      (0 < len ↔ ∀ n, ri.names.count n ≤ refs tmp n) ∧
      (0 < len → len = totalLength tmp ri.names ∧ FlushLoop cfg sha1 ri.nameList tmp) := by
  classical
  have hne : ri.names ≠ [] := by simpa [ReassembleInfo.names] using hnames
  refine ⟨_, checkOneChunkTree_eq hstored ri, ?_⟩
  by_cases henough : Enough tmp ri.names
  · rw [if_pos henough]
    exact ⟨⟨fun _ => henough, fun _ => totalLength_pos hstored henough hne⟩,
      fun _ => ⟨rfl, flushLoop_of_enough hstored henough⟩⟩
  · rw [if_neg henough]
    exact ⟨⟨fun hzero => (Nat.lt_irrefl 0 hzero).elim, fun h => (henough h).elim⟩, fun hzero => (Nat.lt_irrefl 0 hzero).elim⟩

/-- An entry that has one name twice. -/
def twiceEntry : ReassembleInfo :=
  { createNewReassembleInfo 0 with getSent := true, nameList := [⟨default, 3, true, true, 0⟩, ⟨default, 3, true, true, 0⟩] }

/-- A table that holds that name with three references. -/
def threeTimes : TempCache := update emptyTempCache default (some ⟨[1, 2, 3], 3⟩)

theorem threeTimes_stored : Stored threeTimes := by
  refine stored_of_valid (validCache_update validCache_empty ?_)
  rintro v ⟨⟩
  exact ⟨by decide, by decide, by decide⟩

theorem checkOneChunkTree_pure_twice : ∃ len, checkOneChunkTree twiceEntry threeTimes = .ok (len, threeTimes) ∧
    (0 < len ↔ ∀ n, twiceEntry.names.count n ≤ refs threeTimes n) ∧
    (0 < len → len = totalLength threeTimes twiceEntry.names ∧
      FlushLoop {} (fun _ => default) twiceEntry.nameList threeTimes) :=
  checkOneChunkTree_pure {} (fun _ => default) threeTimes_stored twiceEntry (by simp [twiceEntry])

/-- Three references are enough for the name twice, and one is left. -/
example : (checkOneChunkTree twiceEntry threeTimes).toOption.map Prod.fst = some 6 ∧
    flushed threeTimes twiceEntry.names default = some ⟨[1, 2, 3], 1⟩ := by decide

end TreeCheck

end BeagleCache
