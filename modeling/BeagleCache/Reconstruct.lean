import BeagleCache.Reassemble
import BeagleCache.TempCache

/-! What a reconstruction does to the temporary cache. `CheckOneChunkTree` takes a reference for every name to see
whether there are enough and gives all of them back, so it changes nothing; the copy then drops one for every name. -/

namespace BeagleCache

open Run

/-- The names of an entry. -/
def ReassembleInfo.names (ri : ReassembleInfo) : List Sha1Name := ri.nameList.map ChunkNameInfo.sha1name

/-- The table with `f` added to the counts. -/
def shift (tmp : TempCache) (f : Sha1Name → Int) : TempCache :=
  fun n => (tmp n).map fun value => { value with refCount := value.refCount + f n }

theorem shift_shift (tmp : TempCache) (f g : Sha1Name → Int) : shift (shift tmp f) g = shift tmp fun n => f n + g n := by
  funext n
  cases h : tmp n with
  | none => simp [shift, h]
  | some value => simp [shift, h, add_assoc]

theorem shift_zero (tmp : TempCache) {f : Sha1Name → Int} (hf : ∀ n, f n = 0) : shift tmp f = tmp := by
  funext n
  cases h : tmp n with
  | none => simp [shift, h]
  | some value => simp [shift, h, hf]

theorem update_eq_shift {tmp : TempCache} {name : Sha1Name} {value : CacheValue} (h : tmp name = some value) (d : Int) :
    Function.update tmp name (some { value with refCount := value.refCount + d }) =
      shift tmp fun n => if n = name then d else 0 := by
  funext n
  by_cases hn : n = name
  · subst hn
    simp [shift, h]
  · rw [Function.update_of_ne hn]
    cases ht : tmp n with
    | none => simp [shift, ht]
    | some old => simp [shift, ht, hn]

/-- The first `j` names of a list, counted. -/
def takenOf (names : List ChunkNameInfo) (j : Nat) (n : Sha1Name) : Int :=
  (((names.take j).map ChunkNameInfo.sha1name).count n : Int)

theorem takenOf_cons (walk : ChunkNameInfo) (rest : List ChunkNameInfo) (j : Nat) (n : Sha1Name) :
    takenOf (walk :: rest) (j + 1) n = (if n = walk.sha1name then 1 else 0) + takenOf rest j n := by
  unfold takenOf
  rw [List.take_succ_cons, List.map_cons, List.count_cons]
  by_cases hn : n = walk.sha1name
  · simp [hn, add_comm]
  · simp [hn, Ne.symm hn]

/-- The first loop takes references for as many names as it counts. -/
theorem takeRefs_eq (names : List ChunkNameInfo) (bufLen numChecked : Nat) (tmp : TempCache) :
    ∃ j, j ≤ names.length ∧ (takeRefs names bufLen numChecked tmp).2.2.1 = numChecked + j ∧
      (takeRefs names bufLen numChecked tmp).2.2.2 = shift tmp (fun n => - takenOf names j n) := by
  induction names generalizing bufLen numChecked tmp with
  | nil => exact ⟨0, le_refl 0, rfl, (shift_zero tmp fun _ => rfl).symm⟩
  | cons walk rest ih =>
      rw [takeRefs]
      cases hsearch : searchCache tmp walk.sha1name with
      | none => exact ⟨0, Nat.zero_le _, rfl, (shift_zero tmp fun _ => rfl).symm⟩
      | some value =>
          have hsome : tmp walk.sha1name = some value := hsearch
          have hupdate := update_eq_shift hsome (-1)
          have hcons : ∀ j n, - takenOf (walk :: rest) (j + 1) n =
              (if n = walk.sha1name then -1 else 0) + - takenOf rest j n := by
            intro j n
            rw [takenOf_cons]
            split <;> omega
          simp only
          split
          · refine ⟨1, by simp, rfl, ?_⟩
            rw [← Int.sub_eq_add_neg] at hupdate
            simp only [hupdate]
            congr 1
            funext n
            rw [hcons 0 n]
            simp [takenOf]
          · obtain ⟨j, hj, hnum, htmp⟩ := ih (bufLen + value.pBlock.length) (numChecked + 1)
              (Function.update tmp walk.sha1name (some { value with refCount := value.refCount - 1 }))
            refine ⟨j + 1, by simpa using hj, by rw [hnum]; omega, ?_⟩
            rw [← Int.sub_eq_add_neg] at hupdate
            rw [htmp, hupdate, shift_shift]
            congr 1
            funext n
            rw [hcons j n]

theorem giveRefs_ok {names : List ChunkNameInfo} {j : Nat} {tmp tmp' : TempCache} (h : giveRefs names j tmp = .ok tmp') :
    tmp' = shift tmp (takenOf names j) := by
  induction names generalizing j tmp with
  | nil =>
      rw [giveRefs] at h
      obtain ⟨_, -, hret⟩ := bind_eq_ok.mp h
      cases hret
      exact (shift_zero _ fun n => by simp [takenOf]).symm
  | cons walk rest ih =>
      cases j with
      | zero =>
          cases h
          exact (shift_zero _ fun n => by simp [takenOf]).symm
      | succ j =>
          rw [giveRefs] at h
          cases hsearch : searchCache tmp walk.sha1name with
          | none =>
              rw [hsearch] at h
              cases h
          | some value =>
              rw [hsearch] at h
              obtain ⟨_, -, h⟩ := bind_eq_ok.mp h
              have hsome : tmp walk.sha1name = some value := hsearch
              rw [ih h, update_eq_shift hsome 1, shift_shift]
              congr 1
              funext n
              rw [takenOf_cons]

/-- `CheckOneChunkTree` leaves the table as it was. -/
theorem checkOneChunkTree_tmp {ri : ReassembleInfo} {tmp : TempCache} {r : Nat × TempCache}
    (h : checkOneChunkTree ri tmp = .ok r) : r.2 = tmp := by
  unfold checkOneChunkTree at h
  obtain ⟨tmp', hgive, hret⟩ := bind_eq_ok.mp h
  cases hret
  obtain ⟨j, -, hnum, htmp⟩ := takeRefs_eq ri.nameList 0 0 tmp
  rw [hnum, Nat.zero_add, htmp] at hgive
  rw [giveRefs_ok hgive, shift_shift]
  exact shift_zero tmp fun n => by omega

/-- A schedule changes the marks of entries and leaves their names alone. -/
theorem populateEntries_names {entries entries' : List ReassembleInfo} (h : populateEntries entries = .ok entries') :
    entries'.map ReassembleInfo.nameList = entries.map ReassembleInfo.nameList := by
  induction entries generalizing entries' with
  | nil =>
      cases h
      rfl
  | cons ri rest ih =>
      rw [populateEntries] at h
      split at h
      · obtain ⟨_, -, h⟩ := bind_eq_ok.mp h
        obtain ⟨_, -, h⟩ := bind_eq_ok.mp h
        obtain ⟨rest', hrest, hret⟩ := bind_eq_ok.mp h
        cases hret
        rw [List.map_cons, List.map_cons, ih hrest]
      · obtain ⟨rest', hrest, hret⟩ := bind_eq_ok.mp h
        cases hret
        rw [List.map_cons, List.map_cons, ih hrest]

theorem populateILSQueue_ok {ci ci' : UserConnection} (h : populateILSQueue ci = .ok ci') :
    ∃ entries, entries.map ReassembleInfo.nameList = ci.reassembleList.map ReassembleInfo.nameList ∧
      ci' = { ci with reassembleList := entries } := by
  unfold populateILSQueue at h
  split at h
  · cases h
    exact ⟨ci.reassembleList, rfl, rfl⟩
  · obtain ⟨entries, hentries, hret⟩ := bind_eq_ok.mp h
    cases hret
    exact ⟨entries, populateEntries_names hentries, rfl⟩

section Copy

variable {cfg : Config} {sha1 : Bytes → Sha1Name} {tmp tmp' : TempCache}

theorem refFlush_refs {name : Sha1Name} (hvalid : ValidCache tmp) (h : refFlushChunk tmp name = .ok tmp') :
    ValidCache tmp' ∧ DropRef tmp tmp' name := by
  by_cases hpos : 0 < refs tmp name
  · obtain ⟨tmp₁, hrun, hvalid₁, hdrop⟩ := refFlush_ok hvalid hpos
    rw [h] at hrun
    cases hrun
    exact ⟨hvalid₁, hdrop⟩
  · rw [refFlush_none hvalid (by omega)] at h
    cases h

theorem copyChunks_refs {names : List ChunkNameInfo} {block : Bytes} (hvalid : ValidCache tmp)
    (h : copyChunks cfg sha1 names tmp = .ok (block, tmp')) :
    ValidCache tmp' ∧ ∀ n, refs tmp' n + (names.map ChunkNameInfo.sha1name).count n = refs tmp n := by
  induction names generalizing tmp block with
  | nil =>
      cases h
      exact ⟨hvalid, fun n => rfl⟩
  | cons walk rest ih =>
      rw [copyChunks] at h
      cases hsearch : searchCache tmp walk.sha1name with
      | none =>
          rw [hsearch] at h
          cases h
      | some value =>
          rw [hsearch] at h
          obtain ⟨_, -, h⟩ := bind_eq_ok.mp h
          obtain ⟨_, -, h⟩ := bind_eq_ok.mp h
          obtain ⟨tmp₁, hflush, h⟩ := bind_eq_ok.mp h
          obtain ⟨r, hrest, hret⟩ := bind_eq_ok.mp h
          cases hret
          obtain ⟨hvalid₁, hdrop⟩ := refFlush_refs hvalid hflush
          obtain ⟨hvalid', hrefs⟩ := ih hvalid₁ hrest
          refine ⟨hvalid', ?_⟩
          intro n
          have h1 := hrefs n
          have h2 := hdrop.refs_eq n
          rw [List.map_cons, List.count_cons]
          by_cases hn : n = walk.sha1name
          · rw [if_pos hn] at h2
            rw [if_pos (by simp [hn])]
            omega
          · rw [if_neg hn] at h2
            rw [if_neg (by simpa using Ne.symm hn)]
            omega

/-- What a reconstructed entry was and did. -/
theorem reconstructOneChunkTree_cases {ri : ReassembleInfo} {r : Option Bytes × TempCache}
    (h : reconstructOneChunkTree cfg sha1 ri tmp = .ok r) :
    (r.1 = none ∧ r.2 = tmp) ∨ (ri.getSent = true ∧ ri.nameList ≠ [] ∧
      ∃ block, r.1 = some block ∧ copyChunks cfg sha1 ri.nameList tmp = .ok (block, r.2)) := by
  unfold reconstructOneChunkTree at h
  split at h
  · cases h
    exact .inl ⟨rfl, rfl⟩
  case isFalse hsent =>
    split at h
    · cases h
      exact .inl ⟨rfl, rfl⟩
    case isFalse hnames =>
      obtain ⟨checked, hcheck, h⟩ := bind_eq_ok.mp h
      have htmp := checkOneChunkTree_tmp hcheck
      split at h
      · cases h
        exact .inl ⟨rfl, htmp⟩
      · obtain ⟨_, -, h⟩ := bind_eq_ok.mp h
        obtain ⟨copied, hcopy, h⟩ := bind_eq_ok.mp h
        obtain ⟨_, -, hret⟩ := bind_eq_ok.mp h
        cases hret
        rw [htmp] at hcopy
        exact .inr ⟨by simpa using hsent, hnames, copied.1, rfl, hcopy⟩

/-- `ReconstructOriginalData` takes entries from the front, drops a reference for every name of these, and leaves the
rest alone. -/
theorem reconstructEntries_refs {entries : List ReassembleInfo} {r : Bytes × List ReassembleInfo × TempCache}
    (hvalid : ValidCache tmp) (h : reconstructEntries cfg sha1 entries tmp = .ok r) :
    ∃ front, entries = front ++ r.2.1 ∧ (∀ ri ∈ front, ri.getSent = true ∧ ri.nameList ≠ []) ∧ ValidCache r.2.2 ∧
      ∀ n, refs r.2.2 n + (front.flatMap ReassembleInfo.names).count n = refs tmp n := by
  induction entries generalizing tmp r with
  | nil =>
      cases h
      exact ⟨[], rfl, by simp, hvalid, fun n => rfl⟩
  | cons ri rest ih =>
      rw [reconstructEntries] at h
      obtain ⟨one, hone, h⟩ := bind_eq_ok.mp h
      rcases reconstructOneChunkTree_cases hone with ⟨hnone, htmp⟩ | ⟨hsent, hnames, block, hsome, hcopy⟩
      · rw [hnone] at h
        cases h
        rw [htmp]
        exact ⟨[], rfl, by simp, hvalid, fun n => rfl⟩
      · rw [hsome] at h
        obtain ⟨next, hnext, hret⟩ := bind_eq_ok.mp h
        cases hret
        obtain ⟨hvalid₁, hrefs₁⟩ := copyChunks_refs hvalid hcopy
        obtain ⟨front, hfront, hall, hvalid', hrefs⟩ := ih hvalid₁ hnext
        refine ⟨ri :: front, by rw [List.cons_append, ← hfront], ?_, hvalid', ?_⟩
        · intro x hx
          rcases List.mem_cons.mp hx with rfl | hmem
          · exact ⟨hsent, hnames⟩
          · exact hall x hmem
        · intro n
          have h1 := hrefs n
          have h2 := hrefs₁ n
          rw [List.flatMap_cons, List.count_append, ReassembleInfo.names]
          simp only
          omega

end Copy

end BeagleCache
