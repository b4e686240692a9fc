import Mathlib.Tactic
import BeagleCache.Downloads

/-! The responses that a batch, a `relOb` or a `mapEntry` has are those that `deletePerms` must leave. A response whose client goes
before its first data is sent is deleted by `sendData`, and added to a batch by the same call of `handleDownloadRead`. -/

namespace BeagleCache.BatchedResponses

open Transition
open Downloads

/-- What is in a list of a batch is neither on `delResList` nor freed. -/
def Kept (r : Response) : Prop := r.Referenced → r.delResList = 0 ∧ r.freed = false

/-- The first data of an object that can be cached is read when the client is gone. -/
def Orphans (r : Response) : Event → Prop
  | .handleDownloadRead parsed _ _ cacheable =>
      (r.isPut = false ∧ r.presReq = false ∧ r.lDel = false) ∧
        (parsed.failed = false ∧ parsed.status ≠ .BAD_RESPONSE ∧ parsed.status ≠ .COME_BACK) ∧
        (∃ size ∈ r.toSend ++ parsed.more, size ≠ 0) ∧ r.cacheCheck = true ∧ cacheable = true ∧ parsed.con_len ≤ largeLimit
  | _ => False

/-- All the responses, each with the length of its header. -/
def responses (genBufferLen : ℕ → ℕ) (start : ℕ → Downloads.Start) : System (ℕ → Response) (ℕ × Event) where
  init := fun s => s = fun i => (start i).response
  step := fun s e s' => ∃ r, next (genBufferLen e.1) (s e.1) e.2 = some r ∧ s' = Function.update s e.1 r

section Steps

variable {r : Response}

theorem Kept.deleted (h : Kept r) (hadd : r.Referenced → r.batchAdd = true) {presReq : Bool} {handler : Handler} {puts : Nat}
    (hputs : r.batchAdd = true ∨ r.lDel = true → puts = 0) :
    Kept { r with lDel := true, presReq := presReq, handler := handler, delResList := r.delResList + puts } := by
  intro href
  obtain ⟨hlist, hfreed⟩ := h href
  refine ⟨?_, hfreed⟩
  show r.delResList + puts = 0
  rw [hlist, hputs (.inl (hadd href))]

theorem Kept.through (h : Kept r) (hplaced : Placed r) : Kept (delResponseTranLazy (delRequestTranLazy r)) := by
  obtain ⟨handler, puts, hdeleted, -, -, hputs⟩ := deleted_eq r
  rw [hdeleted]
  exact h.deleted hplaced.batchAdd hputs

theorem Kept.delResponseTranLazy (h : Kept r) (hplaced : Placed r) : Kept (delResponseTranLazy r) := by
  obtain ⟨presReq, handler, puts, hdeleted, -, -, -, hputs⟩ := delResponseTranLazy_eq r
  rw [hdeleted]
  exact h.deleted hplaced.batchAdd hputs

/-- A response that is added to a batch must not have been deleted. -/
theorem Kept.checkCache (h : Kept r) {cacheable : Bool} (hidle : r.freed = false)
    (hlist : r.cacheCheck = true → cacheable = true → r.con_len ≤ largeLimit → r.delResList = 0) :
    Kept (Downloads.checkCache r cacheable) := by
  unfold Downloads.checkCache
  split
  · exact h
  · next hcheck =>
      split
      · next hcache => exact fun _ => ⟨hlist (by simpa using hcheck) hcache.1 hcache.2, hidle⟩
      · exact h

theorem Kept.checked (h : Kept r) (hplaced : Placed r) {cacheable : Bool} (hidle : r.Idle) (hnot : r.handler ≠ .resumeDownload)
    (hwait : r.connWait = false) (hlist : r.cacheCheck = true → cacheable = true → r.con_len ≤ largeLimit → r.delResList = 0) :
    Kept (Downloads.checkForWrite (Downloads.checkCache (countBlock r) cacheable)) := by
  obtain ⟨used, block, hcounted⟩ := countBlock_eq r
  have hblock : Placed (countBlock r) := hplaced.countBlock
  rw [hcounted] at hblock ⊢
  have hchecked : Placed (Downloads.checkCache { r with used := used, block := block } cacheable) := hblock.checkCache hnot hwait cacheable
  have hkept : Kept (Downloads.checkCache { r with used := used, block := block } cacheable) :=
    Kept.checkCache (r := { r with used := used, block := block }) h hidle.2 hlist
  obtain ⟨-, hwrites⟩ | ⟨-, hends | hgoes⟩ := checkForWrite_cases
    ((checkCache_writing { r with used := used, block := block } cacheable).trans hidle.1)
  · rw [hwrites]
    exact hkept
  · rw [hends]
    exact hkept.through hchecked
  · rw [hgoes]
    exact hkept

theorem Kept.passOn (h : Kept r) (hplaced : Placed r) (hidle : r.Idle) (hhandler : r.handler = .handleDownloadRead)
    (hdel : r.cacheCheck = true → r.lDel = false) (header : Sent) (writes : List (Option Nat)) {cacheable : Bool}
    (horphan : ¬ (r.isPut = false ∧ r.presReq = false ∧ (∃ size ∈ r.toSend, size ≠ 0) ∧ r.cacheCheck = true ∧ cacheable = true ∧
      r.con_len ≤ largeLimit)) : Kept (passOn r header writes cacheable) := by
  obtain ⟨sendHead, toSend, hnil, hcases⟩ := passOn_cases r header writes cacheable
  have hpieces : Placed { r with sendHead := sendHead, toSend := toSend } :=
    hplaced.pieces sendHead r.used r.block fun hold hwrite => hnil (hold hwrite)
  have hkept : Kept { r with sendHead := sendHead, toSend := toSend } := h
  have hnot : r.handler ≠ .resumeDownload := by
    rw [hhandler]
    decide
  have hwait := hplaced.connWait_of_handler hhandler
  have hlist : r.cacheCheck = true → r.delResList = 0 :=
    fun hcheck => (hplaced.unlisted (hplaced.unlisted_of_cacheCheck hcheck)).delResList (hdel hcheck)
  obtain ⟨-, hbusy⟩ | hgone | hdone | ⟨⟨hput, hpresReq, hunsent⟩, hdeleted⟩ := hcases
  · rw [hbusy]
    exact h
  · rw [hgone]
    exact hkept.through hpieces
  · rw [hdone]
    exact hkept.checked hpieces hidle hnot hwait fun hcheck _ _ => hlist hcheck
  · rw [hdeleted]
    have hkept' := hkept.delResponseTranLazy hpieces
    have hplaced' := hpieces.delResponseTranLazy fun hno => absurd hno hnot
    obtain ⟨presReq, handler, puts, heq, hsame, -⟩ := delResponseTranLazy_eq { r with sendHead := sendHead, toSend := toSend }
    rw [heq] at hkept' hplaced' ⊢
    exact hkept'.checked hplaced' hidle (fun hno => hnot (hsame hno)) hwait
      fun hcheck hcache hlength => absurd ⟨hput, hpresReq, hunsent, hcheck, hcache, hlength⟩ horphan

theorem kept_of_left {place : Place} (hleft : r.place = place) (h : place = .written ∨ place = .dropped) : Kept r := by
  intro href
  rcases href with hno | hno | hno <;> rw [hno] at hleft <;> rcases h with h | h <;> rw [← hleft] at h <;> cases h

theorem kept_handleConnect (hplaced : Placed r) (hwait : r.connWait = true) (again : Bool) : Kept (handleConnect r again) := by
  have hplace := (hplaced.connWait hwait).1
  intro href
  have hsame : (handleConnect r again).place = r.place := by
    unfold handleConnect
    simp only
    split
    · obtain ⟨presReq, handler, puts, hdeleted, -⟩ := delResponseTranLazy_eq { r with connWait := false }
      rw [hdeleted]
    · rfl
  rw [Response.Referenced, hsame, hplace] at href
  obtain href | href | href := href <;> cases href

theorem kept_handleDownloadRead (h : Kept r) (hplaced : Placed r) (hidle : r.Idle) (hhandler : r.handler = .handleDownloadRead)
    {parsed : Parsed}
    {header : Sent} {writes : List (Option Nat)} {cacheable : Bool}
    (horphans : ¬ Orphans r (.handleDownloadRead parsed header writes cacheable)) :
    Kept (handleDownloadRead r parsed header writes cacheable) := by
  unfold handleDownloadRead
  split
  · exact h
  · next hdel =>
      have hkept : Kept (parseResponse r parsed) := h
      rw [Bool.not_eq_true] at hdel
      simp only
      split
      · exact hkept.through (hplaced.parseResponse parsed)
      · next hparsed =>
          split
          · exact hkept
          · next hback =>
              refine hkept.passOn (hplaced.parseResponse parsed) hidle hhandler (fun _ => hdel) header writes fun hgone => horphans ?_
              obtain ⟨hput, hpresReq, hunsent, hcheck, hcache, hlength⟩ := hgone
              refine ⟨⟨hput, hpresReq, hdel⟩, ⟨?_, fun hbad => hparsed (.inr hbad), hback⟩, hunsent, hcheck, hcache, hlength⟩
              by_contra hfailed
              exact hparsed (.inl (by simpa using hfailed))

theorem kept_resumeDownload (h : Kept r) (hplaced : Placed r) (hidle : r.Idle) (hhandler : r.handler = .resumeDownload) (header : Sent)
    (writes : List (Option Nat)) (cacheable : Bool) : Kept (resumeDownload r header writes cacheable) := by
  have hconnected : Placed { r with handler := .handleDownloadRead } := hplaced.connected hhandler
  have hkept : Kept { r with handler := .handleDownloadRead } := h
  refine hkept.passOn hconnected hidle rfl (fun hcheck => (hplaced.waiting hhandler hcheck).1) header writes fun hgone => ?_
  obtain ⟨-, hpresReq, -, hcheck, -, -⟩ := hgone
  have hclient := (hplaced.waiting hhandler hcheck).2
  rw [hpresReq] at hclient
  cases hclient

theorem kept_checkForWriteRound (h : Kept r) (hplaced : Placed r) (genBufferLen : ℕ) : Kept (checkForWriteRound genBufferLen r) := by
  obtain ⟨block, toWrite, blocks, -, hwrite⟩ := prepareWrite_spec genBufferLen { r with map := r.map + 1, calls := r.calls + 1 }
  unfold checkForWriteRound
  rw [hwrite]
  have hround (writing : Bool) : Kept { r with
      map := r.map + 1, calls := r.calls + 1, used := 0, block := block, pstage := .REM, toWrite := toWrite,
      allBlocks := r.allBlocks ++ blocks, writing := writing } := h
  obtain hgoes | hends | hends := writeLoop_cases { r with
      map := r.map + 1, calls := r.calls + 1, used := 0, block := block, pstage := .REM, toWrite := toWrite,
      allBlocks := r.allBlocks ++ blocks }
  · rw [hgoes]
    exact hround true
  · rw [hends]
    obtain ⟨handler, puts, hdeleted, -, -, hputs⟩ := deleted_eq { r with
      map := r.map + 1, calls := r.calls + 1, used := 0, block := block, pstage := .REM, toWrite := toWrite,
      allBlocks := r.allBlocks ++ blocks, writing := false }
    rw [hdeleted]
    exact (hround false).deleted hplaced.batchAdd hputs
  · rw [hends]
    exact hround false

theorem kept_processBatch (h : Kept r) (hplaced : Placed r) (hplace : r.place = .urls) : Kept (processBatch r) := by
  unfold processBatch
  rw [if_neg (hplaced.type (.inl hplace))]
  split
  · exact kept_of_left rfl (.inr rfl)
  · split
    · exact fun _ => h (.inl hplace)
    · split
      · exact kept_of_left rfl (.inr rfl)
      · exact h

theorem Kept.next (h : Kept r) (hplaced : Placed r) {genBufferLen : ℕ} {e : Event} {r' : Response} (horphans : ¬ Orphans r e)
    (hnext : next genBufferLen r e = some r') : Kept r' := by
  cases step_of_next hnext with
  | handleConnect again hidle hwait => exact kept_handleConnect hplaced hwait again
  | handleDownloadRead parsed header writes cacheable hidle hhandler => exact kept_handleDownloadRead h hplaced hidle hhandler horphans
  | resumeDownload header writes cacheable hidle hhandler => exact kept_resumeDownload h hplaced hidle hhandler header writes cacheable
  | prepareWrite hwriting => exact kept_checkForWriteRound h hplaced genBufferLen
  | delRequestTranLazy hidle => exact h
  | delResponseTranLazy hidle hhandler => exact h.delResponseTranLazy hplaced
  | checkPersistentConnection hidle hhandler =>
      have hkept : Kept { r with type := .CACHE } := h
      exact hkept.delResponseTranLazy hplaced.cache
  | processBatch hidle hplace => exact kept_processBatch h hplaced hplace
  | formDiskBatches noBlocks hidle hplace => exact fun _ => h (.inr (.inl hplace))
  | versionChange hidle hplace => exact kept_of_left rfl (.inr rfl)
  | writeDone hidle hplace => exact kept_of_left (writeDone_place r) (.inl rfl)
  | deletePerms hidle hlist hmap => exact fun href => absurd (h href).1 hlist

/-- A response that has been deleted is added to a batch all the same. -/
theorem not_kept_checked (hwriting : r.writing = false) (hcheck : r.cacheCheck = true) (hlength : r.con_len ≤ largeLimit)
    (hlist : r.delResList ≠ 0) : ¬ Kept (Downloads.checkForWrite (Downloads.checkCache (countBlock r) true)) := by
  obtain ⟨used, block, hcounted⟩ := countBlock_eq r
  have hadded : Downloads.checkCache { r with used := used, block := block } true =
      { r with
        used := used, block := block, cacheCheck := false, cacheable := true, type := .DOWN, batchAdd := true, place := .urls,
        pstage := .FIRST } := by
    unfold Downloads.checkCache
    rw [if_neg (by simp [hcheck]), if_pos ⟨rfl, hlength⟩]
  rw [hcounted, hadded]
  intro hkept
  obtain ⟨-, hwrites⟩ | ⟨-, hends | hgoes⟩ := checkForWrite_cases (r := { r with
      used := used, block := block, cacheCheck := false, cacheable := true, type := .DOWN, batchAdd := true, place := .urls,
      pstage := .FIRST }) hwriting
  · rw [hwrites] at hkept
    exact hlist (hkept (.inl rfl)).1
  · obtain ⟨handler, puts, hdeleted, -⟩ := deleted_eq { r with
      used := used, block := block, cacheCheck := false, cacheable := true, type := .DOWN, batchAdd := true, place := .urls,
      pstage := .FIRST }
    rw [hends, hdeleted] at hkept
    exact hlist (Nat.eq_zero_of_add_eq_zero_right (hkept (.inl rfl)).1)
  · rw [hgoes] at hkept
    exact hlist (hkept (.inl rfl)).1

theorem Orphans.not_kept {genBufferLen : ℕ} {e : Event} {r' : Response} (h : Orphans r e) (hplaced : Placed r)
    (hnext : next genBufferLen r e = some r') : ¬ Kept r' := by
  cases e with
  | handleDownloadRead parsed header writes cacheable =>
      obtain ⟨⟨hput, hpresReq, hdel⟩, ⟨hfailed, hbad, hback⟩, hunsent, hcheck, hcache, hlength⟩ := h
      obtain ⟨⟨hidle, hhandler⟩, hr'⟩ := Option.ite_none_right_eq_some.mp hnext
      cases hr'
      have f := hplaced.unlisted (hplaced.unlisted_of_cacheCheck hcheck)
      have hwait := hplaced.connWait_of_handler hhandler
      have hread : handleDownloadRead r parsed header writes cacheable =
          passOn (Downloads.parseResponse r parsed) header writes cacheable := by
        unfold Downloads.handleDownloadRead
        rw [if_neg (by simp [hdel])]
        exact (if_neg (by simp [hfailed, parseResponse, hbad])).trans (if_neg hback)
      rw [hread, passOn_gone (Downloads.parseResponse r parsed) header writes cacheable hput hpresReq hunsent, hcache]
      obtain ⟨handler, hdeleted⟩ := delResponseTranLazy_puts (r := { Downloads.parseResponse r parsed with
        sendHead := true, toSend := (Downloads.parseResponse r parsed).toSend.dropWhile (· = 0) }) hdel f.map hwait f.batchAdd
      rw [hdeleted]
      exact not_kept_checked hidle.1 hcheck hlength (Nat.succ_ne_zero _)
  | handleConnect | resumeDownload | prepareWrite | delRequestTranLazy | delResponseTranLazy | checkPersistentConnection | processBatch
  | formDiskBatches | versionChange | writeDone | deletePerms => cases h

end Steps

/-- No response in a list of a batch has been deleted, in any state of a run, just when none is orphaned. -/
theorem kept_iff (genBufferLen : ℕ → ℕ) (start : ℕ → Downloads.Start) {events : List (ℕ × Event)} {s : ℕ → Response}
    (hrun : (responses genBufferLen start).Runs events s) :
    (∀ before t, before <+: events → (responses genBufferLen start).Runs before t → ∀ i, Kept (t i)) ↔
      ((responses genBufferLen start).restrict fun s e => ¬ Orphans (s e.1) e.2).Runs events s := by
  have hplaced : (responses genBufferLen start).Invariant fun s => ∀ i, Placed (s i) := by
    refine ⟨fun s hs i => ?_, fun s e s' h hstep i => ?_⟩
    · rw [hs]
      exact placed_start (start i)
    · obtain ⟨r, hnext, rfl⟩ := hstep
      by_cases hi : i = e.1
      · rw [hi, Function.update_self]
        exact (h e.1).next hnext
      · rw [Function.update_of_ne hi]
        exact h i
  have hkept : ((responses genBufferLen start).restrict fun s e => ¬ Orphans (s e.1) e.2).Invariant
      fun s => ∀ i, Placed (s i) ∧ Kept (s i) := by
    refine ⟨fun s hs i => ⟨hplaced.init s hs i, ?_⟩, fun s e s' h hstep i => ⟨hplaced.step s e s' (fun i => (h i).1) hstep.2 i, ?_⟩⟩
    · rw [hs]
      intro href
      have hplace : (start i).response.place = .unlisted := by
        cases start i <;> rfl
      rw [Response.Referenced, hplace] at href
      obtain href | href | href := href <;> cases href
    · obtain ⟨horphans, r, hnext, rfl⟩ := hstep
      by_cases hi : i = e.1
      · rw [hi, Function.update_self]
        exact (h e.1).2.next (h e.1).1 horphans hnext
      · rw [Function.update_of_ne hi]
        exact (h i).2
  refine System.Runs.forall_prefix_iff (P := fun s => ∀ i, Kept (s i)) (fun s s' (hs : s = _) (hs' : s' = _) => hs.trans hs'.symm)
    (fun s e s₁ s₂ h₁ h₂ => ?_)
    (fun labels s h i => (hkept.holds h i).2) (fun labels s e s' h hstep h' horphans => ?_) hrun
  · obtain ⟨r₁, hnext₁, rfl⟩ := h₁
    obtain ⟨r₂, hnext₂, rfl⟩ := h₂
    rw [Option.some.inj (hnext₁.symm.trans hnext₂)]
  · obtain ⟨r, hnext, rfl⟩ := hstep
    have hafter := h' e.1
    rw [Function.update_self] at hafter
    exact horphans.not_kept (hkept.holds h e.1).1 hnext hafter

/-- The client waits for its data, and the object is written and deleted. -/
def wholeRun : List (ℕ × Event) :=
  [] ++ [(0, Event.handleDownloadRead ⟨false, .ENTITY_COMPLETE, 40, 60, [40]⟩ .done [some 40] true)] ++ [(0, Event.prepareWrite)] ++
    [(0, Event.processBatch)] ++ [(0, Event.formDiskBatches false)] ++ [(0, Event.writeDone)] ++ [(0, Event.deletePerms)]

theorem kept_sample : ∃ s, (responses (fun _ => 300) fun _ => .miss false false).Runs wholeRun s ∧ (s 0).freed = true ∧ ∀ i,
    Kept (s i) := by
  have hrun : (responses (fun _ => 300) fun _ => .miss false false).Runs wholeRun _ :=
    .step (.step (.step (.step (.step (.step (.start rfl) ⟨_, rfl, rfl⟩) ⟨_, rfl, rfl⟩) ⟨_, rfl, rfl⟩) ⟨_, rfl, rfl⟩) ⟨_, rfl, rfl⟩)
      ⟨_, rfl, rfl⟩
  refine ⟨_, hrun, rfl, (kept_iff (fun _ => 300) (fun _ => .miss false false) hrun).mpr ?_ _ _ (List.prefix_refl _) hrun⟩
  refine .step (.step (.step (.step (.step (.step (.start rfl) ⟨?_, _, rfl, rfl⟩) ⟨?_, _, rfl, rfl⟩) ⟨?_, _, rfl, rfl⟩) ⟨?_, _, rfl, rfl⟩)
    ⟨?_, _, rfl, rfl⟩) ⟨?_, _, rfl, rfl⟩
  · intro horphans
    exact absurd horphans.1.2.1 (by decide)
  all_goals exact id

/-- The client goes before the first data is there: the response is freed, and the `urls` of the batch still have it. -/
theorem freed_in_batch : ∃ s, (responses (fun _ => 300) fun _ => .miss false false).Runs
    ([] ++ [(0, Event.delRequestTranLazy)] ++ [(0, Event.handleDownloadRead ⟨false, .OTHER, 100, 60, [40]⟩ .done [] true)] ++
      [(0, Event.deletePerms)]) s ∧
    (s 0).place = .urls ∧ (s 0).batchAdd = true ∧ (s 0).freed = true ∧ ¬ ∀ i, Kept (s i) := by
  refine ⟨_, .step (.step (.step (.start rfl) ⟨_, rfl, rfl⟩) ⟨_, rfl, rfl⟩) ⟨_, rfl, rfl⟩, rfl, rfl, rfl, fun h => ?_⟩
  exact absurd (h 0 (.inl rfl)).2 (by decide)

end BeagleCache.BatchedResponses
