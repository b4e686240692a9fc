import Mathlib.Tactic
import BeagleCache.Downloads
import BeagleCache.Wrapping

/-! How the blocks of a response are counted until they are written. `checkForWrite` counts `map` up for every call of `prepareWrite`,
`formDiskBatches` counts it down for every block and gives it one for the batch, which `handleDataHelperRead` takes again. -/

namespace BeagleCache.PendingWrites

open Transition
open Downloads
open Hcfs (actualBlockSize)

/-- `map` keeps the response until its one write is over, and then it goes. -/
structure Counted (r : Response) : Prop where
  batch : r.place = .batch → r.map = 1
  kept : r.Referenced → (r.calls ≠ 0 → r.map ≠ 0 ∧ r.delResList = 0) ∧ r.unlocked = 0
  written : r.place = .written → r.map = 0 ∧ r.unlocked = 1 ∧ r.batchAdd = false ∧ r.lDel = true ∧ r.delResList = 1

/-- The header goes into one block. No data is left to be prepared for a response whose blocks have been counted or that is on
`delResList`, and there are not 256 blocks. -/
def Counts (genBufferLen : Nat) (r : Response) : Event → Prop
  | .prepareWrite => r.place = .dropped ∨ (r.place = .urls ∨ r.place = .relOb) ∧ r.delResList = 0 ∧ ¬ 256 ∣ r.calls + 1
  | .formDiskBatches _ => r.allBlocks = [] ∨ genBufferLen ≤ actualBlockSize ∨ 3000 < genBufferLen
  | _ => True

/-- A response in the lists of its batch: `map` is the number of calls, and the first one made a block of every part of the header. -/
structure Listed (genBufferLen : Nat) (r : Response) : Prop where
  map : r.map = BitVec.ofNat 8 r.calls
  first : r.pstage = .FIRST → r.calls = 0 ∧ r.allBlocks = []
  rem : r.pstage = .REM → r.calls ≠ 0 ∧ r.allBlocks.length + 1 = r.calls + (headerBlocks genBufferLen).length

/-- What is true in a run whose steps count. A response that was deleted before it came into its batch gets no further. -/
structure Sound (genBufferLen : Nat) (r : Response) : Prop where
  counted : Counted r
  listed : r.place = .urls ∨ r.place = .relOb → Listed genBufferLen r
  orphan : r.place = .urls → r.delResList ≠ 0 →
    r.handler = .unset ∧ r.lDel = true ∧ (r.writing = true ∨ r.status ≠ .ENTITY_COMPLETE)
  queued : r.place = .relOb ∨ r.place = .batch → r.delResList = 0

section Steps

variable {genBufferLen : Nat} {r : Response}

/-- A response that has not been added to a batch, or has been given up. -/
theorem sound_of_place (hplace : r.place = .unlisted ∨ r.place = .dropped) : Sound genBufferLen r := by
  obtain hplace | hplace := hplace
  · refine ⟨⟨fun h => ?_, fun h => ?_, fun h => ?_⟩, fun h => ?_, fun h => ?_, fun h => ?_⟩ <;>
      simp [Response.Referenced, hplace] at h
  · refine ⟨⟨fun h => ?_, fun h => ?_, fun h => ?_⟩, fun h => ?_, fun h => ?_, fun h => ?_⟩ <;>
      simp [Response.Referenced, hplace] at h

/-- Fields of a response that the counter does not depend on. -/
theorem Sound.congr {r' : Response} (h : Sound genBufferLen r) (hplace : r'.place = r.place) (hmap : r'.map = r.map)
    (hcalls : r'.calls = r.calls)
    (hadd : r'.batchAdd = r.batchAdd) (hlist : r'.delResList = r.delResList) (hlock : r'.unlocked = r.unlocked)
    (hstage : r'.pstage = r.pstage) (hblocks : r'.allBlocks = r.allBlocks) (hdel : r.lDel = true → r'.lDel = true)
    (horphan : r.place = .urls → r.delResList ≠ 0 → r'.handler = .unset ∧ (r'.writing = true ∨ r'.status ≠ .ENTITY_COMPLETE)) :
    Sound genBufferLen r' where
  counted := by
    refine ⟨fun hb => ?_, fun hb => ?_, fun hw => ?_⟩
    · rw [hmap]
      exact h.counted.batch (hplace ▸ hb)
    · rw [hcalls, hmap, hlist, hlock]
      apply h.counted.kept
      rwa [Response.Referenced, hplace] at hb
    · rw [hmap, hlock, hadd, hlist]
      obtain ⟨h₁, h₂, h₃, h₄, h₅⟩ := h.counted.written (hplace ▸ hw)
      exact ⟨h₁, h₂, h₃, hdel h₄, h₅⟩
  listed := by
    intro hp
    obtain ⟨h₁, h₂, h₃⟩ := h.listed (hplace ▸ hp)
    exact ⟨by rw [hmap, hcalls]; exact h₁, by rw [hstage, hcalls, hblocks]; exact h₂, by rw [hstage, hcalls, hblocks]; exact h₃⟩
  orphan := by
    intro hp hl
    rw [hplace] at hp
    rw [hlist] at hl
    obtain ⟨hunset, hends⟩ := horphan hp hl
    exact ⟨hunset, hdel (h.orphan hp hl).2.1, hends⟩
  queued := by
    intro hp
    rw [hlist]
    exact h.queued (hplace ▸ hp)

/-- A response that the counter keeps is not put on `delResList`. -/
theorem Sound.deleted (h : Sound genBufferLen r) (hplaced : Placed r) {presReq : Bool} {handler : Handler} {puts : Nat}
    (hunset : r.handler = .unset → handler = .unset) (hputs : r.batchAdd = true ∨ r.lDel = true → puts = 0) :
    Sound genBufferLen { r with lDel := true, presReq := presReq, handler := handler, delResList := r.delResList + puts } := by
  by_cases hkept : puts = 0
  · refine h.congr rfl rfl rfl rfl ?_ rfl rfl rfl (fun _ => rfl) fun hplace hlist => ?_
    · show r.delResList + puts = r.delResList
      rw [hkept, Nat.add_zero]
    · obtain ⟨hold, -, hends⟩ := h.orphan hplace hlist
      exact ⟨hunset hold, hends⟩
  · apply sound_of_place
    show r.place = .unlisted ∨ r.place = .dropped
    cases hplace : r.place with
    | unlisted => exact .inl rfl
    | dropped => exact .inr rfl
    | urls => exact absurd (hputs (.inl (hplaced.batchAdd (.inl hplace)))) hkept
    | relOb => exact absurd (hputs (.inl (hplaced.batchAdd (.inr (.inl hplace))))) hkept
    | batch => exact absurd (hputs (.inl (hplaced.batchAdd (.inr (.inr hplace))))) hkept
    | written => exact absurd (hputs (.inr (h.counted.written hplace).2.2.2.1)) hkept

theorem Sound.delResponseTranLazy (h : Sound genBufferLen r) (hplaced : Placed r) : Sound genBufferLen (delResponseTranLazy r) := by
  obtain ⟨presReq, handler, puts, hdeleted, -, hunset, -, hputs⟩ := delResponseTranLazy_eq r
  rw [hdeleted]
  exact h.deleted hplaced hunset hputs

theorem Sound.through (h : Sound genBufferLen r) (hplaced : Placed r) :
    Sound genBufferLen (Downloads.delResponseTranLazy (delRequestTranLazy r)) := by
  obtain ⟨handler, puts, hdeleted, -, hunset, hputs⟩ := deleted_eq r
  rw [hdeleted]
  exact h.deleted hplaced hunset hputs

theorem Sound.checkForWrite (h : Sound genBufferLen r) (hplaced : Placed r) (hwriting : r.writing = false) :
    Sound genBufferLen (checkForWrite r) := by
  obtain ⟨-, hwrites⟩ | ⟨-, hends | hgoes⟩ := checkForWrite_cases hwriting
  · rw [hwrites]
    exact h.congr rfl rfl rfl rfl rfl rfl rfl rfl id fun hplace hlist => ⟨(h.orphan hplace hlist).1, .inl rfl⟩
  · rw [hends]
    exact h.through hplaced
  · rw [hgoes]
    exact h

/-- A response that is added to its batch. Where it has been deleted before, it has data that is not going to be written. -/
theorem sound_added (hplace : r.place = .urls) (hplaced : Placed r) (hmap : r.map = 0) (hcalls : r.calls = 0) (hstage : r.pstage = .FIRST)
    (hblocks : r.allBlocks = []) (hlock : r.unlocked = 0) (hwriting : r.writing = false) (hcache : r.cacheable = true ∧ r.type = .DOWN)
    (horphan : r.delResList ≠ 0 → r.handler = .unset ∧ r.lDel = true ∧ r.toWrite ≠ []) : Sound genBufferLen (checkForWrite r) := by
  have hlisted (s : Response) (hs : s.place = .urls) (hm : s.map = r.map) (hc : s.calls = r.calls) (hst : s.pstage = r.pstage)
      (hb : s.allBlocks = r.allBlocks) (hl : s.unlocked = r.unlocked)
      (ho : s.delResList ≠ 0 → s.handler = .unset ∧ s.lDel = true ∧ (s.writing = true ∨ s.status ≠ .ENTITY_COMPLETE)) :
      Sound genBufferLen s := by
    refine ⟨⟨fun hno => ?_, fun _ => ⟨fun hno => ?_, hl.trans hlock⟩, fun hno => ?_⟩, fun _ => ⟨?_, fun _ => ?_, fun hno => ?_⟩,
      fun _ => ho,
      fun hno => ?_⟩
    · rw [hs] at hno
      cases hno
    · exact absurd (hc.trans hcalls) hno
    · rw [hs] at hno
      cases hno
    · rw [hm, hc, hmap, hcalls]
      rfl
    · exact ⟨hc.trans hcalls, hb.trans hblocks⟩
    · rw [hst, hstage] at hno
      cases hno
    · rw [hs] at hno
      obtain hno | hno := hno <;> cases hno
  obtain ⟨-, hwrites⟩ | ⟨hthrough, hrest⟩ := checkForWrite_cases hwriting
  · rw [hwrites]
    exact hlisted _ hplace rfl rfl rfl rfl rfl fun hlist => ⟨(horphan hlist).1, (horphan hlist).2.1, .inl rfl⟩
  · have hgoes : Sound genBufferLen r := by
      refine hlisted r hplace rfl rfl rfl rfl rfl fun hlist => ?_
      obtain ⟨hunset, hdel, hdata⟩ := horphan hlist
      exact ⟨hunset, hdel, .inr fun hstatus => hdata (hthrough hcache hstatus)⟩
    obtain hends | hsame := hrest
    · rw [hends]
      exact hgoes.through hplaced
    · rw [hsame]
      exact hgoes

/-- The rest of the two handlers. -/
theorem Sound.checked (h : Sound genBufferLen r) (hplaced : Placed r) (hnot : r.handler ≠ .resumeDownload) (hwait : r.connWait = false)
    (hwriting : r.writing = false)
    (horphan : r.cacheCheck = true → r.delResList ≠ 0 → r.handler = .unset ∧ r.lDel = true ∧ r.toWrite ≠ []) (cacheable : Bool) :
    Sound genBufferLen (Downloads.checkForWrite (Downloads.checkCache (countBlock r) cacheable)) := by
  obtain ⟨used, block, hcounted⟩ := countBlock_eq r
  have hblock : Placed (countBlock r) := hplaced.countBlock
  have hsound : Sound genBufferLen { r with used := used, block := block } :=
    h.congr rfl rfl rfl rfl rfl rfl rfl rfl id fun hplace hlist => ⟨(h.orphan hplace hlist).1, (h.orphan hplace hlist).2.2⟩
  rw [hcounted] at hblock ⊢
  have hchecked : Placed (Downloads.checkCache { r with used := used, block := block } cacheable) := hblock.checkCache hnot hwait cacheable
  have hidle : (Downloads.checkCache { r with used := used, block := block } cacheable).writing = false :=
    (checkCache_writing _ cacheable).trans hwriting
  unfold Downloads.checkCache at hchecked hidle ⊢
  split at hchecked
  · next hcheck => rw [if_pos hcheck] at hidle ⊢; exact hsound.checkForWrite hchecked hidle
  · next hcheck =>
      rw [if_neg hcheck] at hidle ⊢
      have hfirst : r.cacheCheck = true := by simpa using hcheck
      have hplace := hplaced.unlisted_of_cacheCheck hfirst
      have f := hplaced.unlisted hplace
      split at hchecked
      · next hcache =>
          rw [if_pos hcache] at hidle ⊢
          exact sound_added rfl hchecked f.map f.calls rfl f.allBlocks f.unlocked hidle ⟨rfl, rfl⟩ (horphan hfirst)
      · next hcache =>
          rw [if_neg hcache] at hidle ⊢
          exact Sound.checkForWrite (sound_of_place (.inl hplace)) hchecked hidle

theorem Sound.passOn (h : Sound genBufferLen r) (hplaced : Placed r) (hhandler : r.handler = .handleDownloadRead)
    (hwriting : r.writing = false)
    (hdel : r.cacheCheck = true → r.lDel = false) (header : Sent) (writes : List (Option Nat)) (cacheable : Bool) :
    Sound genBufferLen (passOn r header writes cacheable) := by
  obtain ⟨sendHead, toSend, hnil, hcases⟩ := passOn_cases r header writes cacheable
  have hpieces : Placed { r with sendHead := sendHead, toSend := toSend } :=
    hplaced.pieces sendHead r.used r.block fun hold hwrite => hnil (hold hwrite)
  have hnot : r.handler ≠ .resumeDownload := by
    rw [hhandler]
    decide
  have hwait := hplaced.connWait_of_handler hhandler
  have hnone : r.place = .urls → r.delResList = 0 := by
    intro hplace
    by_contra hlist
    have hunset := (h.orphan hplace hlist).1
    rw [hhandler] at hunset
    cases hunset
  have hsound (handler : Handler) : Sound genBufferLen { r with sendHead := sendHead, toSend := toSend, handler := handler } :=
    h.congr rfl rfl rfl rfl rfl rfl rfl rfl id fun hplace hlist => absurd (hnone hplace) hlist
  obtain ⟨-, hbusy⟩ | hgone | hdone | ⟨⟨-, -, size, hunsent, hsize⟩, hdeleted⟩ := hcases
  · rw [hbusy]
    exact hsound .resumeDownload
  · rw [hgone]
    exact (hsound r.handler).through hpieces
  · rw [hdone]
    exact (hsound r.handler).checked hpieces hnot hwait hwriting (fun hcheck hlist =>
      absurd ((hplaced.unlisted (hplaced.unlisted_of_cacheCheck hcheck)).delResList (hdel hcheck)) hlist) cacheable
  · rw [hdeleted]
    have hsound' := (hsound r.handler).delResponseTranLazy hpieces
    have hplaced' := hpieces.delResponseTranLazy fun hno => absurd hno hnot
    obtain ⟨presReq, handler, puts, heq, hsame, -, hread, -⟩ := delResponseTranLazy_eq { r with sendHead := sendHead, toSend := toSend }
    rw [heq] at hsound' hplaced' ⊢
    refine hsound'.checked hplaced' (fun hno => hnot (hsame hno)) hwait hwriting (fun hcheck _ => ⟨?_, rfl, fun hwrite => ?_⟩) cacheable
    · have hunread := hread (hdel hcheck)
      show handler = .unset
      cases handler with
      | unset => rfl
      | handleDownloadRead => exact absurd rfl hunread
      | resumeDownload => exact absurd (hsame rfl) hnot
    · rw [(hplaced.unlisted (hplaced.unlisted_of_cacheCheck hcheck)).toSend hwrite] at hunsent
      cases hunsent

/-- A round of the loop for a response in the lists of its batch. -/
theorem Sound.checkForWriteRound (h : Sound genBufferLen r) (hplaced : Placed r) (hplace : r.place = .urls ∨ r.place = .relOb)
    (hlist : r.delResList = 0) (hcalls : ¬ 256 ∣ r.calls + 1) : Sound genBufferLen (checkForWriteRound genBufferLen r) := by
  obtain ⟨block, toWrite, blocks, hmade, hwrite⟩ := prepareWrite_spec genBufferLen { r with map := r.map + 1, calls := r.calls + 1 }
  obtain ⟨hmap, hfirst, hrem⟩ := h.listed hplace
  have hcounter : r.map + 1 = BitVec.ofNat 8 (r.calls + 1) := by
    rw [hmap, BitVec.ofNat_add]
    rfl
  have hlisted : r.place ≠ .unlisted := by
    obtain hplace | hplace := hplace <;> rw [hplace] <;> decide
  have hplaced' (writing : Bool) : Placed { r with
      map := r.map + 1, calls := r.calls + 1, used := 0, block := block, pstage := .REM, toWrite := toWrite,
      allBlocks := r.allBlocks ++ blocks, writing := writing } :=
    ⟨fun hno => absurd hno hlisted, hplaced.cacheCheck, hplaced.type, hplaced.batchAdd, hplaced.connWait, hplaced.waiting, hplaced.freed⟩
  have hround (writing : Bool) : Sound genBufferLen { r with
      map := r.map + 1, calls := r.calls + 1, used := 0, block := block, pstage := .REM, toWrite := toWrite,
      allBlocks := r.allBlocks ++ blocks, writing := writing } := by
    refine ⟨⟨fun hb => ?_, fun hb => ⟨fun _ => ⟨?_, hlist⟩, (h.counted.kept hb).2⟩, fun hw => ?_⟩,
      fun _ => ⟨hcounter, fun hno => (by cases hno), fun _ => ⟨Nat.succ_ne_zero _, ?_⟩⟩, fun _ hno => absurd hlist hno, fun _ => hlist⟩
    · obtain hp | hp := hplace <;> rw [hp] at hb <;> cases hb
    · show r.map + 1 ≠ 0
      rw [hcounter]
      exact Wrapping.ofNat_eq_zero.not.mpr hcalls
    · obtain hp | hp := hplace <;> rw [hp] at hw <;> cases hw
    · simp only [List.length_append, hmade]
      cases hstage : r.pstage with
      | FIRST =>
          obtain ⟨hzero, hnil⟩ := hfirst hstage
          rw [hzero, hnil, madeBlocks, List.length_nil]
          omega
      | REM =>
          have hlength := (hrem hstage).2
          rw [madeBlocks]
          omega
  unfold Downloads.checkForWriteRound
  rw [hwrite]
  obtain hgoes | hends | hends := writeLoop_cases { r with
      map := r.map + 1, calls := r.calls + 1, used := 0, block := block, pstage := .REM, toWrite := toWrite,
      allBlocks := r.allBlocks ++ blocks }
  · rw [hgoes]
    exact hround true
  · rw [hends]
    exact (hround false).through (hplaced' false)
  · rw [hends]
    exact hround false

theorem Sound.processBatch (h : Sound genBufferLen r) (hplaced : Placed r) (hwriting : r.writing = false) (hplace : r.place = .urls) :
    Sound genBufferLen (processBatch r) := by
  have hlisted := h.listed (.inl hplace)
  unfold Downloads.processBatch
  rw [if_neg (hplaced.type (.inl hplace))]
  split
  · exact sound_of_place (.inr rfl)
  · split
    · next hstatus =>
        have hlist : r.delResList = 0 := by
          by_contra hno
          obtain hwrites | hends := (h.orphan hplace hno).2.2
          · rw [hwriting] at hwrites
            cases hwrites
          · exact hends hstatus
        exact ⟨⟨fun hb => (by cases hb), fun _ => h.counted.kept (.inl hplace), fun hw => (by cases hw)⟩,
          fun _ => ⟨hlisted.map, hlisted.first, hlisted.rem⟩, fun hno => (by cases hno), fun _ => hlist⟩
    · split
      · exact sound_of_place (.inr rfl)
      · exact h

theorem formDiskBatches_map (hlisted : Listed genBufferLen r) (noBlocks : Bool) (hblocks : r.allBlocks ≠ []) :
    (formDiskBatches r noBlocks).map + BitVec.ofNat 8 (headerBlocks genBufferLen).length = 2 := by
  have hrem : r.pstage = .REM := by
    cases hstage : r.pstage with
    | FIRST => exact absurd (hlisted.first hstage).2 hblocks
    | REM => rfl
  have hlength := congrArg (BitVec.ofNat 8) (hlisted.rem hrem).2
  rw [BitVec.ofNat_add, BitVec.ofNat_add, ← hlisted.map] at hlength
  show r.map - BitVec.ofNat 8 r.allBlocks.length + 1 + BitVec.ofNat 8 (headerBlocks genBufferLen).length = 2
  generalize BitVec.ofNat 8 r.allBlocks.length = made at hlength ⊢
  generalize BitVec.ofNat 8 (headerBlocks genBufferLen).length = header at hlength ⊢
  bv_omega

/-- The blocks are counted down to nothing just when the header made one of them, and `map` is left with one for the batch. -/
theorem formDiskBatches_map_iff (hlisted : Listed genBufferLen r) (noBlocks : Bool) :
    (formDiskBatches r noBlocks).map = 1 ↔ r.allBlocks = [] ∨ genBufferLen ≤ actualBlockSize ∨ 3000 < genBufferLen := by
  by_cases hblocks : r.allBlocks = []
  · refine ⟨fun _ => .inl hblocks, fun _ => ?_⟩
    have hfirst : r.pstage = .FIRST := by
      cases hstage : r.pstage with
      | FIRST => rfl
      | REM =>
          have hlength := (hlisted.rem hstage)
          have hpos := headerBlocks_length genBufferLen
          rw [hblocks, List.length_nil] at hlength
          omega
    show r.map - BitVec.ofNat 8 r.allBlocks.length + 1 = 1
    rw [hlisted.map, (hlisted.first hfirst).1, hblocks]
    rfl
  · have hmap := formDiskBatches_map hlisted noBlocks hblocks
    rw [headerBlocks_length] at hmap
    constructor
    · intro hone
      by_contra hor
      rw [hone, if_pos (by omega)] at hmap
      revert hmap
      decide
    · intro hor
      rw [if_neg (by rcases hor with hnil | hfits | hlong <;> [exact absurd hnil hblocks; omega; omega])] at hmap
      generalize (formDiskBatches r noBlocks).map = map at hmap ⊢
      bv_omega

theorem Sound.formDiskBatches (h : Sound genBufferLen r) (hplace : r.place = .relOb) (noBlocks : Bool)
    (hcounts : r.allBlocks = [] ∨ genBufferLen ≤ actualBlockSize ∨ 3000 < genBufferLen) :
    Sound genBufferLen (formDiskBatches r noBlocks) := by
  have hone := (formDiskBatches_map_iff (h.listed (.inr hplace)) noBlocks).mpr hcounts
  have hlist := h.queued (.inl hplace)
  refine ⟨⟨fun _ => hone, fun _ => ⟨fun _ => ⟨?_, hlist⟩, (h.counted.kept (.inr (.inl hplace))).2⟩, fun hw => (by cases hw)⟩, fun hp => ?_,
    fun hno => (by cases hno), fun _ => hlist⟩
  · rw [hone]
    decide
  · obtain hp | hp := hp <;> cases hp

/-- The one write is over. -/
theorem Sound.writeDone (h : Sound genBufferLen r) (hplaced : Placed r) (hplace : r.place = .batch) : Sound genBufferLen (writeDone r) := by
  have hlock := (h.counted.kept (.inr (.inr hplace))).2
  have hlist := h.queued (.inr hplace)
  have hzero : r.map - 1 = 0 := by
    rw [h.counted.batch hplace]
    decide
  have hconn : r.connWait = false := by
    by_contra hwait
    rw [Bool.not_eq_false] at hwait
    have hunlisted := (hplaced.connWait hwait).1
    rw [hplace] at hunlisted
    cases hunlisted
  obtain ⟨handler, hdeleted⟩ := delResponseTranLazy_puts
    (r := { r with map := r.map - 1, place := .written, lDel := false, unlocked := r.unlocked + 1, batchAdd := false }) rfl hzero hconn rfl
  have hdone : Downloads.writeDone r = _ := (if_pos hzero).trans hdeleted
  rw [hdone]
  refine ⟨⟨fun hb => (by cases hb), fun hk => ?_, fun _ => ⟨hzero, ?_, rfl, rfl, ?_⟩⟩, fun hp => ?_, fun hp => (by cases hp), fun hp => ?_⟩
  · obtain hk | hk | hk := hk <;> cases hk
  · show r.unlocked + 1 = 1
    rw [hlock]
  · show r.delResList + 1 = 1
    rw [hlist]
  · obtain hp | hp := hp <;> cases hp
  · obtain hp | hp := hp <;> cases hp

theorem Sound.next (h : Sound genBufferLen r) (hplaced : Placed r) {e : Event} (hcounts : Counts genBufferLen r e) {r' : Response}
    (hnext : next genBufferLen r e = some r') : Sound genBufferLen r' := by
  cases step_of_next hnext with
  | handleConnect again hidle hwait =>
      obtain ⟨hplace, hunset⟩ := hplaced.connWait hwait
      refine sound_of_place (.inl ?_)
      unfold handleConnect
      simp only
      split
      · obtain ⟨presReq, handler, puts, hdeleted, -⟩ := delResponseTranLazy_eq { r with connWait := false }
        rw [hdeleted]
        exact hplace
      · exact hplace
  | handleDownloadRead parsed header writes cacheable hidle hhandler =>
      unfold handleDownloadRead
      split
      · exact h.congr rfl rfl rfl rfl rfl rfl rfl rfl id fun hplace hlist => ⟨rfl, (h.orphan hplace hlist).2.2⟩
      · next hdel =>
          have hparsed : Sound genBufferLen (Downloads.parseResponse r parsed) :=
            h.congr rfl rfl rfl rfl rfl rfl rfl rfl id fun hplace hlist => absurd (h.orphan hplace hlist).2.1 hdel
          simp only
          split
          · exact hparsed.through (hplaced.parseResponse parsed)
          · split
            · exact hparsed
            · exact hparsed.passOn (hplaced.parseResponse parsed) hhandler hidle.1 (fun _ => Bool.not_eq_true _ ▸ hdel)
                header writes cacheable
  | resumeDownload header writes cacheable hidle hhandler =>
      have hconnected : Sound genBufferLen { r with handler := .handleDownloadRead } := by
        refine h.congr rfl rfl rfl rfl rfl rfl rfl rfl id fun hplace hlist => ?_
        have hunset := (h.orphan hplace hlist).1
        rw [hhandler] at hunset
        cases hunset
      exact hconnected.passOn (hplaced.connected hhandler) rfl hidle.1 (fun hcheck => (hplaced.waiting hhandler hcheck).1)
        header writes cacheable
  | prepareWrite hwriting =>
      obtain hdropped | ⟨hplace, hlist, hcalls⟩ := hcounts
      · apply sound_of_place
        rw [(checkForWriteRound_same genBufferLen r).1]
        exact .inr hdropped
      · exact h.checkForWriteRound hplaced hplace hlist hcalls
  | delRequestTranLazy hidle =>
      refine h.congr rfl rfl rfl rfl rfl rfl rfl rfl id fun hplace hlist => ?_
      obtain ⟨hunset, -, hends⟩ := h.orphan hplace hlist
      exact ⟨by simp [delRequestTranLazy, hunset], hends⟩
  | delResponseTranLazy hidle hhandler => exact h.delResponseTranLazy hplaced
  | checkPersistentConnection hidle hhandler =>
      have hcache : Sound genBufferLen { r with type := .CACHE } :=
        h.congr rfl rfl rfl rfl rfl rfl rfl rfl id fun hplace hlist => ⟨(h.orphan hplace hlist).1, (h.orphan hplace hlist).2.2⟩
      exact hcache.delResponseTranLazy hplaced.cache
  | processBatch hidle hplace => exact h.processBatch hplaced hidle.1 hplace
  | formDiskBatches noBlocks hidle hplace => exact h.formDiskBatches hplace noBlocks hcounts
  | versionChange hidle hplace => exact sound_of_place (.inr rfl)
  | writeDone hidle hplace => exact h.writeDone hplaced hplace
  | deletePerms hidle hlist hmap =>
      exact h.congr rfl rfl rfl rfl rfl rfl rfl rfl id fun hplace hlist => ⟨(h.orphan hplace hlist).1, (h.orphan hplace hlist).2.2⟩

/-- A step that does not count leaves a wrong counter. -/
theorem Counted.counts (h : Sound genBufferLen r) (hplaced : Placed r) {e : Event} {r' : Response}
    (hnext : Downloads.next genBufferLen r e = some r') (h' : Counted r') : Counts genBufferLen r e := by
  cases step_of_next hnext with
  | prepareWrite hwriting =>
      obtain ⟨hsame, hmap, hcalls, hlist⟩ := checkForWriteRound_same genBufferLen r
      have hcounts : r.place = .urls ∨ r.place = .relOb → r.delResList = 0 ∧ ¬ 256 ∣ r.calls + 1 := by
        intro hplace
        have href : (Downloads.checkForWriteRound genBufferLen r).Referenced := by
          rw [Response.Referenced, hsame]
          exact hplace.imp_right .inl
        obtain ⟨hne, hnone⟩ := (h'.kept href).1 (hcalls ▸ Nat.succ_ne_zero r.calls)
        rw [hmap, (h.listed hplace).map] at hne
        refine ⟨Nat.eq_zero_of_le_zero (hnone ▸ hlist), (Wrapping.ofNat_eq_zero (w := 8)).not.mp ?_⟩
        rwa [BitVec.ofNat_add]
      cases hplace : r.place with
      | dropped => exact .inl hplace
      | urls => exact .inr ⟨.inl hplace, hcounts (.inl hplace)⟩
      | relOb => exact .inr ⟨.inr hplace, hcounts (.inr hplace)⟩
      | unlisted =>
          rw [(hplaced.unlisted hplace).writing] at hwriting
          cases hwriting
      | batch =>
          have hmore := h'.batch (hsame.trans hplace)
          rw [hmap, h.counted.batch hplace] at hmore
          exact absurd hmore (by decide)
      | written =>
          have hmore := (h'.written (hsame.trans hplace)).1
          rw [hmap, (h.counted.written hplace).1] at hmore
          exact absurd hmore (by decide)
  | formDiskBatches noBlocks hidle hplace => exact (formDiskBatches_map_iff (h.listed (.inr hplace)) noBlocks).mp (h'.batch rfl)
  | handleConnect | handleDownloadRead | resumeDownload | delRequestTranLazy | delResponseTranLazy | checkPersistentConnection
  | processBatch
  | versionChange | writeDone | deletePerms => exact trivial

end Steps

/-- The counter of a response is right in every state of a run just when all steps count. -/
theorem map_counts_iff (genBufferLen : Nat) (start : Downloads.Start) {events : List Event} {r : Response}
    (hrun : (download genBufferLen start).Runs events r) :
    (∀ before r', before <+: events → (download genBufferLen start).Runs before r' → Counted r') ↔
      ((download genBufferLen start).restrict (Counts genBufferLen)).Runs events r := by
  have hinv : ((download genBufferLen start).restrict (Counts genBufferLen)).Invariant fun r => Placed r ∧ Sound genBufferLen r := by
    refine ⟨fun r hr => ?_, fun r e r' h hstep => ⟨h.1.next hstep.2, h.2.next h.1 hstep.1 hstep.2⟩⟩
    rw [hr]
    refine ⟨placed_start start, sound_of_place (.inl ?_)⟩
    cases start <;> rfl
  exact System.Runs.forall_prefix_iff (fun r r' hr hr' => hr.trans hr'.symm) (fun r e r₁ r₂ h₁ h₂ => Option.some.inj (h₁.symm.trans h₂))
    (fun labels r h => (hinv.holds h).2.counted) (fun labels r e r' h hstep h' => h'.counts (hinv.holds h).2 (hinv.holds h).1 hstep) hrun

/-- A response of one piece, from when it is read until it has been written. -/
def wholeRun : List Event :=
  [] ++ [Event.handleDownloadRead ⟨false, .ENTITY_COMPLETE, 100, 400, [100]⟩ .done [some 100] true] ++ [Event.prepareWrite] ++
    [Event.processBatch] ++ [Event.formDiskBatches false] ++ [Event.writeDone]

theorem map_counts_sample : ∃ r, (download 300 (.miss false false)).Runs wholeRun r ∧ r.place = .written ∧ Counted r := by
  have hrun : (download 300 (.miss false false)).Runs wholeRun _ := .step (.step (.step (.step (.step (.start rfl) rfl) rfl) rfl) rfl) rfl
  refine ⟨_, hrun, rfl, (map_counts_iff 300 (.miss false false) hrun).mpr ?_ _ _ (List.prefix_refl _) hrun⟩
  refine .step (.step (.step (.step (.step (.start rfl) ⟨trivial, rfl⟩) ⟨?_, rfl⟩) ⟨trivial, rfl⟩) ⟨?_, rfl⟩) ⟨trivial, rfl⟩
  · exact .inr ⟨.inl rfl, rfl, by decide⟩
  · exact .inr (.inl (by decide))

/-- The header of this one takes two blocks: `map` is 0 in the batch and 255 after the write, and the response stays where it is. -/
theorem map_miscounts : ∃ r, (download 2000 (.miss false false)).Runs wholeRun r ∧ r.place = .written ∧ r.map = 255 ∧
    r.batchAdd = true ∧ r.unlocked = 0 ∧ r.delResList = 0 ∧ ¬ Counted r := by
  refine ⟨_, .step (.step (.step (.step (.step (.start rfl) rfl) rfl) rfl) rfl) rfl, by decide, by decide, by decide, by decide,
    by decide, fun h => ?_⟩
  have hzero := (h.written (by decide)).1
  revert hzero
  decide

end BeagleCache.PendingWrites
