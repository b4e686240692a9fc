import Mathlib.Tactic
import BeagleCache.LinkedList
import BeagleCache.Transition

/-! `writeData` (proxy.c): the bytes of the ranges that `toWrite` lists are copied into one block after the other. -/

namespace BeagleCache.BodyCopy

open DoublyLinked Function
open LinkedList
open Transition

/-- A memory of bytes. -/
abbrev Memory := Int → UInt8

/-- A `bufBlock`: its part from `wstart` to `end` is still to be copied. -/
structure BufBlock where
  buf : Memory
  wstart : Int
  endPos : Int
  del : Bool

/-- The parts of an `httpResponse` that are used, with the memory of the `bufBlock`s. -/
structure Response where
  blocks : Ptr → BufBlock
  toWrite : LinkedList Ptr
  prev : Option Ptr
  written : BitVec 32

def memcpy (dest : Memory) (place : Int) (src : Memory) (start n : Int) : Run Memory := do
  inBounds (0 ≤ n)
  return fun i => if place ≤ i ∧ i < place + n then src (start + (i - place)) else dest i

/-- What `writeData` notes of a block that is to be deleted. -/
def Response.markPrev (r : Response) (present : Ptr) : Response :=
  if (r.blocks present).del = true ∧ r.prev ≠ some present then
    { r with
      blocks := match r.prev with
        | none => r.blocks
        | some p => update r.blocks p { r.blocks p with del := false }
      prev := some present }
  else r

/-- The block at a pointer that `getPresentData` returned. -/
def presentBufBlock (r : Response) : Run Ptr := do
  match ← getPresentData r.toWrite with
  | none => .error .overrun
  | some present => return present

/-- The loop of `writeData`: what it returns, the response and the memory at `aData`. -/
def writeLoop : Nat → Response → Memory → Int → Int → Run (Int × Response × Memory)
  | 0, _, _, _, _ => .error .hang
  | fuel + 1, r, aData, remaining, readable =>
      if notEnd r.toWrite = true then do
        let present ← presentBufBlock r
        let size := (r.blocks present).endPos - (r.blocks present).wstart
        let r := r.markPrev present
        let block := r.blocks present
        if size ≤ 0 then do
          let d ← deletePresent r.toWrite
          writeLoop fuel { r with toWrite := d.2 } aData remaining readable
        else if size ≤ remaining then do
          let aData ← memcpy aData readable block.buf block.wstart size
          let d ← deletePresent r.toWrite
          writeLoop fuel { r with written := r.written + BitVec.ofInt 32 size, toWrite := d.2 } aData (remaining - size) (readable + size)
        else if remaining = 0 then return (readable, r, aData)
        else do
          let aData ← memcpy aData readable block.buf block.wstart remaining
          return (readable + remaining,
            { r with
              blocks := update r.blocks present { block with wstart := block.wstart + remaining }
              written := r.written + BitVec.ofInt 32 remaining }, aData)
      else return (readable, r, aData)

def writeData (fuel : Nat) (presentRTranPtr : Response) (aData : Memory) (remaining : Int) : Run (Int × Response × Memory) :=
  writeLoop fuel { presentRTranPtr with toWrite := startIter presentRTranPtr.toWrite } aData remaining 0

/-! ## Bytes in memory -/

/-- `n` bytes from a place. -/
def taken (m : Memory) (place : Int) (n : Nat) : List UInt8 := (List.range n).map fun i : Nat => m (place + i)

section Taken

variable {m m' : Memory} {place : Int} {n : Nat}

@[simp] theorem length_taken (m : Memory) (place : Int) (n : Nat) : (taken m place n).length = n := by simp [taken]

theorem taken_add (m : Memory) (place : Int) (n k : Nat) : taken m place (n + k) = taken m place n ++ taken m (place + n) k := by
  unfold taken
  rw [List.range_add, List.map_append, List.map_map]
  congr 1
  apply List.map_congr_left
  intro i _
  rw [Function.comp_apply, Nat.cast_add, add_assoc]

theorem taken_congr (h : ∀ i, place ≤ i → i < place + n → m i = m' i) : taken m place n = taken m' place n := by
  apply List.map_congr_left
  intro i hi
  rw [List.mem_range] at hi
  exact h _ (by omega) (by omega)

theorem memcpy_spec (dest : Memory) (place : Int) (src : Memory) (start : Int) (n : Nat) :
    ∃ m, memcpy dest place src start n = .ok m ∧ taken m place n = taken src start n ∧
      ∀ i, ¬(place ≤ i ∧ i < place + n) → m i = dest i := by
  unfold memcpy
  rw [inBounds_of (Int.natCast_nonneg n)]
  refine ⟨_, rfl, ?_, fun i hi => if_neg hi⟩
  apply List.map_congr_left
  intro i hi
  rw [List.mem_range] at hi
  dsimp only
  rw [if_pos ⟨by omega, by omega⟩, add_sub_cancel_left]

end Taken

/-- The bytes of a range. -/
def BufBlock.bytes (b : BufBlock) : List UInt8 := taken b.buf b.wstart (b.endPos - b.wstart).toNat

/-- The bytes that are still to be copied. -/
def bytes (blocks : Ptr → BufBlock) (seq : List (Ptr × Entry Ptr)) : List UInt8 := seq.flatMap fun x => (blocks x.2.data).bytes

section Blocks

variable (r : Response) (present : Ptr)

theorem markPrev_toWrite : (r.markPrev present).toWrite = r.toWrite := by
  unfold Response.markPrev
  split <;> rfl

theorem markPrev_written : (r.markPrev present).written = r.written := by
  unfold Response.markPrev
  split <;> rfl

theorem markPrev_blocks (k : Ptr) : ∃ d, (r.markPrev present).blocks k = { r.blocks k with del := d } := by
  unfold Response.markPrev
  split
  · cases r.prev with
    | none => exact ⟨_, rfl⟩
    | some p =>
        dsimp only
        by_cases hk : k = p
        · subst hk
          rw [update_self]
          exact ⟨false, rfl⟩
        · rw [update_of_ne hk]
          exact ⟨_, rfl⟩
  · exact ⟨_, rfl⟩

theorem bytes_congr {blocks blocks' : Ptr → BufBlock} {seq : List (Ptr × Entry Ptr)}
    (h : ∀ x ∈ seq, (blocks x.2.data).bytes = (blocks' x.2.data).bytes) : bytes blocks seq = bytes blocks' seq :=
  List.flatMap_congr h

theorem bytes_markPrev (seq : List (Ptr × Entry Ptr)) : bytes (r.markPrev present).blocks seq = bytes r.blocks seq := by
  apply bytes_congr
  intro x _
  obtain ⟨d, hd⟩ := markPrev_blocks r present x.2.data
  rw [hd]
  rfl

end Blocks

/-! ## One call -/

/-- `n` bytes have been copied to `place`, and the others are left. -/
structure Copies (r : Response) (seq : List (Ptr × Entry Ptr)) (aData : Memory) (place : Int) (n : Nat) (r' : Response)
    (seq' : List (Ptr × Entry Ptr)) (aData' : Memory) : Prop where
  linked : Linked r'.toWrite seq'
  shorter : seq'.length ≤ seq.length
  distinct : (seq'.map fun x => x.2.data).Nodup
  copied : bytes r.blocks seq = taken aData' place n ++ bytes r'.blocks seq'
  frame : ∀ i, ¬(place ≤ i ∧ i < place + n) → aData' i = aData i
  written : r'.written = r.written + BitVec.ofInt 32 n
  empty : seq' = [] ↔ bytes r'.blocks seq' = []

section Call

variable {r : Response} {seq ys : List (Ptr × Entry Ptr)} {k : Ptr} {b : Entry Ptr}

theorem presentBufBlock_spec (h : Linked r.toWrite ((k, b) :: ys)) (hiter : r.toWrite.iterator = some k) :
    presentBufBlock r = .ok b.data := by
  unfold presentBufBlock
  rw [getPresentData_spec (show Linked r.toWrite ([] ++ (k, b) :: ys) from h) hiter]
  rfl

theorem notEnd_spec (h : Linked r.toWrite seq) (hiter : r.toWrite.iterator = first seq) : notEnd r.toWrite = true ↔ seq ≠ [] := by
  unfold notEnd
  rw [Bool.not_eq_true', decide_eq_false_iff_not, hiter, h.size_eq_zero]
  cases seq <;> simp

theorem length_bytes_cons : (bytes r.blocks ((k, b) :: ys)).length =
    ((r.blocks b.data).endPos - (r.blocks b.data).wstart).toNat + (bytes r.blocks ys).length := by
  rw [bytes, List.flatMap_cons, List.length_append, BufBlock.bytes, length_taken]
  rfl

theorem Copies.skip {L' : LinkedList Ptr} {aData aData' : Memory} {place : Int} {n : Nat} {r' : Response} {seq' : List (Ptr × Entry Ptr)}
    (hnone : (r.blocks b.data).bytes = []) (h : Copies { r.markPrev b.data with toWrite := L' } ys aData place n r' seq' aData') :
    Copies r ((k, b) :: ys) aData place n r' seq' aData' where
  linked := h.linked
  shorter := h.shorter.trans (Nat.le_succ _)
  distinct := h.distinct
  copied := by
    have hcopied := h.copied
    rw [bytes_markPrev] at hcopied
    rw [← hcopied]
    exact congrArg (· ++ bytes r.blocks ys) hnone
  frame := h.frame
  written := h.written.trans (by rw [markPrev_written])
  empty := h.empty

theorem Copies.whole {L' : LinkedList Ptr} {aData m aData' : Memory} {place : Int} {size n : Nat} {r' : Response}
    {seq' : List (Ptr × Entry Ptr)}
    (hrange : (r.blocks b.data).bytes = taken m place size) (hm : ∀ i, ¬(place ≤ i ∧ i < place + size) → m i = aData i)
    (h : Copies { r.markPrev b.data with written := (r.markPrev b.data).written + BitVec.ofInt 32 size, toWrite := L' } ys m
      (place + size) n r' seq'
      aData') : Copies r ((k, b) :: ys) aData place (size + n) r' seq' aData' where
  linked := h.linked
  shorter := h.shorter.trans (Nat.le_succ _)
  distinct := h.distinct
  copied := by
    have hcopied := h.copied
    rw [bytes_markPrev] at hcopied
    have hkept : taken aData' place size = taken m place size := taken_congr fun i hlo hhi => h.frame i (by omega)
    calc bytes r.blocks ((k, b) :: ys) = (r.blocks b.data).bytes ++ bytes r.blocks ys := rfl
      _ = taken aData' place size ++ (taken aData' (place + size) n ++ bytes r'.blocks seq') := by rw [hrange, hkept, hcopied]
      _ = taken aData' place (size + n) ++ bytes r'.blocks seq' := by rw [taken_add, List.append_assoc]
  frame := fun i hi => (h.frame i (by omega)).trans (hm i (by omega))
  written := by
    rw [h.written, markPrev_written, BitVec.add_assoc, ← BitVec.ofInt_add]
    rfl
  empty := h.empty

theorem Copies.part {aData m : Memory} {place : Int} {size n : Nat} (h : Linked r.toWrite ((k, b) :: ys))
    (hdistinct : (((k, b) :: ys).map fun x => x.2.data).Nodup) (hsize : (r.blocks b.data).endPos - (r.blocks b.data).wstart = size)
    (hn : n < size)
    (hm : taken m place n = taken (r.blocks b.data).buf (r.blocks b.data).wstart n)
    (hframe : ∀ i, ¬(place ≤ i ∧ i < place + n) → m i = aData i) :
    Copies r ((k, b) :: ys) aData place n
      { r.markPrev b.data with
        blocks := update (r.markPrev b.data).blocks b.data
          { (r.markPrev b.data).blocks b.data with wstart := ((r.markPrev b.data).blocks b.data).wstart + n }
        written := (r.markPrev b.data).written + BitVec.ofInt 32 n } ((k, b) :: ys) m := by
  obtain ⟨d, hd⟩ := markPrev_blocks r b.data b.data
  have hother : bytes (update (r.markPrev b.data).blocks b.data
      { (r.markPrev b.data).blocks b.data with wstart := ((r.markPrev b.data).blocks b.data).wstart + n }) ys = bytes r.blocks ys := by
    rw [← bytes_markPrev r b.data ys]
    refine bytes_congr fun x hx => ?_
    have hne : x.2.data ≠ b.data := by
      rintro heq
      exact (List.nodup_cons.mp hdistinct).1 (List.mem_map.mpr ⟨x, hx, heq⟩)
    rw [update_of_ne hne]
  have hrest : (BufBlock.mk (r.blocks b.data).buf ((r.blocks b.data).wstart + n) (r.blocks b.data).endPos d).bytes =
      taken (r.blocks b.data).buf ((r.blocks b.data).wstart + n) (size - n) := by
    unfold BufBlock.bytes
    dsimp only
    congr 1
    omega
  have hleft : bytes (update (r.markPrev b.data).blocks b.data
      { (r.markPrev b.data).blocks b.data with wstart := ((r.markPrev b.data).blocks b.data).wstart + n }) ((k, b) :: ys) =
        taken (r.blocks b.data).buf ((r.blocks b.data).wstart + n) (size - n) ++ bytes r.blocks ys := by
    rw [← hother, ← hrest]
    unfold bytes
    rw [List.flatMap_cons]
    dsimp only
    rw [update_self, hd]
  refine ⟨by rwa [markPrev_toWrite], Nat.le_refl _, hdistinct, ?_, hframe, by rw [markPrev_written], ?_⟩
  · have hwhole : (r.blocks b.data).bytes = taken (r.blocks b.data).buf (r.blocks b.data).wstart (n + (size - n)) := by
      unfold BufBlock.bytes
      congr 1
      omega
    calc bytes r.blocks ((k, b) :: ys) = (r.blocks b.data).bytes ++ bytes r.blocks ys := rfl
      _ = taken m place n ++ (taken (r.blocks b.data).buf ((r.blocks b.data).wstart + n) (size - n) ++ bytes r.blocks ys) := by
        rw [hwhole, taken_add, hm, List.append_assoc]
      _ = _ := by rw [← hleft]
  · dsimp only
    rw [hleft]
    refine ⟨fun hnil => absurd hnil (List.cons_ne_nil _ _), fun hnil => ?_⟩
    have hlength := congrArg List.length hnil
    rw [List.length_append, length_taken, List.length_nil] at hlength
    omega

theorem Copies.stop {aData : Memory} {place : Int} {size : Nat} (h : Linked r.toWrite ((k, b) :: ys))
    (hdistinct : (((k, b) :: ys).map fun x => x.2.data).Nodup) (hsize : (r.blocks b.data).endPos - (r.blocks b.data).wstart = size)
    (hpos : 0 < size) : Copies r ((k, b) :: ys) aData place 0 (r.markPrev b.data) ((k, b) :: ys) aData := by
  refine ⟨by rwa [markPrev_toWrite], Nat.le_refl _, hdistinct, ?_, fun i _ => rfl, ?_, ?_⟩
  · rw [bytes_markPrev]
    rfl
  · rw [markPrev_written]
    exact (BitVec.add_zero r.written).symm
  · refine ⟨fun hnil => absurd hnil (List.cons_ne_nil _ _), fun hnil => ?_⟩
    have hlength := congrArg List.length hnil
    rw [bytes_markPrev, length_bytes_cons, hsize, Int.toNat_natCast, List.length_nil] at hlength
    omega

/-- By induction on the elements: each round takes one out, the last one at most in part. -/
theorem writeLoop_spec (h : Linked r.toWrite seq) (hiter : r.toWrite.iterator = first seq) (hdistinct : (seq.map fun x => x.2.data).Nodup)
    {fuel : Nat} (hfuel : seq.length < fuel) (aData : Memory) (remaining : Nat) (readable : Int) :
    ∃ (n : Nat) (r' : Response) (seq' : List (Ptr × Entry Ptr)) (aData' : Memory),
      writeLoop fuel r aData remaining readable = .ok (readable + n, r', aData') ∧
      n = min remaining (bytes r.blocks seq).length ∧ Copies r seq aData readable n r' seq' aData' := by
  induction seq generalizing r fuel aData remaining readable with
  | nil =>
      obtain ⟨m, rfl⟩ := Nat.exists_eq_add_one.mpr hfuel
      have hend : ¬notEnd r.toWrite = true := fun hnot => (notEnd_spec h hiter).mp hnot rfl
      refine ⟨0, r, [], aData, ?_, (Nat.min_zero remaining).symm, h, Nat.le_refl _, List.nodup_nil, rfl, fun i _ => rfl, ?_,
        by simp [bytes]⟩
      · rw [writeLoop, if_neg hend, Nat.cast_zero, add_zero]
        rfl
      · exact (BitVec.add_zero r.written).symm
  | cons x ys ih =>
      obtain ⟨k, b⟩ := x
      obtain ⟨m, rfl⟩ := Nat.exists_eq_add_one.mpr hfuel.pos
      have hgo : notEnd r.toWrite = true := (notEnd_spec h hiter).mpr (List.cons_ne_nil _ ys)
      have hys : (ys.map fun x => x.2.data).Nodup := (List.nodup_cons.mp hdistinct).2
      obtain ⟨L', hdelete, hL', hiter'⟩ := deletePresent_spec (show Linked r.toWrite ([] ++ (k, b) :: ys) from h) hiter
      have hlength : (bytes r.blocks ((k, b) :: ys)).length = _ := length_bytes_cons
      obtain ⟨d, hd⟩ := markPrev_blocks r b.data b.data
      rw [writeLoop, if_pos hgo, presentBufBlock_spec h hiter, Run.ok_bind]
      dsimp only
      rw [← markPrev_toWrite r b.data] at hdelete
      rw [hdelete, Run.ok_bind]
      by_cases hempty : (r.blocks b.data).endPos - (r.blocks b.data).wstart ≤ 0
      · have hzero := Int.toNat_of_nonpos hempty
        have hnone : (r.blocks b.data).bytes = [] := by
          rw [BufBlock.bytes, hzero]
          rfl
        obtain ⟨n, r', seq', aData', hrun, hn, hcopies⟩ := ih (r := { r.markPrev b.data with toWrite := L' }) hL' hiter' hys
          (Nat.lt_of_succ_lt_succ hfuel) aData remaining readable
        dsimp only at hn
        rw [bytes_markPrev] at hn
        refine ⟨n, r', seq', aData', ?_, ?_, hcopies.skip hnone⟩
        · rw [if_pos hempty]
          exact hrun
        · rw [hn, hlength, hzero, Nat.zero_add]
      · rw [if_neg hempty]
        obtain ⟨size, hsize⟩ := Int.eq_ofNat_of_zero_le (not_le.mp hempty).le
        rw [hsize, Int.toNat_natCast] at hlength
        rw [hsize] at hempty ⊢
        by_cases hwhole : size ≤ remaining
        · obtain ⟨m', hcopy, hm, hframe⟩ := memcpy_spec aData readable ((r.markPrev b.data).blocks b.data).buf
            ((r.markPrev b.data).blocks b.data).wstart size
          have hrange : (r.blocks b.data).bytes = taken m' readable size := by
            rw [hm, BufBlock.bytes, hsize, hd]
            rfl
          obtain ⟨n, r', seq', aData', hrun, hn, hcopies⟩ := ih
            (r := { r.markPrev b.data with written := (r.markPrev b.data).written + BitVec.ofInt 32 size, toWrite := L' }) hL' hiter' hys
            (Nat.lt_of_succ_lt_succ hfuel) m' (remaining - size) (readable + size)
          dsimp only at hn
          rw [bytes_markPrev] at hn
          refine ⟨size + n, r', seq', aData', ?_, ?_, Copies.whole hrange hframe hcopies⟩
          · rw [if_pos (Int.ofNat_le.mpr hwhole), hcopy, Run.ok_bind, Run.ok_bind, ← Int.ofNat_sub hwhole, hrun, Nat.cast_add, add_assoc]
          · rw [hn, hlength]
            omega
        · have hpart : ¬(size : Int) ≤ remaining := fun hle => hwhole (Int.ofNat_le.mp hle)
          rw [if_neg hpart]
          by_cases hfull : remaining = 0
          · subst hfull
            refine ⟨0, r.markPrev b.data, (k, b) :: ys, aData, ?_, (Nat.zero_min _).symm, Copies.stop h hdistinct hsize (by omega)⟩
            rw [Nat.cast_zero, if_pos rfl, add_zero]
            rfl
          · obtain ⟨m', hcopy, hm, hframe⟩ := memcpy_spec aData readable ((r.markPrev b.data).blocks b.data).buf
              ((r.markPrev b.data).blocks b.data).wstart remaining
            rw [hd] at hm
            refine ⟨remaining, _, (k, b) :: ys, m', ?_, by omega, Copies.part h hdistinct hsize (by omega) hm hframe⟩
            rw [if_neg (by omega), hcopy, Run.ok_bind]
            rfl

end Call

/-! ## One call after the other -/

/-- The response, and all bytes that have been copied. -/
structure Trace where
  response : Response
  copied : List UInt8

/-- A call with its block, and the room in it. -/
structure Call where
  aData : Memory
  remaining : Int

def Trace.next (fuel : Nat) (t : Trace) (c : Call) : Run Trace := do
  let w ← writeData fuel t.response c.aData c.remaining
  return ⟨w.2.1, t.copied ++ taken w.2.2 0 w.1.toNat⟩

def writeSystem (fuel : Nat) (start : Response) : System Trace Call where
  init := fun t => t = ⟨start, []⟩
  step := fun t c t' => 0 ≤ c.remaining ∧ t.next fuel c = .ok t'

section Calls

variable {start : Response} {seq : List (Ptr × Entry Ptr)} {fuel : Nat} {t : Trace}

theorem writeData_spec {r : Response} {seq : List (Ptr × Entry Ptr)} (h : Linked r.toWrite seq)
    (hdistinct : (seq.map fun x => x.2.data).Nodup)
    {fuel : Nat} (hfuel : seq.length < fuel) (aData : Memory) (remaining : Nat) :
    ∃ (n : Nat) (r' : Response) (seq' : List (Ptr × Entry Ptr)) (aData' : Memory), writeData fuel r aData remaining = .ok (n, r', aData') ∧
      n = min remaining (bytes r.blocks seq).length ∧ Copies r seq aData 0 n r' seq' aData' := by
  have hstart : Linked (startIter r.toWrite) seq := ⟨h.nodup, h.nodes, h.head, h.tail, h.size⟩
  obtain ⟨n, r', seq', aData', hrun, hn, hcopies⟩ :=
    writeLoop_spec (r := { r with toWrite := startIter r.toWrite }) hstart h.head hdistinct hfuel aData remaining 0
  rw [zero_add] at hrun
  exact ⟨n, r', seq', aData', hrun, hn, hcopies.linked, hcopies.shorter, hcopies.distinct, hcopies.copied, hcopies.frame, hcopies.written,
    hcopies.empty⟩

/-- The bytes that have been copied, and those that are left, are all bytes. -/
structure Reached (start : Response) (seq : List (Ptr × Entry Ptr)) (t : Trace) (left : List (Ptr × Entry Ptr)) : Prop where
  linked : Linked t.response.toWrite left
  shorter : left.length ≤ seq.length
  distinct : (left.map fun x => x.2.data).Nodup
  total : bytes start.blocks seq = t.copied ++ bytes t.response.blocks left
  written : t.response.written = start.written + BitVec.ofInt 32 t.copied.length

theorem Reached.call {left : List (Ptr × Entry Ptr)} (h : Reached start seq t left) (hfuel : seq.length < fuel) (aData : Memory)
    (remaining : Nat) :
    ∃ (n : Nat) (r' : Response) (seq' : List (Ptr × Entry Ptr)) (aData' : Memory),
      writeData fuel t.response aData remaining = .ok (n, r', aData') ∧
      n = min remaining (bytes t.response.blocks left).length ∧ Copies t.response left aData 0 n r' seq' aData' ∧
      Reached start seq ⟨r', t.copied ++ taken aData' 0 n⟩ seq' := by
  obtain ⟨n, r', seq', aData', hrun, hn, hcopies⟩ := writeData_spec h.linked h.distinct (lt_of_le_of_lt h.shorter hfuel) aData remaining
  refine ⟨n, r', seq', aData', hrun, hn, hcopies, hcopies.linked, hcopies.shorter.trans h.shorter, hcopies.distinct, ?_, ?_⟩
  · rw [h.total, hcopies.copied, List.append_assoc]
  · rw [hcopies.written, h.written, BitVec.add_assoc, ← BitVec.ofInt_add, List.length_append, length_taken]
    rfl

theorem reached_runs (h : Linked start.toWrite seq) (hdistinct : (seq.map fun x => x.2.data).Nodup) (hfuel : seq.length < fuel)
    {calls : List Call}
    (hrun : (writeSystem fuel start).Runs calls t) : ∃ left, Reached start seq t left := by
  have hinv : (writeSystem fuel start).Invariant fun t => ∃ left, Reached start seq t left := by
    refine ⟨fun t ht => ?_, fun t c t' hreached hstep => ?_⟩
    · rw [ht]
      exact ⟨seq, h, Nat.le_refl _, hdistinct, rfl, (BitVec.add_zero start.written).symm⟩
    · obtain ⟨left, hleft⟩ := hreached
      obtain ⟨hpos, hnext⟩ := hstep
      obtain ⟨remaining, hremaining⟩ := Int.eq_ofNat_of_zero_le hpos
      obtain ⟨n, r', seq', aData', hcall, -, -, hleft'⟩ := hleft.call hfuel c.aData remaining
      rw [Trace.next, hremaining, hcall, Run.ok_bind] at hnext
      cases hnext
      exact ⟨seq', hleft'⟩
  exact hinv.holds hrun

/-- Whatever has been copied by some calls, the next one copies the bytes that follow, as many as there is room for. -/
theorem writeData_copies (h : Linked start.toWrite seq) (hdistinct : (seq.map fun x => x.2.data).Nodup) (hfuel : seq.length < fuel)
    {calls : List Call} (hrun : (writeSystem fuel start).Runs calls t) :
    t.copied <+: bytes start.blocks seq ∧ t.response.written = start.written + BitVec.ofInt 32 t.copied.length ∧
    ∀ c : Call, 0 ≤ c.remaining → ∃ (n : Nat) (r' : Response) (aData' : Memory),
      writeData fuel t.response c.aData c.remaining = .ok (n, r', aData') ∧
      (n : Int) = min c.remaining ((bytes start.blocks seq).length - t.copied.length) ∧
      taken aData' 0 n = ((bytes start.blocks seq).drop t.copied.length).take n ∧
      (∀ i, ¬(0 ≤ i ∧ i < n) → aData' i = c.aData i) ∧
      r'.written = t.response.written + BitVec.ofInt 32 n ∧
      (t.response.written.toInt + n < 2 ^ 31 → r'.written.toInt = t.response.written.toInt + n) ∧
      (r'.toWrite.size = 0 ↔ t.copied.length + n = (bytes start.blocks seq).length) := by
  obtain ⟨left, hleft⟩ := reached_runs h hdistinct hfuel hrun
  refine ⟨⟨_, hleft.total.symm⟩, hleft.written, fun c hpos => ?_⟩
  obtain ⟨remaining, hremaining⟩ := Int.eq_ofNat_of_zero_le hpos
  obtain ⟨n, r', seq', aData', hcall, hn, hcopies, -⟩ := hleft.call hfuel c.aData remaining
  have htotal := congrArg List.length hleft.total
  have hbytes := congrArg List.length hcopies.copied
  rw [List.length_append] at htotal hbytes
  rw [length_taken] at hbytes
  refine ⟨n, r', aData', ?_, ?_, ?_, fun i hi => hcopies.frame i (by omega), hcopies.written, fun hbound => ?_, ?_⟩
  · rw [hremaining]
    exact hcall
  · rw [hremaining]
    omega
  · rw [hleft.total, List.drop_left, hcopies.copied]
    exact (List.take_left' (length_taken aData' 0 n)).symm
  · have hleast := BitVec.le_toInt t.response.written
    rw [hcopies.written, BitVec.toInt_add, BitVec.toInt_ofInt, Int.add_bmod_bmod]
    exact Int.bmod_eq_of_le (by omega) (by omega)
  · rw [hcopies.linked.size_eq_zero, hcopies.empty, ← List.length_eq_zero_iff]
    omega

end Calls

/-- Two ranges: one with five bytes, and one without any. -/
def ranges : List (Ptr × Entry Ptr) := [(1, ⟨0, 100⟩), (2, ⟨0, 200⟩)]

def sample : Response where
  blocks := fun p => ⟨fun i => UInt8.ofInt i, 0, if p = 100 then 5 else 0, false⟩
  toWrite := ⟨seg none none ranges, some 1, some 2, 2, none⟩
  prev := none
  written := 0

/-- The first three of five bytes. -/
theorem writeData_copies_three : ∃ (r' : Response) (aData' : Memory), writeData 3 sample (fun _ => 0) 3 = .ok (3, r', aData') ∧
    taken aData' 0 3 = [0, 1, 2] ∧ ¬r'.toWrite.size = 0 := by
  have hlinked : Linked sample.toWrite ranges := ⟨by decide, rfl, rfl, rfl, rfl⟩
  have hdistinct : (ranges.map fun x => x.2.data).Nodup := by decide
  have hfuel : ranges.length < 3 := by decide
  obtain ⟨-, -, hnext⟩ := writeData_copies hlinked hdistinct hfuel (.start rfl)
  obtain ⟨n, r', aData', hcall, hn, htaken, -, -, -, hempty⟩ := hnext ⟨fun _ => 0, 3⟩ (by decide)
  obtain rfl : n = 3 := Int.ofNat_inj.mp (hn.trans (by decide))
  exact ⟨r', aData', hcall, htaken.trans (by decide), mt hempty.mp (by decide)⟩

end BeagleCache.BodyCopy
