import BeagleCache.TableStore
import BeagleCache.ChunkCache

/-! The temporary cache as it is in the memory: `tmp_ht`, a hash table of pointers to `CacheValue`s, whose counts of references are changed
in place. Its functions are the ones of the table of names. -/

namespace BeagleCache.TempTable

open HashTable TableStore Transition

/-- `chunk_hash_from_key_fn_raw`. -/
def chunkHashFromKeyFnRaw (sha1name : Sha1Name) : BitVec 32 := BitVec.ofNat 32 (sha1name.bytes.map BitVec.toNat).sum

/-- `tmp_ht`. -/
abbrev ChunkTable := Store Sha1Name CacheValue

section Functions

variable (limit : Nat → Nat) (cfg : Config) (sha1 : Bytes → Sha1Name)

/-- `_PutHT`, with memory for the key, the value and the block. -/
def putHT (ht : ChunkTable) (sha1name : Sha1Name) (buffer : Bytes) (m : Malloc) : Run ChunkTable := do
  let found ← ht.search chunkHashFromKeyFnRaw sha1name
  check (found = none)
  ht.insert chunkHashFromKeyFnRaw limit sha1name ⟨buffer, 1⟩ m

/-- `_RemoveHT`. -/
def removeHT (ht : ChunkTable) (sha1name : Sha1Name) : Run ChunkTable := do
  let r ← ht.remove chunkHashFromKeyFnRaw sha1name
  match r.1 with
  | none => .error .assertion
  | some value => r.2.free value

/-- `RefPutChunkCallback`. -/
def refPutChunkCallback (tmpHt : ChunkTable) (sha1name : Sha1Name) (buffer : Bytes) (m : Malloc) : Run ChunkTable := do
  check (verifySHA1 cfg sha1 buffer sha1name)
  if buffer.length = 0 then return tmpHt
  else do
    let found ← tmpHt.search chunkHashFromKeyFnRaw sha1name
    match found with
    | none => do
        check (buffer.length ≤ maxChunkSize)
        let tmpHt ← putHT limit tmpHt sha1name buffer m
        let _ ← tmpHt.search chunkHashFromKeyFnRaw sha1name
        return tmpHt
    | some p => do
        let value ← tmpHt.read p
        check (1 ≤ value.refCount)
        tmpHt.write p { value with refCount := value.refCount + 1 }

/-- `RefFlushChunk`. -/
def refFlushChunk (tmpHt : ChunkTable) (sha1name : Sha1Name) : Run ChunkTable := do
  let found ← tmpHt.search chunkHashFromKeyFnRaw sha1name
  match found with
  | none => .error .assertion
  | some p => do
      let value ← tmpHt.read p
      check (0 < value.pBlock.length)
      let value := { value with refCount := value.refCount - 1 }
      let tmpHt ← tmpHt.write p value
      check (0 ≤ value.refCount)
      if value.refCount = 0 then removeHT tmpHt sha1name else return tmpHt

/-- `EmptyTempMemCache`. -/
def emptyTempMemCache (tmpHt : ChunkTable) : Run ChunkTable :=
  if hashtableCount tmpHt.ht = 0 then .ok tmpHt
  else tmpHt.drain (hashtableCount tmpHt.ht) (hashtableIterator tmpHt.ht)

/-- A call on the temporary cache. -/
inductive TempCall
  | refPut (sha1name : Sha1Name) (buffer : Bytes) (m : Malloc)
  | refFlush (sha1name : Sha1Name)
  | empty

def tableNext (tmpHt : ChunkTable) : TempCall → Run ChunkTable
  | .refPut sha1name buffer m => refPutChunkCallback limit cfg sha1 tmpHt sha1name buffer m
  | .refFlush sha1name => refFlushChunk tmpHt sha1name
  | .empty => emptyTempMemCache tmpHt

/-- The call on the table of names. -/
def cacheNext (tmp : TempCache) : TempCall → Run TempCache
  | .refPut sha1name buffer _ => BeagleCache.refPutChunkCallback cfg sha1 tmp sha1name buffer
  | .refFlush sha1name => BeagleCache.refFlushChunk tmp sha1name
  | .empty => .ok emptyTempCache

/-- What a call allocates is new. -/
def Allocates (tmpHt : ChunkTable) : TempCall → Prop
  | .refPut _ _ m => m.Fresh tmpHt
  | _ => True

/-- `tmp_ht` from `CreateCache` on. -/
def tableSystem : System ChunkTable TempCall :=
  (System.ofNext (fun t => ∃ h, createHashtable limit 65536 = some h ∧ t = ⟨h, fun _ => none⟩) (tableNext limit cfg sha1)).restrict
    Allocates

def cacheSystem : System TempCache TempCall := .ofNext (· = emptyTempCache) (cacheNext cfg sha1)

end Functions

/-! ## The table is the one of names -/

section Refinement

variable {limit : Nat → Nat} {cfg : Config} {sha1 : Bytes → Sha1Name} {t : ChunkTable} {tmp : TempCache} {sha1name : Sha1Name}

/-- The table has the values of a table of names. -/
abbrev Shows (t : ChunkTable) (tmp : TempCache) : Prop := Stores chunkHashFromKeyFnRaw t tmp

variable (limit) in
theorem putHT_spec (h : Shows t tmp) (hnone : tmp sha1name = none) {m : Malloc} (hfresh : m.Fresh t) (buffer : Bytes) :
    ∃ t', putHT limit t sha1name buffer m = .ok t' ∧ Shows t' (Function.update tmp sha1name (some ⟨buffer, 1⟩)) := by
  obtain ⟨t', hinsert, hshows, -⟩ := h.insert limit hnone hfresh ⟨buffer, 1⟩
  refine ⟨t', ?_, hshows⟩
  obtain ⟨-, hsearch⟩ | ⟨value, p, -, hhas⟩ := h.search sha1name
  · rw [putHT, hsearch, Run.ok_bind, check_of rfl]
    exact hinsert
  · exact absurd (hhas.value.symm.trans hnone) (Option.some_ne_none value)

theorem removeHT_spec (h : Shows t tmp) {value : CacheValue} (hsome : tmp sha1name = some value) :
    ∃ t', removeHT t sha1name = .ok t' ∧ Shows t' (Function.update tmp sha1name none) := by
  obtain ⟨hnone, -⟩ | ⟨old, p, t', t'', -, hremove, -, hfree, hshows⟩ := h.remove sha1name
  · exact absurd (hsome.symm.trans hnone) (Option.some_ne_none value)
  · refine ⟨t'', ?_, hshows⟩
    rw [removeHT, hremove]
    exact hfree

theorem refPut_agree (h : Shows t tmp) {m : Malloc} (hfresh : m.Fresh t) (buffer : Bytes) :
    Agree Shows (refPutChunkCallback limit cfg sha1 t sha1name buffer m)
      (BeagleCache.refPutChunkCallback cfg sha1 tmp sha1name buffer) := by
  refine Agree.check _ fun _ => ?_
  by_cases hempty : buffer.length = 0
  · rw [if_pos hempty, if_pos hempty]
    exact .returned h
  rw [if_neg hempty, if_neg hempty]
  unfold searchCache
  obtain ⟨hnone, hsearch⟩ | ⟨value, p, hsearch, hhas⟩ := h.search sha1name
  · rw [hsearch, hnone]
    refine Agree.check _ fun _ => ?_
    obtain ⟨t', hput, hshows⟩ := putHT_spec limit h hnone hfresh buffer
    obtain ⟨hgone, -⟩ | ⟨value, p, hagain, -⟩ := hshows.search sha1name
    · rw [Function.update_self] at hgone
      cases hgone
    · rw [hput, Run.ok_bind, hagain]
      exact .returned hshows
  · rw [hsearch, hhas.value, Run.ok_bind]
    show Agree Shows (t.read p >>= _) _
    rw [hhas.read]
    refine Agree.check _ fun _ => ?_
    obtain ⟨t', hcall, hshows⟩ := hhas.write { value with refCount := value.refCount + 1 }
    rw [hcall]
    exact .returned hshows

theorem refFlush_agree (h : Shows t tmp) : Agree Shows (refFlushChunk t sha1name) (BeagleCache.refFlushChunk tmp sha1name) := by
  unfold refFlushChunk BeagleCache.refFlushChunk searchCache
  obtain ⟨hnone, hsearch⟩ | ⟨value, p, hsearch, hhas⟩ := h.search sha1name
  · rw [hsearch, hnone]
    exact .failed _
  · rw [hsearch, hhas.value, Run.ok_bind]
    show Agree Shows (t.read p >>= _) _
    rw [hhas.read]
    refine Agree.check _ fun _ => ?_
    obtain ⟨t', hcall, hshows⟩ := hhas.write { value with refCount := value.refCount - 1 }
    rw [hcall]
    refine Agree.check _ fun _ => ?_
    by_cases hzero : value.refCount - 1 = 0
    · obtain ⟨t'', hremove, hshows'⟩ := removeHT_spec hshows (Function.update_self ..)
      rw [if_pos hzero, if_pos hzero, hremove]
      rw [Function.update_idem] at hshows'
      exact .returned hshows'
    · rw [if_neg hzero, if_neg hzero]
      exact .returned hshows

theorem empty_agree (h : Shows t tmp) : ∃ t', emptyTempMemCache t = .ok t' ∧ Shows t' emptyTempCache ∧ t'.values = fun _ => none := by
  by_cases hcount : hashtableCount t.ht = 0
  · obtain ⟨hnone, hvalues⟩ := h.of_count hcount
    refine ⟨t, ?_, ?_, hvalues⟩
    · rw [emptyTempMemCache, if_pos hcount]
    · rwa [hnone] at h
  · obtain ⟨t', hcall, hshows, hvalues⟩ := h.drain hcount
    refine ⟨t', ?_, hshows, hvalues⟩
    rw [emptyTempMemCache, if_neg hcount, hcall]

theorem table_agrees (h : Shows t tmp) {call : TempCall} (hcall : Allocates t call) :
    Agree Shows (tableNext limit cfg sha1 t call) (cacheNext cfg sha1 tmp call) := by
  cases call with
  | refPut sha1name buffer m => exact refPut_agree h hcall buffer
  | refFlush sha1name => exact refFlush_agree h
  | empty =>
      obtain ⟨t', hcall, hshows, -⟩ := empty_agree h
      rw [tableNext, hcall]
      exact .returned hshows

theorem table_simulates_cache : System.Simulation (tableSystem limit cfg sha1) (cacheSystem cfg sha1) Shows where
  init := by
    rintro t ⟨h, hcreate, rfl⟩
    exact ⟨_, rfl, stores_create hcreate⟩
  step := by
    rintro t tmp call t' hshows ⟨hallocates, hstep⟩
    have hagree : Agree Shows (tableNext limit cfg sha1 t call) (cacheNext cfg sha1 tmp call) := table_agrees hshows hallocates
    rw [show tableNext limit cfg sha1 t call = .ok t' from hstep] at hagree
    cases h : cacheNext cfg sha1 tmp call with
    | ok tmp' =>
        rw [h] at hagree
        cases hagree with
        | returned hshows' => exact ⟨tmp', h, hshows'⟩
    | error f =>
        rw [h] at hagree
        cases hagree

/-- The value that `SearchCache` gives for a name. -/
def valueOf (t : ChunkTable) (sha1name : Sha1Name) : Run (Option CacheValue) := do
  let found ← t.search chunkHashFromKeyFnRaw sha1name
  match found with
  | none => return none
  | some p => do
      let value ← t.read p
      return some value

theorem valueOf_eq (h : Shows t tmp) (sha1name : Sha1Name) : valueOf t sha1name = .ok (searchCache tmp sha1name) := by
  unfold valueOf searchCache
  obtain ⟨hnone, hsearch⟩ | ⟨value, p, hsearch, hhas⟩ := h.search sha1name
  · rw [hsearch, hnone]
    rfl
  · rw [hsearch, hhas.value, Run.ok_bind]
    show (t.read p >>= _) = _
    rw [hhas.read]
    rfl

theorem error_of_check {γ : Type} {p : Prop} [Decidable p] {x : Run γ} {f : Fault} (h : (check p >>= fun _ => x) = .error f) :
    f = .assertion ∨ x = .error f := by
  unfold check at h
  split at h
  · exact .inr h
  · cases h
    exact .inl rfl

theorem refPut_fault {buffer : Bytes} {f : Fault} (h : BeagleCache.refPutChunkCallback cfg sha1 tmp sha1name buffer = .error f) :
    f = .assertion := by
  obtain hf | h := error_of_check h
  · exact hf
  · split at h
    · cases h
    · cases hold : searchCache tmp sha1name with
      | none =>
          rw [hold] at h
          obtain hf | h := error_of_check h
          · exact hf
          · cases h
      | some value =>
          rw [hold] at h
          obtain hf | h := error_of_check h
          · exact hf
          · cases h

theorem refFlush_fault {f : Fault} (h : BeagleCache.refFlushChunk tmp sha1name = .error f) : f = .assertion := by
  unfold BeagleCache.refFlushChunk at h
  cases hold : searchCache tmp sha1name with
  | none =>
      rw [hold] at h
      cases h
      rfl
  | some value =>
      rw [hold] at h
      obtain hf | h := error_of_check h
      · exact hf
      · obtain hf | h := error_of_check h
        · exact hf
        · split at h <;> cases h

theorem cacheNext_fault {call : TempCall} {f : Fault} (h : cacheNext cfg sha1 tmp call = .error f) : f = .assertion := by
  cases call with
  | refPut sha1name buffer m => exact refPut_fault h
  | refFlush sha1name => exact refFlush_fault h
  | empty => cases h

/-- After any calls, the table in the memory answers as the table of names does. The next call on it returns, or fails an `assert`, as
on that table: it never reads or frees what was freed before. `EmptyTempMemCache` leaves no value. -/
theorem temp_table_refines {calls : List TempCall} (hrun : (tableSystem limit cfg sha1).Runs calls t) :
    ∃ tmp, (cacheSystem cfg sha1).Runs calls tmp ∧ (∀ sha1name, valueOf t sha1name = .ok (searchCache tmp sha1name)) ∧
      hashtableCount t.ht = {sha1name | tmp sha1name ≠ none}.ncard ∧
      (∀ call, Allocates t call → Agree Shows (tableNext limit cfg sha1 t call) (cacheNext cfg sha1 tmp call)) ∧
      (∀ call f, Allocates t call → tableNext limit cfg sha1 t call = .error f → f = .assertion) ∧
      ∃ t', emptyTempMemCache t = .ok t' ∧ t'.values = fun _ => none := by
  obtain ⟨tmp, hcache, hshows⟩ := table_simulates_cache.runs hrun
  obtain ⟨t', hempty, -, hvalues⟩ := empty_agree hshows
  refine ⟨tmp, hcache, valueOf_eq hshows, hshows.count, fun call hcall => table_agrees hshows hcall, ?_, t', hempty, hvalues⟩
  intro call f hcall hfault
  have hagree : Agree Shows (tableNext limit cfg sha1 t call) (cacheNext cfg sha1 tmp call) := table_agrees hshows hcall
  rw [hfault] at hagree
  generalize hnext : cacheNext cfg sha1 tmp call = r at hagree
  cases hagree with
  | failed => exact cacheNext_fault hnext

theorem runs_next {calls : List TempCall} (hrun : (tableSystem limit cfg sha1).Runs calls t) (h : Shows t tmp) (call : TempCall)
    (hcall : Allocates t call) {tmp' : TempCache} (hnext : cacheNext cfg sha1 tmp call = .ok tmp') :
    ∃ t', (tableSystem limit cfg sha1).Runs (calls ++ [call]) t' ∧ Shows t' tmp' := by
  have hagree : Agree Shows (tableNext limit cfg sha1 t call) (cacheNext cfg sha1 tmp call) := table_agrees h hcall
  rw [hnext] at hagree
  generalize htable : tableNext limit cfg sha1 t call = r at hagree
  cases hagree with
  | returned hshows => exact ⟨_, hrun.step ⟨hcall, htable⟩, hshows⟩

/-- A chunk is put twice, and flushed once. -/
theorem temp_table_refines_shared : ∃ m m' t tmp,
    (tableSystem id {} fun _ => default).Runs [.refPut default [1] m, .refPut default [1] m', .refFlush default] t ∧
      (cacheSystem {} fun _ => default).Runs [.refPut default [1] m, .refPut default [1] m', .refFlush default] tmp ∧
      valueOf t default = .ok (searchCache tmp default) ∧ valueOf t default = .ok (some ⟨[1], 1⟩) := by
  obtain ⟨h, hcreate⟩ : ∃ h : Hashtable Sha1Name Ptr, createHashtable id 65536 = some h := ⟨_, rfl⟩
  have hstart : (tableSystem id {} fun _ => default).Runs [] ⟨h, fun _ => none⟩ := .start ⟨h, hcreate, rfl⟩
  have hempty : Shows ⟨h, fun _ => none⟩ emptyTempCache := stores_create hcreate
  obtain ⟨m, hfresh⟩ := hempty.fresh
  obtain ⟨t₁, hone, hshows₁⟩ := runs_next hstart hempty (.refPut default [1] m) hfresh rfl
  obtain ⟨m', hfresh'⟩ := hshows₁.fresh
  obtain ⟨t₂, htwo, hshows₂⟩ := runs_next hone hshows₁ (.refPut default [1] m') hfresh' rfl
  obtain ⟨t₃, hthree, hshows₃⟩ := runs_next htwo hshows₂ (.refFlush default) trivial rfl
  obtain ⟨tmp, hcache, hvalue, -⟩ := temp_table_refines hthree
  exact ⟨m, m', t₃, tmp, hthree, hcache, hvalue default, valueOf_eq hshows₃ default⟩

end Refinement

end BeagleCache.TempTable
