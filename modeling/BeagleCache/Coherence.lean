import Mathlib.Tactic
import BeagleCache.LogStore

/-! What the hot object cache shows of the log. The cache is asked by the offset of a block only, and the log comes back to
the same offsets with every version: what it shows is the block last written to the offset, or the one of the pending
batch that was put there by `getKBlocks`, as long as nothing else is cached under an offset that is written. -/

namespace BeagleCache.Store

open Hcfs Batches Transition Function Run

variable {β : Type}

/-- The block `getBlock` would return. -/
def cached (h : Hoc.Cache (Block β)) (off : Int) : Option (Block β) := (h.whichBlocks off).map fun id => (h.objects id).block

section Cached

variable {h h' : Hoc.Cache (Block β)} {off : Int} {b c : Block β} {out : List Nat}

theorem cached_eq_some : cached h off = some c ↔ ∃ id, h.whichBlocks off = some id ∧ (h.objects id).block = c := Option.map_eq_some_iff

theorem cached_of_found (hcached : cached h' off = some c)
    (hfound : ∀ x, h'.whichBlocks off = some x → h.whichBlocks off = some x ∧ (h'.objects x).block = (h.objects x).block) :
    cached h off = some c := by
  obtain ⟨x, hx, hblock⟩ := cached_eq_some.mp hcached
  obtain ⟨hold, hsame⟩ := hfound x hx
  exact cached_eq_some.mpr ⟨x, hold, hsame.symm.trans hblock⟩

theorem update_block {objects : Nat → Hoc.HotObject (Block β)} {id : Nat} {object : Hoc.HotObject (Block β)}
    (hsame : object.block = (objects id).block) (x : Nat) : (update objects id object x).block = (objects x).block := by
  by_cases hx : x = id
  · rw [hx, update_self, hsame]
  · rw [update_of_ne hx]

theorem markBlock_eq {remOffset : Int} {data : β} (hmarked : ∀ c ∈ cached h remOffset, c.data = data) : markBlock h remOffset data = h := by
  unfold markBlock
  split
  · rfl
  · rename_i id hid
    have hdata : (h.objects id).block.data = data := hmarked _ (cached_eq_some.mpr ⟨id, hid, rfl⟩)
    rw [← hdata]
    change { h with objects := update h.objects id (h.objects id) } = h
    rw [update_eq_self]

theorem cached_getBlock {remOffset : Int} (hcached : cached (Hoc.getBlock h remOffset).2 off = some c) : cached h off = some c := by
  unfold Hoc.getBlock at hcached
  split at hcached
  · exact hcached
  · refine cached_of_found hcached fun x hx => ⟨hx, ?_⟩
    apply update_block
    rfl

theorem cached_doneReading {remOffset : Int} (hcached : cached (Hoc.doneReading h remOffset) off = some c) : cached h off = some c := by
  unfold Hoc.doneReading at hcached
  split at hcached
  · exact hcached
  · refine cached_of_found hcached fun x hx => ⟨hx, ?_⟩
    apply update_block
    rfl

theorem cached_doneWriting {remOffset : Int} (hcached : cached (Hoc.doneWriting h remOffset) off = some c) : cached h off = some c := by
  unfold Hoc.doneWriting at hcached
  split at hcached
  · exact hcached
  · refine cached_of_found hcached fun x hx => ⟨?_, ?_⟩
    · change update h.whichBlocks remOffset none off = some x at hx
      by_cases hoff : off = remOffset
      · rw [hoff, update_self] at hx
        cases hx
      · rwa [update_of_ne hoff] at hx
    · apply update_block
      rfl

theorem cached_attach {id : Nat} {key : Int} (hs : Hoc.Struct out h) {h₂ : Hoc.Cache (Block β)} (hs₂ : Hoc.Struct (id :: out) h₂)
    (htook : Hoc.Took h h₂ id) (hobjects : ∀ x ≠ id, h'.objects x = h₂.objects x)
    (hwhich : h'.whichBlocks = update h₂.whichBlocks key (some id)) (hoff : off ≠ key) (hcached : cached h' off = some c) :
    cached h off = some c := by
  refine cached_of_found hcached fun x hx => ?_
  rw [hwhich, update_of_ne hoff] at hx
  obtain ⟨hold, hne⟩ := (htook.found hs hs₂).mp hx
  exact ⟨hold, by rw [hobjects x hne, htook.objects x ((hs.mapped _ _).mp hold).1]⟩

theorem cached_insertBlock {expandLimit : Nat} (hs : Hoc.Struct out h) (hout : out.length < h.created) {dat : Block β} {key : Int}
    {got : Nat × Hoc.Cache (Block β)} (hgot : Hoc.insertBlock expandLimit h dat key = .ok got) (hcached : cached got.2 off = some c) :
    cached h off = some c ∨ off = key ∧ c = dat := by
  cases hkey : h.whichBlocks key with
  | some id =>
      unfold Hoc.insertBlock at hgot
      rw [hkey] at hgot
      rw [← Except.ok.inj hgot] at hcached
      exact .inl hcached
  | none =>
      obtain ⟨id, h₁, hinsert, hs₁, htook, _⟩ := Hoc.insertBlock_absent expandLimit hs hout dat hkey
      rw [hinsert] at hgot
      rw [← Except.ok.inj hgot] at hcached
      by_cases hoff : off = key
      · obtain ⟨x, hx, hblock⟩ := cached_eq_some.mp hcached
        change update h₁.whichBlocks key (some id) off = some x at hx
        rw [hoff, update_self] at hx
        cases hx
        refine .inr ⟨hoff, hblock.symm.trans ?_⟩
        show (update (Hoc.attach h₁ id key).objects id
          { (Hoc.attach h₁ id key).objects id with block := dat, readLocks := 0, writeLocks := 0 } id).block = dat
        rw [update_self]
      · refine .inl (cached_attach hs hs₁ htook (fun x hx => ?_) rfl hoff hcached)
        exact (update_of_ne hx ..).trans (update_of_ne hx ..)

theorem cached_getKBlock {expandLimit : Nat} (hs : Hoc.Struct out h) (hout : out.length < h.created) {key : Int}
    {got : Nat × Hoc.Cache (Block β)} (hgot : Hoc.getKBlock expandLimit h key = .ok got) (hoff : off ≠ key)
    (hcached : cached got.2 off = some c) : cached h off = some c := by
  obtain ⟨id, h₁, hlock, hs₁, _, hcase⟩ := Hoc.getKBlock_spec expandLimit hs hout key
  rw [hlock] at hgot
  rw [← Except.ok.inj hgot] at hcached
  have hbefore : cached h₁ off = some c := by
    refine cached_of_found hcached fun x hx => ⟨hx, ?_⟩
    apply update_block
    rfl
  rcases hcase with ⟨_, rfl⟩ | ⟨_, h₂, rfl, hs₂, htook⟩
  · exact hbefore
  · exact cached_attach hs hs₂ htook (fun x hx => update_of_ne hx ..) rfl hoff hbefore

theorem cached_getKBlocks {d : Disks} {expandLimit : Nat} (k : Nat) (hs : Hoc.Struct [] h) (hpos : 0 < h.created) {key : Int}
    {got : List Nat × Hoc.Cache (Block β)} (hgot : Hoc.getKBlocks expandLimit d.numDisks h key k = .ok got)
    (hoff : off ∉ Hoc.keysFrom d.numDisks key k) (hcached : cached got.2 off = some c) : cached h off = some c := by
  induction k generalizing h key got with
  | zero =>
      rw [← Except.ok.inj hgot] at hcached
      exact hcached
  | succ k ih =>
      unfold Hoc.getKBlocks at hgot
      obtain ⟨first, hfirst, hgot⟩ := bind_eq_ok.mp hgot
      obtain ⟨rest, hrest, hgot⟩ := bind_eq_ok.mp hgot
      rw [← Except.ok.inj hgot] at hcached
      obtain ⟨hne, hlater⟩ := List.ne_and_not_mem_of_not_mem_cons hoff
      obtain ⟨id, h₁, hlock, hs₁, hmem, _⟩ := Hoc.getKBlock_spec expandLimit hs hpos key
      have hset := hs₁.setObject hmem { h₁.objects id with writeLocks := Hoc.toChar ((h₁.objects id).writeLocks + 1) } rfl
      have heq := Except.ok.inj (hfirst.symm.trans hlock)
      have hs' : Hoc.Struct [] first.2 := by
        rw [heq]
        exact hset.counters _ _
      have hpos' : 0 < first.2.created := by
        rw [heq]
        exact hset.created_pos hmem
      exact cached_getKBlock hs hpos hfirst hne (ih hs' hpos' hrest hlater hcached)

/-- The copied blocks are in their objects, and the other objects are as they were. -/
theorem copyBlocks_block (h : Hoc.Cache (Block β)) (ids : List Nat) (bs : List (Block β)) (hlength : ids.length = bs.length) (x : Nat) :
    (x ∉ ids ∧ ((copyBlocks h ids bs).objects x).block = (h.objects x).block) ∨
      ∃ i : Nat, ids[i]? = some x ∧ bs[i]? = some ((copyBlocks h ids bs).objects x).block := by
  induction ids generalizing h bs with
  | nil => exact .inl ⟨List.not_mem_nil, rfl⟩
  | cons id ids ih =>
      cases bs with
      | nil => cases hlength
      | cons b bs =>
          rcases ih (Hoc.setObject h id { h.objects id with block := b }) bs (Nat.succ.inj hlength) with ⟨hnot, hsame⟩ | ⟨i, hi, hb⟩
          · by_cases hx : x = id
            · refine .inr ⟨0, by rw [hx]; rfl, ?_⟩
              rw [copyBlocks, hsame, hx]
              show some b = some (update h.objects id { h.objects id with block := b } id).block
              rw [update_self]
            · refine .inl ⟨List.not_mem_cons_of_ne_of_not_mem hx hnot, ?_⟩
              rw [copyBlocks, hsame]
              exact congrArg Hoc.HotObject.block (update_of_ne hx _ h.objects)
          · exact .inr ⟨i + 1, hi, hb⟩

/-- Copying blocks changes nothing but the blocks. -/
structure SameLocks (h h' : Hoc.Cache (Block β)) : Prop where
  whichBlocks : h'.whichBlocks = h.whichBlocks
  allBlocks : h'.allBlocks = h.allBlocks
  freeList : h'.freeList = h.freeList
  created : h'.created = h.created
  object : ∀ x, (h'.objects x).readLocks = (h.objects x).readLocks ∧ (h'.objects x).writeLocks = (h.objects x).writeLocks ∧
    (h'.objects x).thisKey = (h.objects x).thisKey

theorem copyBlocks_same (h : Hoc.Cache (Block β)) (ids : List Nat) (bs : List (Block β)) : SameLocks h (copyBlocks h ids bs) := by
  induction ids generalizing h bs with
  | nil => exact ⟨rfl, rfl, rfl, rfl, fun _ => ⟨rfl, rfl, rfl⟩⟩
  | cons id ids ih =>
      cases bs with
      | nil => exact ⟨rfl, rfl, rfl, rfl, fun _ => ⟨rfl, rfl, rfl⟩⟩
      | cons b bs =>
          have hrest := ih (Hoc.setObject h id { h.objects id with block := b }) bs
          refine ⟨hrest.whichBlocks, hrest.allBlocks, hrest.freeList, hrest.created, fun x => ?_⟩
          obtain ⟨hread, hwrite, hkey⟩ := hrest.object x
          have hset : (update h.objects id { h.objects id with block := b } x).readLocks = (h.objects x).readLocks ∧
              (update h.objects id { h.objects id with block := b } x).writeLocks = (h.objects x).writeLocks ∧
              (update h.objects id { h.objects id with block := b } x).thisKey = (h.objects x).thisKey := by
            by_cases hx : x = id
            · rw [hx, update_self]
              exact ⟨rfl, rfl, rfl⟩
            · rw [update_of_ne hx]
              exact ⟨rfl, rfl, rfl⟩
          exact ⟨hread.trans hset.1, hwrite.trans hset.2.1, hkey.trans hset.2.2⟩

theorem SameLocks.struct (hsame : SameLocks h h') (hs : Hoc.Struct out h) : Hoc.Struct out h' where
  mapped := by
    intro key id
    rw [hsame.whichBlocks, hsame.allBlocks, (hsame.object id).2.2]
    exact hs.mapped key id
  places := by
    rw [hsame.allBlocks, hsame.freeList, hsame.created]
    exact hs.places
  free := by
    intro id hid
    rw [hsame.freeList] at hid
    rw [(hsame.object id).1, (hsame.object id).2.1]
    exact hs.free id hid

theorem SameLocks.pins (hsame : SameLocks h h') {readers writers : List (Int × Nat)} (hp : Hoc.Pins h readers writers) :
    Hoc.Pins h' readers writers where
  found := by
    rw [hsame.whichBlocks]
    exact hp.found
  readLocks := by
    intro key id hid
    rw [hsame.whichBlocks] at hid
    rw [(hsame.object id).1]
    exact hp.readLocks key id hid
  writeLocks := by
    intro key id hid
    rw [hsame.whichBlocks] at hid
    rw [(hsame.object id).2.1]
    exact hp.writeLocks key id hid
  few := hp.few

theorem keysFrom_eq (numDisks start k : Nat) :
    Hoc.keysFrom numDisks start k = (Stripe.blocks numDisks start k).map (Nat.cast : Nat → Int) := by
  induction k generalizing start with
  | zero => rfl
  | succ k ih =>
      rw [Stripe.blocks_succ, List.map_cons, ← ih, Nat.cast_add]
      rfl

theorem getKBlocks_length {d : Disks} {expandLimit k : Nat} {key : Int} {got : List Nat × Hoc.Cache (Block β)}
    (hgot : Hoc.getKBlocks expandLimit d.numDisks h key k = .ok got) : got.1.length = k := by
  induction k generalizing h key got with
  | zero => rw [← Except.ok.inj hgot]; rfl
  | succ k ih =>
      unfold Hoc.getKBlocks at hgot
      obtain ⟨first, _, hgot⟩ := bind_eq_ok.mp hgot
      obtain ⟨rest, hrest, hgot⟩ := bind_eq_ok.mp hgot
      rw [← Except.ok.inj hgot, List.length_cons, ih hrest]

end Cached

/-! ## The copy of a used object -/

section Keep

variable {d : Disks} {expandLimit : Nat} {h h' : Hoc.State (Block β)} {p : Placed β}

/-- The keys of an object are the places in the tailers of its blocks. -/
theorem keys_eq_pres {version : Nat} (hwhole : Whole d version p) :
    Hoc.keysFrom d.numDisks p.start p.response.allBlocks.length = p.blocks.map fun b => (b.tail.pres : Int) := by
  rw [keysFrom_eq, hwhole.length, ← hwhole.pres, List.map_map]
  rfl

theorem keepBlocks_spec {version : Nat} (hwhole : Whole d version p) (hinv : Hoc.Inv h) (hp : Hoc.Pins h.cache h.readers h.writers)
    (hfew : Hoc.Pinning d h (.getKBlocks p.response.allBlocks.length p.start)) (hkeep : keepBlocks d expandLimit h p = .ok h') :
    Hoc.Inv h' ∧ Hoc.Pins h'.cache h'.readers h'.writers ∧
      ∀ off c, cached h'.cache off = some c → cached h.cache off = some c ∨ c ∈ p.blocks ∧ off = c.tail.pres := by
  obtain ⟨got, hgot, hkeep⟩ := bind_eq_ok.mp hkeep
  rw [← Except.ok.inj hkeep]
  obtain ⟨got', hgot', hs, hpos⟩ := hinv.struct.getKBlocks d expandLimit p.response.allBlocks.length hinv.created p.start
  cases hgot.symm.trans hgot'
  have hp' := hp.getKBlocks p.response.allBlocks.length hinv.struct hinv.created hfew hgot
  have hsame := copyBlocks_same got.2 got.1 p.blocks
  have hlength : got.1.length = p.blocks.length := (getKBlocks_length hgot).trans hwhole.length
  refine ⟨⟨hsame.struct hs, hsame.created ▸ hpos, hinv.taken⟩, hsame.pins hp', fun off c hcached => ?_⟩
  obtain ⟨x, hx, hblock⟩ := cached_eq_some.mp hcached
  change (copyBlocks got.2 got.1 p.blocks).whichBlocks off = some x at hx
  rw [hsame.whichBlocks] at hx
  -- a lock of the call holds the object it got under its key
  have hlocked (i : Nat) (id : Nat) (b : Block β) (hid : got.1[i]? = some id) (hb : p.blocks[i]? = some b) :
      got.2.whichBlocks b.tail.pres = some id := by
    have hkey : (Hoc.keysFrom d.numDisks p.start p.response.allBlocks.length)[i]? = some (b.tail.pres : Int) := by
      rw [keys_eq_pres hwhole, List.getElem?_map, hb]
      rfl
    have hzip : ((b.tail.pres : Int), id) ∈ (Hoc.keysFrom d.numDisks p.start p.response.allBlocks.length).zip got.1 :=
      List.mem_of_getElem? (List.getElem?_zip_eq_some.mpr ⟨hkey, hid⟩)
    exact hp'.found _ (List.mem_append_right _ (List.mem_append_left _ (List.mem_reverse.mpr hzip)))
  rcases copyBlocks_block got.2 got.1 p.blocks hlength x with ⟨hnot, hold⟩ | ⟨i, hi, hb⟩
  · left
    have hoff : off ∉ Hoc.keysFrom d.numDisks p.start p.response.allBlocks.length := by
      rw [keys_eq_pres hwhole]
      intro hmem
      obtain ⟨b, hbmem, rfl⟩ := List.mem_map.mp hmem
      obtain ⟨i, hb⟩ := List.mem_iff_getElem?.mp hbmem
      have hlt : i < got.1.length := hlength ▸ (List.getElem?_eq_some_iff.mp hb).1
      have hfound := hlocked i _ b (List.getElem?_eq_getElem hlt) hb
      rw [hfound] at hx
      exact hnot (Option.some.inj hx ▸ List.getElem_mem hlt)
    refine cached_getKBlocks _ hinv.struct hinv.created hgot hoff (cached_eq_some.mpr ⟨x, hx, ?_⟩)
    exact hold.symm.trans hblock
  · right
    change ((copyBlocks got.2 got.1 p.blocks).objects x).block = c at hblock
    rw [hblock] at hb
    have hfound := hlocked i x c hi hb
    refine ⟨List.mem_of_getElem? hb, ?_⟩
    rw [← ((hs.mapped _ _).mp hx).2, ((hs.mapped _ _).mp hfound).2]

theorem insertBlocks_spec (hinv : Hoc.Inv h) (hp : Hoc.Pins h.cache h.readers h.writers) {bs : List (Block β)}
    (hinsert : insertBlocks d expandLimit h bs = .ok h') :
    Hoc.Inv h' ∧ Hoc.Pins h'.cache h'.readers h'.writers ∧
      ∀ off c, cached h'.cache off = some c → cached h.cache off = some c ∨ c ∈ bs ∧ off = c.tail.pres := by
  induction bs generalizing h with
  | nil =>
      rw [← Except.ok.inj hinsert]
      exact ⟨hinv, hp, fun _ _ hcached => .inl hcached⟩
  | cons b bs ih =>
      obtain ⟨h₁, hfirst, hrest⟩ := bind_eq_ok.mp hinsert
      have hinternal : (Hoc.Event.insertBlock b (b.tail.pres : Int)) ≠ .deleteLRU := by
        intro heq
        cases heq
      obtain ⟨h₁', hstep, hinv₁⟩ := hinv.step hinternal
      cases hfirst.symm.trans hstep
      have hp₁ := hp.step hinv (e := .insertBlock b b.tail.pres) trivial hfirst
      obtain ⟨hinv', hp', hcached'⟩ := ih hinv₁ hp₁ hrest
      refine ⟨hinv', hp', fun off c hcached => ?_⟩
      rcases hcached' off c hcached with hold | ⟨hmem, hoff⟩
      · obtain ⟨got, hgot, hh₁⟩ := bind_eq_ok.mp hfirst
        rw [← Except.ok.inj hh₁] at hold
        rcases cached_insertBlock hinv.struct hinv.created hgot hold with hbefore | ⟨hoff, heq⟩
        · exact .inl hbefore
        · exact .inr ⟨heq ▸ List.mem_cons_self, hoff.trans (heq ▸ rfl)⟩
      · exact .inr ⟨List.mem_cons_of_mem _ hmem, hoff⟩

end Keep

/-! ## Runs -/

/-- A block that was given a place and has not reached the log. -/
def Waiting (s : State β) (b : Block β) : Prop := (∃ i, b ∈ s.batches.blockLists i) ∨ ∃ w ∈ s.flights, b ∈ w.buffer

/-- Every cached block is the one the log has at its offset, or waits to be written there. -/
def Coherent (s : State β) : Prop :=
  ∀ off c, cached s.hoc.cache off = some c → (∃ n : Nat, off = n ∧ s.log n = c) ∨ Waiting s c ∧ off = c.tail.pres

/-- The step leaves no older block in the cache: nothing else is cached under an offset that is written, no block of a batch
that is dropped is cached, what a read brings is still what the log has, and no cached block is marked that is not marked already.
Batches and locks keep to their rules. -/
def KeepsFresh (d : Disks) (s : State β) : Event β → Prop
  | .batch e => StartsAlone d s.batches e ∧ ∀ deadline, e = .write deadline → Drops s.batches deadline →
      ∀ i < d.numDisks, ∀ b ∈ s.batches.blockLists i, cached s.hoc.cache b.tail.pres = none
  | .place used _ => ∀ p ∈ s.queue.head?, used = true → Hoc.Pinning d s.hoc (.getKBlocks p.response.allBlocks.length p.start)
  | .pwrite k => ∀ w ∈ s.flights[k]?, ∀ b ∈ w.buffer,
      cached s.hoc.cache b.tail.pres = none ∨ cached s.hoc.cache b.tail.pres = some b
  | .pread _ _ => True
  | .handleRead k => ∀ bs ∈ s.reads[k]?, ∀ b ∈ bs, s.log b.tail.pres = b
  | .getBlock remOffset => Hoc.Pinning d s.hoc (.getBlock remOffset)
  | .doneReading remOffset => Hoc.Pinning d s.hoc (.doneReading remOffset)
  | .doneWriting remOffset => Hoc.Pinning d s.hoc (.doneWriting remOffset)
  | .mark remOffset data => ∀ c ∈ cached s.hoc.cache remOffset, c.data = data

structure CoherentInv (d : Disks) (s : State β) : Prop where
  batches : Batches.Inv d s.batches
  flights : ∀ w ∈ s.flights, w ∈ s.batches.issued
  queue : ∀ p ∈ s.queue, (∃ version, Whole d version p) ∧ ∃ i, ∀ b ∈ p.blocks, b ∈ s.batches.blockLists i
  hoc : Hoc.Inv s.hoc
  pins : Hoc.Pins s.hoc.cache s.hoc.readers s.hoc.writers
  coherent : Coherent s

section Step

variable {d : Disks} {expandLimit numSets : Nat} {s s' : State β}

/-- A cached block is accounted for again if all that were cached before are, and the new ones wait or are in the log. -/
theorem Coherent.step (hcoherent : Coherent s)
    (hcached : ∀ off c, cached s'.hoc.cache off = some c → cached s.hoc.cache off = some c ∨
      (∃ n : Nat, off = n ∧ s'.log n = c) ∨ Waiting s' c ∧ off = c.tail.pres)
    (hlog : s'.log = s.log) (hwaiting : ∀ b, Waiting s b → Waiting s' b ∨ cached s'.hoc.cache b.tail.pres = none) : Coherent s' := by
  intro off c hc
  rcases hcached off c hc with hold | hnew
  · rcases hcoherent off c hold with hinLog | ⟨hwait, hoff⟩
    · rw [hlog]
      exact .inl hinLog
    · rcases hwaiting c hwait with hstill | hnone
      · exact .inr ⟨hstill, hoff⟩
      · rw [hoff, hnone] at hc
        cases hc
  · exact hnew

theorem CoherentInv.batchStep (hinv : CoherentInv d s) (e : Batches.Event β) (reported : Nat) (hfresh : KeepsFresh d s (.batch e)) :
    CoherentInv d (batchStep d s e reported) := by
  rcases batchStep_cases d s e reported with hsame | ⟨b, hnext, _, _, hstep⟩
  · rw [hsame]
    exact hinv
  · rw [hstep]
    have hbatches : Batches.Inv d b := (Batches.inv_invariant d).step _ _ _ hinv.batches ⟨hfresh.1, hnext⟩
    obtain ⟨⟨writes, hissued, hlists⟩, hplaced⟩ := batchNext_lists hinv.batches hnext
    have hnew : b.issued.drop s.batches.issued.length = writes := by rw [hissued, List.drop_left]
    refine ⟨hbatches, fun w hw => ?_, hplaced, hinv.hoc, hinv.pins, ?_⟩
    · show w ∈ b.issued
      rw [hissued]
      rw [hnew] at hw
      rcases List.mem_append.mp hw with hold | hlater
      · exact List.mem_append_left _ (hinv.flights w hold)
      · exact List.mem_append_right _ hlater
    · refine hinv.coherent.step (fun _ _ hc => .inl hc) rfl fun x hx => ?_
      rcases hx with ⟨i, hi⟩ | ⟨w, hw, hxw⟩
      · rcases hlists i x hi with hstays | ⟨w, hw, hxw⟩ | ⟨deadline, rfl, hdrops⟩
        · exact .inl (.inl ⟨i, hstays⟩)
        · exact .inl (.inr ⟨w, List.mem_append_right _ (hnew ▸ hw), hxw⟩)
        · -- the batch is dropped, and none of its blocks is cached
          have hlt : i < d.numDisks := by
            by_contra hout
            rw [hinv.batches.empty i (hinv.batches.outside i (Nat.le_of_not_lt hout)).1] at hi
            exact absurd hi List.not_mem_nil
          exact .inr (hfresh.2 deadline rfl hdrops i hlt x hi)
      · exact .inl (.inr ⟨w, List.mem_append_left _ hw, hxw⟩)

theorem CoherentInv.place (hinv : CoherentInv d s) {used : Bool} {matchNum : Option Nat} (hfresh : KeepsFresh d s (.place used matchNum))
    (hstep : placeStep d expandLimit numSets s used matchNum = .ok s') : CoherentInv d s' := by
  unfold placeStep at hstep
  cases hqueue : s.queue with
  | nil =>
      rw [hqueue] at hstep
      rw [← Except.ok.inj hstep]
      exact hinv
  | cons p queue =>
      rw [hqueue] at hstep
      obtain ⟨hoc, hkeep, hstep⟩ := bind_eq_ok.mp hstep
      obtain ⟨index, _, hstep⟩ := bind_eq_ok.mp hstep
      rw [← Except.ok.inj hstep]
      have hp := hinv.queue p (hqueue ▸ List.mem_cons_self)
      have hrest : ∀ p' ∈ queue, (∃ version, Whole d version p') ∧ ∃ i, ∀ b ∈ p'.blocks, b ∈ s.batches.blockLists i :=
        fun p' hp' => hinv.queue p' (hqueue ▸ List.mem_cons_of_mem _ hp')
      cases used with
      | false =>
          rw [← Except.ok.inj hkeep]
          exact ⟨hinv.batches, hinv.flights, hrest, hinv.hoc, hinv.pins,
            hinv.coherent.step (fun _ _ hc => .inl hc) rfl fun _ hx => .inl hx⟩
      | true =>
          obtain ⟨⟨version, hwhole⟩, i, hblocks⟩ := hp
          obtain ⟨hhoc, hpins, hcached⟩ := keepBlocks_spec hwhole hinv.hoc hinv.pins (hfresh p (by rw [hqueue]; rfl) rfl) hkeep
          refine ⟨hinv.batches, hinv.flights, hrest, hhoc, hpins, hinv.coherent.step (fun off c hc => ?_) rfl fun _ hx => .inl hx⟩
          rcases hcached off c hc with hold | ⟨hmem, hoff⟩
          · exact .inl hold
          · exact .inr (.inr ⟨.inl ⟨i, hblocks c hmem⟩, hoff⟩)

theorem CoherentInv.pwrite (hinv : CoherentInv d s) {k : Nat} (hfresh : KeepsFresh d s (.pwrite k)) :
    CoherentInv d (pwriteStep d s k) := by
  unfold pwriteStep
  cases hw : s.flights[k]? with
  | none => exact hinv
  | some w =>
      have hmem : w ∈ s.flights := List.mem_of_getElem? hw
      have haddressed := hinv.batches.issued w (hinv.flights w hmem)
      refine ⟨hinv.batches, fun w' hw' => hinv.flights w' (List.mem_of_mem_eraseIdx hw'), hinv.queue, hinv.hoc, hinv.pins,
        fun off c hc => ?_⟩
      -- a block that is cached where the request writes is the one it writes
      have hwritten (b : Block β) (hb : b ∈ w.buffer) (hoff : off = b.tail.pres) : c = b := by
        change cached s.hoc.cache off = some c at hc
        rw [hoff] at hc
        rcases hfresh w hw b hb with hnone | hsome
        · rw [hnone] at hc
          cases hc
        · exact Option.some.inj (hc.symm.trans hsome)
      have hinLog (n : Nat) (hoff : off = n) (hold : s.log n = c ∨ ∃ b ∈ w.buffer, b.tail.pres = n) : Store.pwrite d s.log w n = c := by
        rcases pwrite_cases s.log haddressed n with ⟨b, hb, hpres, hlog⟩ | ⟨hmiss, hlog⟩
        · rw [hlog, hwritten b hb (hoff.trans (congrArg _ hpres.symm))]
        · rcases hold with hsame | ⟨b, hb, hpres⟩
          · rw [hlog, hsame]
          · exact absurd hpres (hmiss b hb)
      rcases hinv.coherent off c hc with ⟨n, hoff, hlog⟩ | ⟨⟨i, hi⟩ | ⟨w', hw', hcw⟩, hoff⟩
      · exact .inl ⟨n, hoff, hinLog n hoff (.inl hlog)⟩
      · exact .inr ⟨.inl ⟨i, hi⟩, hoff⟩
      · by_cases hsame : w' = w
        · exact .inl ⟨c.tail.pres, hoff, hinLog _ hoff (.inr ⟨c, hsame ▸ hcw, rfl⟩)⟩
        · refine .inr ⟨.inr ⟨w', ?_, hcw⟩, hoff⟩
          obtain ⟨j, hj⟩ := List.mem_iff_getElem?.mp hw'
          have hjk : j ≠ k := fun heq => hsame (Option.some.inj ((heq ▸ hj).symm.trans hw))
          exact List.mem_eraseIdx_iff_getElem?.mpr ⟨j, hjk, hj⟩

theorem CoherentInv.handleRead (hinv : CoherentInv d s) {k : Nat} (hfresh : KeepsFresh d s (.handleRead k))
    (hstep : handleReadStep d expandLimit s k = .ok s') : CoherentInv d s' := by
  unfold handleReadStep at hstep
  cases hbs : s.reads[k]? with
  | none =>
      rw [hbs] at hstep
      rw [← Except.ok.inj hstep]
      exact hinv
  | some bs =>
      rw [hbs] at hstep
      obtain ⟨hoc, hinsert, hstep⟩ := bind_eq_ok.mp hstep
      rw [← Except.ok.inj hstep]
      obtain ⟨hhoc, hpins, hcached⟩ := insertBlocks_spec hinv.hoc hinv.pins hinsert
      refine ⟨hinv.batches, hinv.flights, hinv.queue, hhoc, hpins, hinv.coherent.step (fun off c hc => ?_) rfl fun _ hx => .inl hx⟩
      rcases hcached off c hc with hold | ⟨hmem, hoff⟩
      · exact .inl hold
      · exact .inr (.inl ⟨c.tail.pres, hoff, hfresh bs hbs c hmem⟩)

theorem CoherentInv.call (hinv : CoherentInv d s) {e : Hoc.Event (Block β)} (he : e ≠ .deleteLRU) (hpinning : Hoc.Pinning d s.hoc e)
    (hstep : callStep d expandLimit s e = .ok s')
    (hcached : ∀ hoc, Hoc.hocNext d expandLimit s.hoc e = .ok hoc →
      ∀ off c, cached hoc.cache off = some c → cached s.hoc.cache off = some c) :
    CoherentInv d s' := by
  obtain ⟨hoc, hnext, hstep⟩ := bind_eq_ok.mp hstep
  rw [← Except.ok.inj hstep]
  obtain ⟨hoc', hnext', hhoc⟩ := hinv.hoc.step he
  cases hnext.symm.trans hnext'
  have hpins := hinv.pins.step hinv.hoc hpinning hnext
  exact ⟨hinv.batches, hinv.flights, hinv.queue, hhoc, hpins,
    hinv.coherent.step (fun off c hc => .inl (hcached hoc hnext off c hc)) rfl fun _ hx => .inl hx⟩

theorem CoherentInv.storeNext (hinv : CoherentInv d s) {e : Event β} (hfresh : KeepsFresh d s e)
    (hstep : storeNext d expandLimit numSets s e = .ok s') : CoherentInv d s' := by
  cases e with
  | batch e =>
      cases e with
      | done =>
          rw [← Except.ok.inj hstep]
          exact hinv.batchStep _ 1 hfresh
      | arrive urls =>
          rw [← Except.ok.inj hstep]
          exact hinv.batchStep _ 0 hfresh
      | check =>
          rw [← Except.ok.inj hstep]
          exact hinv.batchStep _ 0 hfresh
      | form =>
          rw [← Except.ok.inj hstep]
          exact hinv.batchStep _ 0 hfresh
      | write deadline =>
          rw [← Except.ok.inj hstep]
          exact hinv.batchStep _ 0 hfresh
  | place used matchNum => exact hinv.place hfresh hstep
  | pwrite k =>
      rw [← Except.ok.inj hstep]
      exact hinv.pwrite hfresh
  | pread remOffset n =>
      rw [← Except.ok.inj hstep]
      exact ⟨hinv.batches, hinv.flights, hinv.queue, hinv.hoc, hinv.pins,
        hinv.coherent.step (fun _ _ hc => .inl hc) rfl fun _ hx => .inl hx⟩
  | handleRead k => exact hinv.handleRead hfresh hstep
  | getBlock remOffset =>
      change Hoc.Pinning d s.hoc (.getBlock remOffset) at hfresh
      refine hinv.call (fun heq => by cases heq) hfresh hstep fun hoc hnext off c hc => ?_
      rw [← Except.ok.inj hnext] at hc
      exact cached_getBlock hc
  | doneReading remOffset =>
      change Hoc.Pinning d s.hoc (.doneReading remOffset) at hfresh
      refine hinv.call (fun heq => by cases heq) hfresh hstep fun hoc hnext off c hc => ?_
      rw [← Except.ok.inj hnext] at hc
      exact cached_doneReading hc
  | doneWriting remOffset =>
      change Hoc.Pinning d s.hoc (.doneWriting remOffset) at hfresh
      refine hinv.call (fun heq => by cases heq) hfresh hstep fun hoc hnext off c hc => ?_
      rw [← Except.ok.inj hnext] at hc
      exact cached_doneWriting hc
  | mark remOffset data =>
      change _ = Except.ok s' at hstep
      rw [← Except.ok.inj hstep, markBlock_eq hfresh]
      exact hinv

end Step

theorem coherent_init (d : Disks) (log : Nat → Block β) (memory : Nat → Hoc.HotObject (Block β)) :
    CoherentInv d (storeInit log memory) where
  batches := (Batches.inv_invariant d).init _ rfl
  flights := fun w hw => absurd hw List.not_mem_nil
  queue := fun p hp => absurd hp List.not_mem_nil
  hoc := Hoc.inv_init memory
  pins := ((Hoc.pins_invariant d 0).init _ ⟨memory, rfl⟩).2
  coherent := by
    intro off c hc
    cases hc

theorem coherent_invariant (d : Disks) (expandLimit numSets : Nat) :
    ((storeSystem d expandLimit numSets).restrict (KeepsFresh d)).Invariant (CoherentInv (β := β) d) where
  init := by
    rintro s ⟨log, memory, rfl⟩
    exact coherent_init d log memory
  step := by
    rintro s e s' hinv ⟨hfresh, hstep⟩
    exact hinv.storeNext hfresh hstep

/-- In a run whose steps leave no older block in the cache, a block that `getBlock` returns is the one last written to its
offset, or one that waits to be written there. -/
theorem cache_coherent (d : Disks) (expandLimit numSets : Nat) (events : List (Event β)) (s : State β)
    (hrun : ((storeSystem d expandLimit numSets).restrict (KeepsFresh d)).Runs events s) (off : Int) (id : Nat)
    (hget : (Hoc.getBlock s.hoc.cache off).1 = some id) :
    (∃ n : Nat, off = n ∧ s.log n = (s.hoc.cache.objects id).block) ∨
      Waiting s (s.hoc.cache.objects id).block ∧ off = (s.hoc.cache.objects id).block.tail.pres := by
  apply ((coherent_invariant d expandLimit numSets).holds hrun).coherent
  refine cached_eq_some.mpr ⟨id, ?_, rfl⟩
  unfold Hoc.getBlock at hget
  split at hget
  · cases hget
  · rename_i id' hid
    rw [hid, Option.some.inj hget]

instance [DecidableEq β] (d : Disks) (s : State β) : DecidablePred (KeepsFresh d s)
  | .batch e => inferInstanceAs (Decidable (StartsAlone d s.batches e ∧ ∀ deadline, e = .write deadline → Drops s.batches deadline →
      ∀ i < d.numDisks, ∀ b ∈ s.batches.blockLists i, cached s.hoc.cache b.tail.pres = none))
  | .place used _ => inferInstanceAs (Decidable (∀ p ∈ s.queue.head?, used = true →
      Hoc.Pinning d s.hoc (.getKBlocks p.response.allBlocks.length p.start)))
  | .pwrite k => inferInstanceAs (Decidable (∀ w ∈ s.flights[k]?, ∀ b ∈ w.buffer,
      cached s.hoc.cache b.tail.pres = none ∨ cached s.hoc.cache b.tail.pres = some b))
  | .pread _ _ => inferInstanceAs (Decidable True)
  | .handleRead k => inferInstanceAs (Decidable (∀ bs ∈ s.reads[k]?, ∀ b ∈ bs, s.log b.tail.pres = b))
  | .getBlock remOffset => inferInstanceAs (Decidable (Hoc.Pinning d s.hoc (.getBlock remOffset)))
  | .doneReading remOffset => inferInstanceAs (Decidable (Hoc.Pinning d s.hoc (.doneReading remOffset)))
  | .doneWriting remOffset => inferInstanceAs (Decidable (Hoc.Pinning d s.hoc (.doneWriting remOffset)))
  | .mark remOffset data => inferInstanceAs (Decidable (∀ c ∈ cached s.hoc.cache remOffset, c.data = data))

/-- An object that was used is formed, kept in the cache and written. -/
def keptEvents : List (Event Nat) :=
  [.batch (.arrive [sampleResponse 1 2]), .batch .check, .batch .form, .place true (some 0), .batch .form, .batch (.write true), .pwrite 0,
    .batch .done]

/-- A block is read while the cache does not have it. -/
def readEvents : List (Event Nat) := [.pread 7 1, .handleRead 0]

theorem cache_coherent_kept : ∃ s, ((storeSystem smallLog 1 4).restrict (KeepsFresh smallLog)).Runs (keptEvents ++ readEvents) s ∧
    (Hoc.getBlock s.hoc.cache 2).1 = some 510 ∧ ((∃ n : Nat, (2 : Int) = n ∧ s.log n = (s.hoc.cache.objects 510).block) ∨
      Waiting s (s.hoc.cache.objects 510).block ∧ (2 : Int) = (s.hoc.cache.objects 510).block.tail.pres) := by
  obtain ⟨s, hfold, hget⟩ := @Run.exists_of_map _ _
    ((keptEvents ++ readEvents).foldlM (System.guarded (KeepsFresh smallLog) (storeNext smallLog 1 4) .exit) sampleStore)
    (fun s => (Hoc.getBlock s.hoc.cache 2).1) (some 510) (by decide +kernel)
  have hstart : ((storeSystem smallLog 1 4).restrict (KeepsFresh smallLog)).Runs [] sampleStore := .start ⟨_, _, rfl⟩
  have hrun := System.runs_guarded hstart hfold
  exact ⟨s, hrun, hget, cache_coherent smallLog 1 4 _ s hrun 2 510 hget⟩

/-- All writes are done, and `getBlock` finds at offset 18 the block of the first version while the log has that of the
second. -/
theorem cache_incoherent : ∃ s, (storeSystem smallLog 1 4).Runs rewriteEvents s ∧ s.flights = [] ∧
    (∀ i < smallLog.numDisks, s.batches.blockLists i = []) ∧
    ∃ id, (Hoc.getBlock s.hoc.cache 18).1 = some id ∧ (s.hoc.cache.objects id).block = ⟨1, 0, 18, 20, 9, 7⟩ ∧
      s.log 18 = ⟨3, 1, 18, 20, 9, 7⟩ := by
  obtain ⟨s, hfold, hstate⟩ := @Run.exists_of_map _ _ (rewriteEvents.foldlM (storeNext smallLog 1 4) sampleStore)
    (fun s => ([s.flights.length, (s.batches.blockLists 0).length, (s.batches.blockLists 1).length],
      (Hoc.getBlock s.hoc.cache 18).1.map fun id => (s.hoc.cache.objects id).block, s.log 18))
    ([0, 0, 0], some ⟨1, 0, 18, 20, 9, 7⟩, ⟨3, 1, 18, 20, 9, 7⟩) (by decide +kernel)
  have hstart : (storeSystem smallLog 1 4).Runs [] sampleStore := .start ⟨_, _, rfl⟩
  have hrun := System.runs_foldlM hstart hfold
  simp only [Prod.mk.injEq, List.cons.injEq, List.length_eq_zero_iff] at hstate
  obtain ⟨⟨hflights, hzero, hone, _⟩, hcached, hlog⟩ := hstate
  obtain ⟨id, hid, hblock⟩ := Option.map_eq_some_iff.mp hcached
  refine ⟨s, hrun, hflights, fun i hi => ?_, id, hid, hblock, hlog⟩
  have hdisks : smallLog.numDisks = 2 := rfl
  rw [hdisks] at hi
  interval_cases i
  · exact hzero
  · exact hone

end BeagleCache.Store
