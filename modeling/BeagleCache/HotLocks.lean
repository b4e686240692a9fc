import Mathlib.Tactic
import BeagleCache.HotObjects

/-! The locks of the hot object cache. Who calls `getBlock` reads the block until it calls `doneReading`, who calls
`getKBlocks` writes the blocks until it calls `doneWriting`; the cache only counts, in a `char`, and `doneWriting` gives the
object away whatever the counts say. -/

namespace BeagleCache.Hoc

open Transition Function

variable {β : Type}

/-- How many of the locks that were taken and not given back are for a key. -/
def pins (locks : List (Int × Nat)) (key : Int) : Nat := locks.countP fun t => t.1 = key

/-- The locks that were taken and not given back: each holds its object under its key, and the counters of an object are
their numbers. -/
structure Pins (h : Cache β) (readers writers : List (Int × Nat)) : Prop where
  found : ∀ t ∈ readers ++ writers, h.whichBlocks t.1 = some t.2
  readLocks : ∀ key id, h.whichBlocks key = some id → (h.objects id).readLocks = pins readers key
  writeLocks : ∀ key id, h.whichBlocks key = some id → (h.objects id).writeLocks = pins writers key
  few : ∀ key, pins readers key ≤ 127

section Pins

variable {out : List Nat} {h h' : Cache β} {readers writers : List (Int × Nat)} {id : Nat} {key : Int}

theorem pins_pos {locks : List (Int × Nat)} {t : Int × Nat} (ht : t ∈ locks) : 0 < pins locks t.1 :=
  List.countP_pos_iff.mpr ⟨t, ht, decide_eq_true rfl⟩

theorem pins_cons_self (locks : List (Int × Nat)) (key : Int) (id : Nat) : pins ((key, id) :: locks) key = pins locks key + 1 :=
  List.countP_cons_of_pos (decide_eq_true rfl)

theorem pins_cons_of_ne {locks : List (Int × Nat)} {key key' : Int} (id : Nat) (hne : key' ≠ key) :
    pins ((key, id) :: locks) key' = pins locks key' :=
  List.countP_cons_of_neg (by simpa using Ne.symm hne)

theorem Pins.pins_eq_zero (hp : Pins h readers writers) (hkey : h.whichBlocks key = none) :
    pins readers key = 0 ∧ pins writers key = 0 := by
  constructor
  · refine List.countP_eq_zero.mpr fun t ht => ?_
    intro heq
    have hfound := hp.found t (List.mem_append_left _ ht)
    rw [of_decide_eq_true heq, hkey] at hfound
    cases hfound
  · refine List.countP_eq_zero.mpr fun t ht => ?_
    intro heq
    have hfound := hp.found t (List.mem_append_right _ ht)
    rw [of_decide_eq_true heq, hkey] at hfound
    cases hfound

theorem Pins.idle (hp : Pins h readers writers) (hs : Struct out h) (htook : Took h h' id) :
    (h'.objects id).readLocks = 0 ∧ (h'.objects id).writeLocks = 0 ∧ ∀ t ∈ readers ++ writers, t.2 ≠ id := by
  by_cases hmem : id ∈ h.allBlocks
  · have hread := hp.readLocks _ _ (hs.find hmem)
    have hwrite := hp.writeLocks _ _ (hs.find hmem)
    have hidle := htook.idle
    rw [htook.objects id hmem] at hidle ⊢
    refine ⟨by omega, by omega, fun t ht heq => ?_⟩
    have hkey := (hs.mapped _ _).mp (hp.found t ht)
    rw [heq] at hkey
    rw [hkey.2] at hread hwrite
    rcases List.mem_append.mp ht with hreader | hwriter
    · have hpos := pins_pos hreader
      omega
    · have hpos := pins_pos hwriter
      omega
  · obtain ⟨hread, hwrite⟩ := htook.fresh hmem
    refine ⟨hread, hwrite, fun t ht heq => ?_⟩
    exact hmem (heq ▸ ((hs.mapped _ _).mp (hp.found t ht)).1)

theorem Pins.took (hp : Pins h readers writers) (hs : Struct out h) {out' : List Nat} (hs' : Struct out' h') (htook : Took h h' id) :
    Pins h' readers writers where
  found := by
    intro t ht
    exact (htook.found hs hs').mpr ⟨hp.found t ht, (hp.idle hs htook).2.2 t ht⟩
  readLocks := by
    intro key x hx
    have hold := ((htook.found hs hs').mp hx).1
    rw [htook.objects x ((hs.mapped _ _).mp hold).1]
    exact hp.readLocks key x hold
  writeLocks := by
    intro key x hx
    have hold := ((htook.found hs hs').mp hx).1
    rw [htook.objects x ((hs.mapped _ _).mp hold).1]
    exact hp.writeLocks key x hold
  few := hp.few

theorem toChar_of_small {n : Int} (hpos : 0 ≤ n) (hsmall : n ≤ 127) : toChar n = n := by
  unfold toChar
  omega

theorem Pins.attach (hp : Pins h readers writers) (hs : Struct (id :: out) h) (hkey : h.whichBlocks key = none) (object : HotObject β)
    (hread : object.readLocks = 0) (hwrite : object.writeLocks = 0) (hobjects : h'.objects = update h.objects id object)
    (hwhich : h'.whichBlocks = update h.whichBlocks key (some id)) : Pins h' readers writers := by
  have hcases {key' : Int} {x : Nat} (hx : h'.whichBlocks key' = some x) :
      key' = key ∧ x = id ∨ h.whichBlocks key' = some x ∧ x ≠ id := by
    rw [hwhich] at hx
    by_cases hsame : key' = key
    · rw [hsame, update_self] at hx
      exact .inl ⟨hsame, (Option.some.inj hx).symm⟩
    · rw [update_of_ne hsame] at hx
      exact .inr ⟨hx, fun heq => hs.not_mem_out.1 (heq ▸ ((hs.mapped _ _).mp hx).1)⟩
  have hzero := hp.pins_eq_zero hkey
  refine ⟨fun t ht => ?_, fun key' x hx => ?_, fun key' x hx => ?_, hp.few⟩
  · have hfound := hp.found t ht
    have hne : t.1 ≠ key := by
      intro heq
      rw [heq, hkey] at hfound
      cases hfound
    rw [hwhich, update_of_ne hne]
    exact hfound
  · rw [hobjects]
    rcases hcases hx with ⟨rfl, rfl⟩ | ⟨hold, hne⟩
    · rw [update_self, hread, hzero.1]
      rfl
    · rw [update_of_ne hne]
      exact hp.readLocks key' x hold
  · rw [hobjects]
    rcases hcases hx with ⟨rfl, rfl⟩ | ⟨hold, hne⟩
    · rw [update_self, hwrite, hzero.2]
      rfl
    · rw [update_of_ne hne]
      exact hp.writeLocks key' x hold

/-- The counters of one object change together with the locks on its key. -/
theorem Pins.relock (hp : Pins h readers writers) (hs : Struct out h) (hkey : h.whichBlocks key = some id)
    {readers' writers' : List (Int × Nat)} {object : HotObject β} (hobjects : h'.objects = update h.objects id object)
    (hwhich : h'.whichBlocks = h.whichBlocks) (hfound : ∀ t ∈ readers' ++ writers', t ∈ readers ++ writers ∨ t = (key, id))
    (hread : object.readLocks = pins readers' key) (hwrite : object.writeLocks = pins writers' key)
    (hreaders : ∀ key' ≠ key, pins readers' key' = pins readers key') (hwriters : ∀ key' ≠ key, pins writers' key' = pins writers key')
    (hfew : pins readers' key ≤ 127) : Pins h' readers' writers' := by
  have hother {key' : Int} {x : Nat} (hx : h.whichBlocks key' = some x) (hne : key' ≠ key) : x ≠ id := by
    intro heq
    have h₁ := ((hs.mapped _ _).mp hx).2
    have h₂ := ((hs.mapped _ _).mp hkey).2
    rw [heq] at h₁
    exact hne (h₁.symm.trans h₂)
  refine ⟨fun t ht => ?_, fun key' x hx => ?_, fun key' x hx => ?_, fun key' => ?_⟩
  · rw [hwhich]
    rcases hfound t ht with hold | hnew
    · exact hp.found t hold
    · rw [hnew]
      exact hkey
  · rw [hwhich] at hx
    rw [hobjects]
    by_cases hsame : key' = key
    · rw [hsame, hkey] at hx
      rw [← Option.some.inj hx, update_self, hsame, hread]
    · rw [update_of_ne (hother hx hsame), hreaders key' hsame]
      exact hp.readLocks key' x hx
  · rw [hwhich] at hx
    rw [hobjects]
    by_cases hsame : key' = key
    · rw [hsame, hkey] at hx
      rw [← Option.some.inj hx, update_self, hsame, hwrite]
    · rw [update_of_ne (hother hx hsame), hwriters key' hsame]
      exact hp.writeLocks key' x hx
  · by_cases hsame : key' = key
    · rw [hsame]
      exact hfew
    · rw [hreaders key' hsame]
      exact hp.few key'

/-- The lock of a key is given back. -/
def unlock (locks : List (Int × Nat)) (key : Int) : List (Int × Nat) := locks.eraseP fun t => t.1 = key

theorem unlock_cons_self (locks : List (Int × Nat)) (key : Int) (id : Nat) : unlock ((key, id) :: locks) key = locks :=
  List.eraseP_cons_of_pos (decide_eq_true rfl)

theorem unlock_cons_of_ne {locks : List (Int × Nat)} {key key' : Int} (id : Nat) (hne : key' ≠ key) :
    unlock ((key', id) :: locks) key = (key', id) :: unlock locks key :=
  List.eraseP_cons_of_neg (by simpa using hne)

theorem pins_unlock_self (locks : List (Int × Nat)) (key : Int) : pins (unlock locks key) key = pins locks key - 1 := by
  induction locks with
  | nil => rfl
  | cons t locks ih =>
      obtain ⟨k, i⟩ := t
      by_cases hkey : k = key
      · rw [hkey, unlock_cons_self, pins_cons_self]
        rfl
      · rw [unlock_cons_of_ne i hkey, pins_cons_of_ne i (Ne.symm hkey), ih, pins_cons_of_ne i (Ne.symm hkey)]

theorem pins_unlock_of_ne (locks : List (Int × Nat)) {key key' : Int} (hne : key' ≠ key) :
    pins (unlock locks key) key' = pins locks key' := by
  induction locks with
  | nil => rfl
  | cons t locks ih =>
      obtain ⟨k, i⟩ := t
      by_cases hkey : k = key
      · rw [hkey, unlock_cons_self, pins_cons_of_ne i hne]
      · rw [unlock_cons_of_ne i hkey]
        by_cases hkey' : key' = k
        · rw [hkey', pins_cons_self, pins_cons_self, ← hkey', ih]
        · rw [pins_cons_of_ne i hkey', pins_cons_of_ne i hkey', ih]

theorem unlock_of_pins_eq_zero {locks : List (Int × Nat)} (hzero : pins locks key = 0) : unlock locks key = locks :=
  List.eraseP_of_forall_not (List.countP_eq_zero.mp hzero)

theorem mem_of_mem_unlock {locks : List (Int × Nat)} {t : Int × Nat} (ht : t ∈ unlock locks key) : t ∈ locks := List.mem_of_mem_eraseP ht

theorem Pins.getBlock (hp : Pins h readers writers) (hs : Struct out h) {remOffset : Int} (hfew : pins readers remOffset < 127) :
    Pins (getBlock h remOffset).2 (((getBlock h remOffset).1.map fun id => (remOffset, id)).toList ++ readers) writers := by
  unfold Hoc.getBlock
  split
  · exact hp
  · rename_i id hid
    have hlocks := hp.readLocks _ _ hid
    refine hp.relock hs hid rfl rfl (fun t ht => ?_) ?_ (hp.writeLocks _ _ hid) (fun key' hne => pins_cons_of_ne id hne)
      (fun _ _ => rfl) ?_
    · rcases List.mem_append.mp ht with hreader | hwriter
      · rcases List.mem_cons.mp hreader with hnew | hold
        · exact .inr hnew
        · exact .inl (List.mem_append_left _ hold)
      · exact .inl (List.mem_append_right _ hwriter)
    · show toChar ((h.objects id).readLocks + 1) = (pins ((remOffset, id) :: readers) remOffset : Nat)
      rw [pins_cons_self, hlocks, toChar_of_small (by omega) (by omega)]
      rfl
    · show pins ((remOffset, id) :: readers) remOffset ≤ 127
      rw [pins_cons_self]
      exact hfew

theorem Pins.doneReading (hp : Pins h readers writers) (hs : Struct out h) {remOffset : Int}
    (hheld : h.whichBlocks remOffset ≠ none → 0 < pins readers remOffset) :
    Pins (doneReading h remOffset) (unlock readers remOffset) writers := by
  unfold Hoc.doneReading
  split
  · rename_i hnone
    rw [unlock_of_pins_eq_zero (hp.pins_eq_zero hnone).1]
    exact hp
  · rename_i id hid
    have hlocks := hp.readLocks _ _ hid
    have hpos := hheld (by rw [hid]; exact Option.some_ne_none id)
    have hmost := hp.few remOffset
    refine hp.relock hs hid rfl rfl (fun t ht => ?_) ?_ (hp.writeLocks _ _ hid) (fun key' hne => pins_unlock_of_ne readers hne)
      (fun _ _ => rfl) ?_
    · rcases List.mem_append.mp ht with hreader | hwriter
      · exact .inl (List.mem_append_left _ (mem_of_mem_unlock hreader))
      · exact .inl (List.mem_append_right _ hwriter)
    · show toChar ((h.objects id).readLocks - 1) = (pins (unlock readers remOffset) remOffset : Nat)
      rw [pins_unlock_self, hlocks, toChar_of_small (by omega) (by omega)]
      omega
    · rw [pins_unlock_self]
      omega

theorem Pins.doneWriting (hp : Pins h readers writers) (hs : Struct out h) {remOffset : Int}
    (hlast : h.whichBlocks remOffset ≠ none → pins readers remOffset = 0 ∧ pins writers remOffset ≤ 1) :
    Pins (doneWriting h remOffset) readers (unlock writers remOffset) := by
  unfold Hoc.doneWriting
  split
  · rename_i hnone
    rw [unlock_of_pins_eq_zero (hp.pins_eq_zero hnone).2]
    exact hp
  · rename_i id hid
    obtain ⟨hreaders, hwriters⟩ := hlast (by rw [hid]; exact Option.some_ne_none id)
    have hcases {key' : Int} {x : Nat} (hx : update h.whichBlocks remOffset none key' = some x) :
        key' ≠ remOffset ∧ h.whichBlocks key' = some x ∧ x ≠ id := by
      by_cases hsame : key' = remOffset
      · rw [hsame, update_self] at hx
        cases hx
      · rw [update_of_ne hsame] at hx
        refine ⟨hsame, hx, fun heq => hsame ?_⟩
        have h₁ := ((hs.mapped _ _).mp hx).2
        rw [heq, ((hs.mapped _ _).mp hid).2] at h₁
        exact h₁.symm
    refine ⟨fun t ht => ?_, fun key' x hx => ?_, fun key' x hx => ?_, hp.few⟩
    · have hne : t.1 ≠ remOffset := by
        intro heq
        rcases List.mem_append.mp ht with hreader | hwriter
        · have hpos := pins_pos hreader
          rw [heq] at hpos
          omega
        · have hpos := pins_pos hwriter
          rw [heq, pins_unlock_self] at hpos
          omega
      show update h.whichBlocks remOffset none t.1 = some t.2
      rw [update_of_ne hne]
      rcases List.mem_append.mp ht with hreader | hwriter
      · exact hp.found t (List.mem_append_left _ hreader)
      · exact hp.found t (List.mem_append_right _ (mem_of_mem_unlock hwriter))
    · obtain ⟨_, hold, hne⟩ := hcases hx
      show (update h.objects id _ x).readLocks = _
      rw [update_of_ne hne]
      exact hp.readLocks key' x hold
    · obtain ⟨hother, hold, hne⟩ := hcases hx
      show (update h.objects id _ x).writeLocks = _
      rw [update_of_ne hne, pins_unlock_of_ne writers hother]
      exact hp.writeLocks key' x hold

theorem Pins.insertBlock (expandLimit : Nat) (hp : Pins h readers writers) (hs : Struct out h) (hout : out.length < h.created)
    (dat : β) (remOffset : Int) {got : Nat × Cache β} (hgot : insertBlock expandLimit h dat remOffset = .ok got) :
    Pins got.2 readers writers := by
  cases hkey : h.whichBlocks remOffset with
  | some id =>
      unfold Hoc.insertBlock at hgot
      rw [hkey] at hgot
      rw [← Except.ok.inj hgot]
      exact ⟨hp.found, hp.readLocks, hp.writeLocks, hp.few⟩
  | none =>
      obtain ⟨id, h₁, hinsert, hs₁, htook, hnone⟩ := insertBlock_absent expandLimit hs hout dat hkey
      rw [hinsert] at hgot
      rw [← Except.ok.inj hgot]
      refine (hp.took hs hs₁ htook).attach hs₁ hnone
        { (Hoc.attach h₁ id remOffset).objects id with block := dat, readLocks := 0, writeLocks := 0 } rfl rfl ?_ rfl
      exact update_idem ..

theorem Pins.getKBlock (expandLimit : Nat) (hp : Pins h readers writers) (hs : Struct out h) (hout : out.length < h.created)
    (hfew : pins writers key < 127) {got : Nat × Cache β} (hgot : getKBlock expandLimit h key = .ok got) :
    Struct out got.2 ∧ Pins got.2 readers ((key, got.1) :: writers) := by
  obtain ⟨id, h₁, hlock, hs₁, hmem, hcase⟩ := getKBlock_spec expandLimit hs hout key
  rw [hlock] at hgot
  rw [← Except.ok.inj hgot]
  have hp₁ : Pins h₁ readers writers ∧ h₁.whichBlocks key = some id := by
    rcases hcase with ⟨hfound, rfl⟩ | ⟨hnone, h₂, rfl, hs₂, htook⟩
    · exact ⟨hp, hfound⟩
    · have hidle := hp.idle hs htook
      have hnone₂ : h₂.whichBlocks key = none := by
        refine Option.eq_none_iff_forall_ne_some.mpr fun x hx => ?_
        rw [((htook.found hs hs₂).mp hx).1] at hnone
        cases hnone
      exact ⟨(hp.took hs hs₂ htook).attach hs₂ hnone₂ { h₂.objects id with thisKey := key } hidle.1 hidle.2.1 rfl rfl,
        update_self ..⟩
  obtain ⟨hp₁, hkey⟩ := hp₁
  have hset := hs₁.setObject hmem { h₁.objects id with writeLocks := toChar ((h₁.objects id).writeLocks + 1) } rfl
  refine ⟨hset.counters _ _, ?_⟩
  have hlocks := hp₁.writeLocks _ _ hkey
  refine hp₁.relock hs₁ hkey rfl rfl (fun t ht => ?_) (hp₁.readLocks _ _ hkey) ?_ (fun _ _ => rfl)
    (fun key' hne => pins_cons_of_ne id hne) (hp.few key)
  · rcases List.mem_append.mp ht with hreader | hwriter
    · exact .inl (List.mem_append_left _ hreader)
    · rcases List.mem_cons.mp hwriter with hnew | hold
      · exact .inr hnew
      · exact .inl (List.mem_append_right _ hold)
  · show toChar ((h₁.objects id).writeLocks + 1) = (pins ((key, id) :: writers) key : Nat)
    rw [pins_cons_self, hlocks, toChar_of_small (by omega) (by omega)]
    rfl

end Pins

/-! ## Runs -/

/-- The keys of `getKBlocks`. -/
def keysFrom (numDisks : Nat) (key : Int) : Nat → List Int
  | 0 => []
  | k + 1 => key :: keysFrom numDisks (key + numDisks) k

/-- The cache, the locks that were taken by `getBlock` and `getKBlocks` and not given back, with the key and the object the
caller got, and the objects that were taken out by calls of `deleteLRU` from outside. -/
structure State (β : Type) where
  cache : Cache β
  readers : List (Int × Nat)
  writers : List (Int × Nat)
  taken : List Nat

inductive Event (β : Type) where
  | insertBlock (dat : β) (remOffset : Int)
  | getBlock (remOffset : Int)
  | doneReading (remOffset : Int)
  | doneWriting (remOffset : Int)
  | getKBlocks (k : Nat) (offset : Int)
  | deleteLRU

def hocNext (d : Hcfs.Disks) (expandLimit : Nat) (s : State β) : Event β → Run (State β)
  | .insertBlock dat remOffset => do
      let got ← insertBlock expandLimit s.cache dat remOffset
      return { s with cache := got.2 }
  | .getBlock remOffset =>
      let got := getBlock s.cache remOffset
      .ok { s with cache := got.2, readers := (got.1.map fun id => (remOffset, id)).toList ++ s.readers }
  | .doneReading remOffset =>
      .ok { s with cache := doneReading s.cache remOffset, readers := unlock s.readers remOffset }
  | .doneWriting remOffset =>
      .ok { s with cache := doneWriting s.cache remOffset, writers := unlock s.writers remOffset }
  | .getKBlocks k offset => do
      let got ← getKBlocks expandLimit d.numDisks s.cache offset k
      return { s with cache := got.2, writers := ((keysFrom d.numDisks offset k).zip got.1).reverse ++ s.writers }
  | .deleteLRU => do
      let got ← deleteLRU s.cache
      return { s with cache := got.2, taken := got.1.toList ++ s.taken }

def hocSystem (d : Hcfs.Disks) (expandLimit : Nat) : System (State β) (Event β) :=
  .ofNext (fun s => ∃ memory, s = ⟨initHOC memory, [], [], []⟩) (hocNext d expandLimit)

/-- `deleteLRU` is called by `getOldHOB` only. -/
def Internal (_ : State β) (e : Event β) : Prop := e ≠ .deleteLRU

/-- Only who holds a lock gives it back, `doneWriting` is called by the last who holds any, and no object gets more locks
than its counter can tell. -/
def Pinning (d : Hcfs.Disks) (s : State β) : Event β → Prop
  | .insertBlock _ _ => True
  | .getBlock remOffset => pins s.readers remOffset < 127
  | .doneReading remOffset => s.cache.whichBlocks remOffset ≠ none → 0 < pins s.readers remOffset
  | .doneWriting remOffset => s.cache.whichBlocks remOffset ≠ none → pins s.readers remOffset = 0 ∧ pins s.writers remOffset ≤ 1
  | .getKBlocks k offset => ∀ key ∈ keysFrom d.numDisks offset k, pins s.writers key < 127
  | .deleteLRU => False

instance (d : Hcfs.Disks) (s : State β) : DecidablePred (Pinning d s)
  | .insertBlock _ _ => inferInstanceAs (Decidable True)
  | .getBlock remOffset => inferInstanceAs (Decidable (pins s.readers remOffset < 127))
  | .doneReading remOffset => inferInstanceAs (Decidable (s.cache.whichBlocks remOffset ≠ none → 0 < pins s.readers remOffset))
  | .doneWriting remOffset => inferInstanceAs (Decidable (s.cache.whichBlocks remOffset ≠ none →
      pins s.readers remOffset = 0 ∧ pins s.writers remOffset ≤ 1))
  | .getKBlocks k offset => inferInstanceAs (Decidable (∀ key ∈ keysFrom d.numDisks offset k, pins s.writers key < 127))
  | .deleteLRU => inferInstanceAs (Decidable False)

theorem lt_of_mem_keysFrom {numDisks : Nat} (hpos : 0 < numDisks) {key key' : Int} {k : Nat}
    (hmem : key' ∈ keysFrom numDisks (key + numDisks) k) :
    key < key' := by
  induction k generalizing key with
  | zero => exact absurd hmem List.not_mem_nil
  | succ k ih =>
      rcases List.mem_cons.mp hmem with hfirst | hlater
      · omega
      · have hlt := ih hlater
        omega

section Runs

variable {d : Hcfs.Disks} {expandLimit : Nat} {h : Cache β} {readers writers : List (Int × Nat)} {key : Int}

theorem Struct.created_pos {out : List Nat} (hs : Struct out h) {id : Nat} (hid : id ∈ h.allBlocks) : 0 < h.created :=
  (Nat.zero_le id).trans_lt (hs.lt_created hid)

theorem Struct.getKBlocks (d : Hcfs.Disks) (expandLimit k : Nat) (hs : Struct [] h) (hpos : 0 < h.created) (key : Int) :
    ∃ got, getKBlocks expandLimit d.numDisks h key k = .ok got ∧ Struct [] got.2 ∧ 0 < got.2.created := by
  induction k generalizing h key with
  | zero => exact ⟨([], h), rfl, hs, hpos⟩
  | succ k ih =>
      obtain ⟨id, h₁, hlock, hs₁, hmem, _⟩ := getKBlock_spec expandLimit hs hpos key
      have hset := hs₁.setObject hmem { h₁.objects id with writeLocks := toChar ((h₁.objects id).writeLocks + 1) } rfl
      obtain ⟨got, hgot, hs', hpos'⟩ := ih (hset.counters h₁.globalReadLocks (h₁.globalWriteLocks + 1)) (hset.created_pos hmem)
        (key + d.numDisks)
      refine ⟨(id :: got.1, got.2), ?_, hs', hpos'⟩
      unfold Hoc.getKBlocks
      rw [hlock, Run.ok_bind]
      exact Run.bind_eq_ok.mpr ⟨got, hgot, rfl⟩

theorem Pins.getKBlocks (k : Nat) (hp : Pins h readers writers) (hs : Struct [] h) (hpos : 0 < h.created)
    (hfew : ∀ key' ∈ keysFrom d.numDisks key k, pins writers key' < 127) {got : List Nat × Cache β}
    (hgot : getKBlocks expandLimit d.numDisks h key k = .ok got) :
    Pins got.2 readers (((keysFrom d.numDisks key k).zip got.1).reverse ++ writers) := by
  induction k generalizing h key writers got with
  | zero =>
      rw [← Except.ok.inj hgot]
      exact hp
  | succ k ih =>
      unfold Hoc.getKBlocks at hgot
      obtain ⟨first, hfirst, hgot⟩ := Run.bind_eq_ok.mp hgot
      obtain ⟨rest, hrest, hgot⟩ := Run.bind_eq_ok.mp hgot
      obtain ⟨hs₁, hp₁⟩ := hp.getKBlock expandLimit hs hpos (hfew key List.mem_cons_self) hfirst
      have hpos₁ : 0 < first.2.created := hs₁.created_pos ((hs₁.mapped _ _).mp (hp₁.found _ (List.mem_append_right _ List.mem_cons_self))).1
      have hfew₁ : ∀ key' ∈ keysFrom d.numDisks (key + d.numDisks) k, pins ((key, first.1) :: writers) key' < 127 := by
        intro key' hkey'
        rw [pins_cons_of_ne first.1 (lt_of_mem_keysFrom d.numDisks_pos hkey').ne']
        exact hfew key' (List.mem_cons_of_mem _ hkey')
      have hall := ih hp₁ hs₁ hpos₁ hfew₁ hrest
      rw [← Except.ok.inj hgot]
      show Pins rest.2 readers (((key, first.1) :: (keysFrom d.numDisks (key + d.numDisks) k).zip rest.1).reverse ++ writers)
      rw [List.reverse_cons, List.append_assoc, List.singleton_append]
      exact hall

structure Inv (s : State β) : Prop where
  struct : Struct [] s.cache
  created : 0 < s.cache.created
  taken : s.taken = []

theorem Inv.step {s : State β} (hinv : Inv s) {e : Event β} (he : e ≠ .deleteLRU) :
    ∃ s', hocNext d expandLimit s e = .ok s' ∧ Inv s' := by
  obtain ⟨hs, hpos, htaken⟩ := hinv
  cases e with
  | insertBlock dat remOffset =>
      obtain ⟨id, h', hinsert, hs'⟩ := hs.insertBlock expandLimit hpos dat remOffset
      have hmem : id ∈ h'.allBlocks := by
        cases hkey : s.cache.whichBlocks remOffset with
        | some id' =>
            unfold Hoc.insertBlock at hinsert
            rw [hkey] at hinsert
            cases Except.ok.inj hinsert
            exact List.mem_append_right _ List.mem_cons_self
        | none =>
            obtain ⟨_, h₁, hinsert', _⟩ := insertBlock_absent expandLimit hs hpos dat hkey
            rw [hinsert'] at hinsert
            cases Except.ok.inj hinsert
            exact Struct.mem_attach h₁ id remOffset
      exact ⟨_, Run.bind_eq_ok.mpr ⟨(id, h'), hinsert, rfl⟩, hs', hs'.created_pos hmem, htaken⟩
  | getBlock remOffset =>
      refine ⟨_, rfl, hs.getBlock remOffset, ?_, htaken⟩
      show 0 < (Hoc.getBlock s.cache remOffset).2.created
      unfold Hoc.getBlock
      split <;> exact hpos
  | doneReading remOffset =>
      refine ⟨_, rfl, hs.doneReading remOffset, ?_, htaken⟩
      show 0 < (Hoc.doneReading s.cache remOffset).created
      unfold Hoc.doneReading
      split <;> exact hpos
  | doneWriting remOffset =>
      refine ⟨_, rfl, hs.doneWriting remOffset, ?_, htaken⟩
      show 0 < (Hoc.doneWriting s.cache remOffset).created
      unfold Hoc.doneWriting
      split <;> exact hpos
  | getKBlocks k offset =>
      obtain ⟨got, hgot, hs', hpos'⟩ := hs.getKBlocks d expandLimit k hpos offset
      exact ⟨_, Run.bind_eq_ok.mpr ⟨got, hgot, rfl⟩, hs', hpos', htaken⟩
  | deleteLRU => exact absurd rfl he

theorem inv_init (memory : Nat → HotObject β) : Inv ⟨initHOC memory, [], [], []⟩ :=
  ⟨initHOC_struct memory, by show 0 < 0 + expandSize; decide, rfl⟩

theorem inv_invariant (d : Hcfs.Disks) (expandLimit : Nat) : ((hocSystem d expandLimit).restrict Internal).Invariant (Inv (β := β)) where
  init := by
    rintro s ⟨memory, rfl⟩
    exact inv_init memory
  step := by
    rintro s e s' hinv ⟨he, hstep⟩
    obtain ⟨s'', hnext, hinv'⟩ := hinv.step he
    cases hnext.symm.trans hstep
    exact hinv'

/-- The locks after a step that keeps to the rules. -/
theorem Pins.step {s s' : State β} (hp : Pins s.cache s.readers s.writers) (hinv : Inv s) {e : Event β} (he : Pinning d s e)
    (hstep : hocNext d expandLimit s e = .ok s') : Pins s'.cache s'.readers s'.writers := by
  obtain ⟨hs, hpos, _⟩ := hinv
  cases e with
  | insertBlock dat remOffset =>
      obtain ⟨got, hgot, hs'⟩ := Run.bind_eq_ok.mp hstep
      rw [← Except.ok.inj hs']
      exact hp.insertBlock expandLimit hs hpos dat remOffset hgot
  | getBlock remOffset =>
      rw [← Except.ok.inj hstep]
      exact hp.getBlock hs he
  | doneReading remOffset =>
      rw [← Except.ok.inj hstep]
      exact hp.doneReading hs he
  | doneWriting remOffset =>
      rw [← Except.ok.inj hstep]
      exact hp.doneWriting hs he
  | getKBlocks k offset =>
      obtain ⟨got, hgot, hs'⟩ := Run.bind_eq_ok.mp hstep
      rw [← Except.ok.inj hs']
      exact hp.getKBlocks k hs hpos he hgot
  | deleteLRU => exact he.elim

theorem pins_invariant (d : Hcfs.Disks) (expandLimit : Nat) :
    ((hocSystem d expandLimit).restrict (Pinning d)).Invariant fun s : State β => Inv s ∧ Pins s.cache s.readers s.writers where
  init := by
    rintro s ⟨memory, rfl⟩
    refine ⟨inv_init memory, fun t ht => absurd ht List.not_mem_nil, fun key id hid => ?_, fun key id hid => ?_, fun key => Nat.zero_le _⟩
    · cases hid
    · cases hid
  step := by
    rintro s e s' ⟨hinv, hp⟩ ⟨he, hstep⟩
    have hinternal : e ≠ .deleteLRU := by
      rintro rfl
      exact he
    exact ⟨(inv_invariant d expandLimit).step s e s' hinv ⟨hinternal, hstep⟩, hp.step hinv he hstep⟩

end Runs

/-- The table has exactly the keys of the objects on `allBlocks`, each for its object, and every object is on one of the
lists, once. -/
structure Consistent (h : Cache β) : Prop where
  keys : ∀ key id, h.whichBlocks key = some id ↔ id ∈ h.allBlocks ∧ (h.objects id).thisKey = key
  nodup : h.allBlocks.Nodup ∧ h.freeList.Nodup
  once : ∀ id < h.created, id ∈ h.allBlocks ∧ id ∉ h.freeList ∨ id ∉ h.allBlocks ∧ id ∈ h.freeList

/-- Who took a lock and did not give it back has the object still under its key. -/
def Held (s : State β) : Prop :=
  ∀ t ∈ s.readers ++ s.writers, s.cache.whichBlocks t.1 = some t.2 ∧ t.2 ∈ s.cache.allBlocks ∧ t.2 ∉ s.cache.freeList ∧
    (s.cache.objects t.2).thisKey = t.1

theorem Struct.consistent {h : Cache β} (hs : Struct [] h) : Consistent h where
  keys := hs.mapped
  nodup := (List.nodup_append.mp (List.nodup_append.mp hs.nodup).1).imp id And.left
  once := by
    intro id hid
    have hmem := hs.places.mem_iff.mpr (List.mem_range.mpr hid)
    rw [List.append_nil] at hmem
    by_cases hall : id ∈ h.allBlocks
    · exact .inl ⟨hall, hs.not_mem_freeList hall⟩
    · exact .inr ⟨hall, (List.mem_append.mp hmem).resolve_left hall⟩

theorem Pins.held {s : State β} (hp : Pins s.cache s.readers s.writers) (hinv : Inv s) : Held s := by
  intro t ht
  have hfound := hp.found t ht
  obtain ⟨hmem, hkey⟩ := (hinv.struct.mapped _ _).mp hfound
  exact ⟨hfound, hmem, hinv.struct.not_mem_freeList hmem, hkey⟩

/-- In every run whose calls keep to the rules the lists and the table are consistent, locked objects stay where they are,
and no call stops the process. -/
theorem hot_objects_kept (d : Hcfs.Disks) (expandLimit : Nat) (events : List (Event β)) (s : State β)
    (hrun : ((hocSystem d expandLimit).restrict (Pinning d)).Runs events s) :
    Consistent s.cache ∧ Held s ∧ ∀ e ≠ .deleteLRU, ∃ s', hocNext d expandLimit s e = .ok s' := by
  obtain ⟨hinv, hp⟩ := (pins_invariant d expandLimit).holds hrun
  refine ⟨hinv.struct.consistent, hp.held hinv, fun e he => ?_⟩
  obtain ⟨s', hnext, _⟩ := hinv.step he
  exact ⟨s', hnext⟩

def sampleHoc : State Nat := ⟨initHOC fun _ => ⟨0, 0, 0, 0⟩, [], [], []⟩

/-- A batch locks block 5, a reader reads it and is done, and the batch is done. -/
def lockEvents : List (Event Nat) := [.getKBlocks 1 5, .getBlock 5, .doneReading 5, .doneWriting 5, .insertBlock 7 5, .getBlock 5]

theorem hot_objects_kept_sample : ∃ s, ((hocSystem Hcfs.twoDisks 1).restrict (Pinning Hcfs.twoDisks)).Runs lockEvents s ∧
    s.readers.length = 1 ∧ Consistent s.cache ∧ Held s := by
  obtain ⟨s, hfold, hreaders⟩ := @Transition.exists_of_map _ _ _
    (lockEvents.foldlM (System.guarded (Pinning Hcfs.twoDisks) (hocNext Hcfs.twoDisks 1) .exit) sampleHoc)
    (fun s => s.readers.length) 1 (by decide +kernel)
  have hstart : ((hocSystem Hcfs.twoDisks 1).restrict (Pinning Hcfs.twoDisks)).Runs [] sampleHoc := .start ⟨_, rfl⟩
  have hrun := System.runs_guarded hstart hfold
  have hkept := hot_objects_kept Hcfs.twoDisks 1 lockEvents s hrun
  exact ⟨s, hrun, hreaders, hkept.1, hkept.2.1⟩

/-- The batch is done while the reader still reads: the object is free, and the reader has it still. -/
theorem hot_object_lost : ∃ s : State Nat, (hocSystem Hcfs.twoDisks 1).Runs [.getKBlocks 1 5, .getBlock 5, .doneWriting 5] s ∧
    s.readers = [(5, 511)] ∧ s.cache.whichBlocks 5 = none ∧ 511 ∈ s.cache.freeList ∧ ¬Held s := by
  obtain ⟨s, hfold, hfields⟩ := @Transition.exists_of_map _ _ _
    (([.getKBlocks 1 5, .getBlock 5, .doneWriting 5] : List (Event Nat)).foldlM (hocNext Hcfs.twoDisks 1) sampleHoc)
    (fun s => (s.readers, s.cache.whichBlocks 5, decide (511 ∈ s.cache.freeList))) ([(5, 511)], none, true) (by decide +kernel)
  have hstart : (hocSystem Hcfs.twoDisks 1).Runs [] sampleHoc := .start ⟨_, rfl⟩
  have hrun := System.runs_foldlM hstart hfold
  obtain ⟨hreaders, hfields⟩ := Prod.mk.inj hfields
  obtain ⟨hnone, hfree⟩ := Prod.mk.inj hfields
  refine ⟨s, hrun, hreaders, hnone, of_decide_eq_true hfree, fun hheld => ?_⟩
  have hfound := (hheld (5, 511) (by rw [hreaders]; exact List.mem_cons_self)).1
  rw [hnone] at hfound
  cases hfound

end BeagleCache.Hoc
