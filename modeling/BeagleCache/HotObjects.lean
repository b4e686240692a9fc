import Mathlib.Tactic
import BeagleCache.Outcome
import BeagleCache.LogAllocator

/-! The hot object cache (hoc.c): blocks of the log in memory, found by their offset and thrown out in the order of their
last use, unless a reader or a writer has locked them. An object is a place for a block; it is on `allBlocks`, where the
table finds it, or on `freeList`. The hash table is taken to be a map. -/

namespace BeagleCache.Hoc

open Transition Function

variable {β : Type}

/-- `EXPAND_SIZE` -/
def expandSize : Nat := 1024 * 1024 / Hcfs.fileBlockSize

/-- What a `char` keeps of a number. -/
def toChar (n : Int) : Int := (n + 128) % 256 - 128

structure HotObject (β : Type) where
  block : β
  readLocks : Int
  writeLocks : Int
  thisKey : Int

/-- The objects are numbered in the order in which they are allocated; the table finds the node of an object, which is
taken for the object. -/
structure Cache (β : Type) where
  objects : Nat → HotObject β
  whichBlocks : Int → Option Nat
  allBlocks : List Nat
  freeList : List Nat
  created : Nat
  expandCount : Nat
  globalReadLocks : Int
  globalWriteLocks : Int

/-- `expandHOC`: the new objects are not locked, their blocks are what the memory held. -/
def expandHOC (h : Cache β) : Cache β :=
  { h with
    objects := fun id =>
      if h.created ≤ id ∧ id < h.created + expandSize then { h.objects id with readLocks := 0, writeLocks := 0 } else h.objects id
    freeList := ((List.range expandSize).map fun i => h.created + i).reverse ++ h.freeList
    created := h.created + expandSize
    expandCount := h.expandCount + 1 }

def initHOC (memory : Nat → HotObject β) : Cache β := expandHOC ⟨memory, fun _ => none, [], [], 0, 0, 0, 0⟩

/-- `movePresentToTail` -/
def moveToTail (l : List Nat) (id : Nat) : List Nat := l.erase id ++ [id]

/-- `attempts` passes of the loop of `deleteLRU`. -/
def deleteLRULoop (h : Cache β) : Nat → Run (Option Nat × Cache β)
  | 0 => .ok (none, h)
  | attempts + 1 =>
      match h.allBlocks with
      | [] => .error .overrun
      | head :: _ =>
          let key := (h.objects head).thisKey
          match h.whichBlocks key with
          | none => .error .exit
          | some id =>
              if 0 < (h.objects id).readLocks ∨ 0 < (h.objects id).writeLocks then
                deleteLRULoop { h with allBlocks := moveToTail h.allBlocks id } attempts
              else
                .ok (some id, { h with whichBlocks := update h.whichBlocks key none, allBlocks := h.allBlocks.erase id })

def deleteLRU (h : Cache β) : Run (Option Nat × Cache β) := deleteLRULoop h 3

/-- `getHeadData` and `deleteHead` on the list of free objects. -/
def takeFree (h : Cache β) : Run (Nat × Cache β) :=
  match h.freeList with
  | [] => .error .overrun
  | id :: rest => .ok (id, { h with freeList := rest })

def getOldHOB (expandLimit : Nat) (h : Cache β) : Run (Nat × Cache β) :=
  if 0 < h.freeList.length then takeFree h
  else if h.expandCount < expandLimit then takeFree (expandHOC h)
  else do
    let old ← deleteLRU h
    match old.1 with
    | some id => return (id, old.2)
    | none => takeFree (expandHOC old.2)

/-- An object gets a key and comes to the end of the list. -/
def attach (h : Cache β) (id : Nat) (key : Int) : Cache β :=
  { h with
    objects := update h.objects id { h.objects id with thisKey := key }
    allBlocks := h.allBlocks ++ [id]
    whichBlocks := update h.whichBlocks key (some id) }

def setObject (h : Cache β) (id : Nat) (object : HotObject β) : Cache β :=
  { h with objects := update h.objects id object }

/-- A block that is there already is kept as it is. -/
def insertBlock (expandLimit : Nat) (h : Cache β) (dat : β) (remOffset : Int) : Run (Nat × Cache β) :=
  match h.whichBlocks remOffset with
  | some id => .ok (id, { h with allBlocks := moveToTail h.allBlocks id })
  | none => do
      let got ← getOldHOB expandLimit h
      let id := got.1
      let h := attach got.2 id remOffset
      if 0 < (h.objects id).readLocks ∨ 0 < (h.objects id).writeLocks then .error .exit
      else return (id, setObject h id { h.objects id with block := dat, readLocks := 0, writeLocks := 0 })

/-- The object is returned for its block. -/
def getBlock (h : Cache β) (remOffset : Int) : Option Nat × Cache β :=
  match h.whichBlocks remOffset with
  | none => (none, h)
  | some id =>
      (some id,
        { setObject h id { h.objects id with readLocks := toChar ((h.objects id).readLocks + 1) } with
          globalReadLocks := h.globalReadLocks + 1
          allBlocks := moveToTail h.allBlocks id })

def doneReading (h : Cache β) (remOffset : Int) : Cache β :=
  match h.whichBlocks remOffset with
  | none => h
  | some id =>
      { setObject h id { h.objects id with readLocks := toChar ((h.objects id).readLocks - 1) } with
        globalReadLocks := h.globalReadLocks - 1 }

/-- The object is given back whoever else has it locked. -/
def doneWriting (h : Cache β) (remOffset : Int) : Cache β :=
  match h.whichBlocks remOffset with
  | none => h
  | some id =>
      { setObject h id { h.objects id with readLocks := 0, writeLocks := 0 } with
        globalWriteLocks := h.globalWriteLocks - 1
        whichBlocks := update h.whichBlocks remOffset none
        allBlocks := h.allBlocks.erase id
        freeList := h.freeList ++ [id] }

/-- One pass of the loop of `getKBlocks`. -/
def getKBlock (expandLimit : Nat) (h : Cache β) (key : Int) : Run (Nat × Cache β) := do
  let got ←
    match h.whichBlocks key with
    | some id => pure (id, h)
    | none => do
        let got ← getOldHOB expandLimit h
        pure (got.1, attach got.2 got.1 key)
  let id := got.1
  let h := got.2
  return (id,
    { setObject h id { h.objects id with writeLocks := toChar ((h.objects id).writeLocks + 1) } with
      globalWriteLocks := h.globalWriteLocks + 1 })

/-- The passes of `getKBlocks` from key `key` on, with the objects in the order of the list it fills. -/
def getKBlocks (expandLimit numDisks : Nat) (h : Cache β) (key : Int) : Nat → Run (List Nat × Cache β)
  | 0 => .ok ([], h)
  | k + 1 => do
      let first ← getKBlock expandLimit h key
      let rest ← getKBlocks expandLimit numDisks first.2 (key + numDisks) k
      return (first.1 :: rest.1, rest.2)

/-! ## The lists and the table -/

/-- Every object is at one place: on `allBlocks`, where the table finds it under its key, on `freeList`, where it is not
locked, or with a caller that `out` lists. -/
structure Struct (out : List Nat) (h : Cache β) : Prop where
  mapped : ∀ key id, h.whichBlocks key = some id ↔ id ∈ h.allBlocks ∧ (h.objects id).thisKey = key
  places : (h.allBlocks ++ h.freeList ++ out).Perm (List.range h.created)
  free : ∀ id ∈ h.freeList, (h.objects id).readLocks = 0 ∧ (h.objects id).writeLocks = 0

section Struct

variable {out : List Nat} {h h' : Cache β} {id x : Nat} {key : Int}

theorem Struct.nodup (hs : Struct out h) : (h.allBlocks ++ h.freeList ++ out).Nodup := hs.places.nodup_iff.mpr List.nodup_range

theorem Struct.lt_created (hs : Struct out h) (hx : x ∈ h.allBlocks) : x < h.created := by
  apply List.mem_range.mp
  apply hs.places.mem_iff.mp
  exact List.mem_append_left _ (List.mem_append_left _ hx)

theorem Struct.find (hs : Struct out h) (hx : x ∈ h.allBlocks) : h.whichBlocks (h.objects x).thisKey = some x :=
  (hs.mapped _ _).mpr ⟨hx, rfl⟩

theorem Struct.nodup_allBlocks (hs : Struct out h) : h.allBlocks.Nodup :=
  (List.nodup_append.mp (List.nodup_append.mp hs.nodup).1).1

theorem Struct.not_mem_freeList (hs : Struct out h) (hx : x ∈ h.allBlocks) : x ∉ h.freeList := fun hfree =>
  (List.nodup_append.mp (List.nodup_append.mp hs.nodup).1).2.2 x hx x hfree rfl

theorem Struct.not_mem_out (hs : Struct (id :: out) h) : id ∉ h.allBlocks ∧ id ∉ h.freeList := by
  have hdisjoint := (List.nodup_append.mp hs.nodup).2.2
  constructor
  · intro hmem
    exact hdisjoint id (List.mem_append_left _ hmem) id List.mem_cons_self rfl
  · intro hmem
    exact hdisjoint id (List.mem_append_right _ hmem) id List.mem_cons_self rfl

theorem moveToTail_perm {l : List Nat} (hx : x ∈ l) : (moveToTail l x).Perm l :=
  (List.perm_append_singleton x (l.erase x)).trans (List.perm_cons_erase hx).symm

theorem Struct.reorder (hs : Struct out h) {l : List Nat} (hperm : l.Perm h.allBlocks) : Struct out { h with allBlocks := l } where
  mapped := by
    intro key id
    rw [hs.mapped]
    exact and_congr_left fun _ => hperm.symm.mem_iff
  places := ((hperm.append_right _).append_right _).trans hs.places
  free := hs.free

theorem expandHOC_object (h : Cache β) (hx : x < h.created) : (expandHOC h).objects x = h.objects x :=
  if_neg fun hnew => absurd hnew.1 (Nat.not_le.mpr hx)

theorem Struct.expandHOC (hs : Struct out h) : Struct out (expandHOC h) where
  mapped := by
    intro key id
    show h.whichBlocks key = some id ↔ id ∈ h.allBlocks ∧ ((Hoc.expandHOC h).objects id).thisKey = key
    rw [hs.mapped]
    refine and_congr_right fun hid => ?_
    rw [expandHOC_object h (hs.lt_created hid)]
  places := by
    have hnew : (((List.range expandSize).map fun i => h.created + i).reverse ++ h.freeList).Perm
        (h.freeList ++ (List.range expandSize).map fun i => h.created + i) :=
      List.perm_append_comm.trans ((List.reverse_perm _).append_left _)
    have hout (new : List Nat) : (h.allBlocks ++ (h.freeList ++ new) ++ out).Perm (h.allBlocks ++ h.freeList ++ out ++ new) := by
      rw [← List.append_assoc, List.append_assoc _ new out, List.append_assoc _ out new]
      exact List.perm_append_comm.append_left _
    show (h.allBlocks ++ (_ ++ h.freeList) ++ out).Perm (List.range (h.created + expandSize))
    rw [List.range_add]
    exact ((hnew.append_left _).append_right _).trans ((hout _).trans (hs.places.append_right _))
  free := by
    intro id hid
    rcases List.mem_append.mp hid with hnew | hold
    · obtain ⟨i, hi, rfl⟩ := List.mem_map.mp (List.mem_reverse.mp hnew)
      have hlt := List.mem_range.mp hi
      have hobject : (Hoc.expandHOC h).objects (h.created + i) = { h.objects (h.created + i) with readLocks := 0, writeLocks := 0 } :=
        if_pos ⟨Nat.le_add_right _ _, by omega⟩
      rw [hobject]
      exact ⟨rfl, rfl⟩
    · have hlt : id < h.created :=
        List.mem_range.mp (hs.places.mem_iff.mp (List.mem_append_left _ (List.mem_append_right _ hold)))
      rw [expandHOC_object h hlt]
      exact hs.free id hold

theorem initHOC_struct (memory : Nat → HotObject β) : Struct [] (initHOC memory) := by
  apply Struct.expandHOC
  refine ⟨fun key id => ⟨fun hnone => ?_, fun hmem => ?_⟩, List.Perm.refl _, fun id hid => absurd hid List.not_mem_nil⟩
  · cases hnone
  · exact absurd hmem.1 List.not_mem_nil

/-! ## A free object -/

/-- An object was taken out of the lists: it is not locked, and all others are where and what they were. -/
structure Took (h h' : Cache β) (id : Nat) : Prop where
  kept : ∀ x, x ∈ h'.allBlocks ↔ x ∈ h.allBlocks ∧ x ≠ id
  objects : ∀ x ∈ h.allBlocks, h'.objects x = h.objects x
  idle : (h'.objects id).readLocks ≤ 0 ∧ (h'.objects id).writeLocks ≤ 0
  fresh : id ∉ h.allBlocks → (h'.objects id).readLocks = 0 ∧ (h'.objects id).writeLocks = 0

theorem takeFree_took (hs : Struct out h) (hfree : h.freeList ≠ []) :
    ∃ id h', takeFree h = .ok (id, h') ∧ Struct (id :: out) h' ∧ Took h h' id := by
  obtain ⟨id, rest, hlist⟩ := List.exists_cons_of_ne_nil hfree
  have hid : id ∈ h.freeList := hlist ▸ List.mem_cons_self
  have hlocks := hs.free id hid
  refine ⟨id, { h with freeList := rest }, ?_, ⟨hs.mapped, ?_, fun x hx => ?_⟩, fun x => ?_, fun _ _ => rfl,
    ⟨hlocks.1.le, hlocks.2.le⟩, fun _ => hlocks⟩
  · rw [takeFree, hlist]
  · have hmove : (h.allBlocks ++ rest ++ id :: out).Perm (h.allBlocks ++ h.freeList ++ out) := by
      rw [hlist, List.append_assoc, List.append_assoc, List.cons_append]
      exact List.perm_middle.append_left _
    exact hmove.trans hs.places
  · exact hs.free x (hlist ▸ List.mem_cons_of_mem _ hx)
  · constructor
    · intro hx
      exact ⟨hx, fun heq => hs.not_mem_freeList hx (heq ▸ hid)⟩
    · exact And.left

theorem takeFree_expandHOC (hs : Struct out h) :
    ∃ id h', takeFree (expandHOC h) = .ok (id, h') ∧ Struct (id :: out) h' ∧ Took h h' id := by
  have hfree : (expandHOC h).freeList ≠ [] := by
    show ((List.range expandSize).map fun i => h.created + i).reverse ++ h.freeList ≠ []
    intro hnil
    have hlength := congrArg List.length hnil
    rw [List.length_append, List.length_reverse, List.length_map, List.length_range, List.length_nil, expandSize,
      Hcfs.fileBlockSize] at hlength
    omega
  obtain ⟨id, h', htake, hs', htook⟩ := takeFree_took hs.expandHOC hfree
  refine ⟨id, h', htake, hs', htook.kept, fun x hx => ?_, htook.idle, htook.fresh⟩
  rw [htook.objects x hx, expandHOC_object h (hs.lt_created hx)]

theorem Struct.remove (hs : Struct out h) (hx : x ∈ h.allBlocks) :
    Struct (x :: out)
      { h with whichBlocks := update h.whichBlocks (h.objects x).thisKey none, allBlocks := h.allBlocks.erase x } where
  mapped := by
    intro key id
    show update h.whichBlocks (h.objects x).thisKey none key = some id ↔
      id ∈ h.allBlocks.erase x ∧ (h.objects id).thisKey = key
    rw [hs.nodup_allBlocks.mem_erase_iff]
    by_cases hkey : key = (h.objects x).thisKey
    · rw [hkey, update_self]
      constructor
      · intro hnone
        cases hnone
      · rintro ⟨⟨hne, hmem⟩, hsame⟩
        have hfound := (hs.mapped _ _).mpr ⟨hmem, hsame⟩
        rw [hs.find hx] at hfound
        exact absurd (Option.some.inj hfound).symm hne
    · rw [update_of_ne hkey, hs.mapped]
      constructor
      · rintro ⟨hmem, hsame⟩
        exact ⟨⟨fun heq => hkey (heq ▸ hsame.symm), hmem⟩, hsame⟩
      · rintro ⟨⟨_, hmem⟩, hsame⟩
        exact ⟨hmem, hsame⟩
  places := by
    have hmove : (h.allBlocks.erase x ++ h.freeList ++ x :: out).Perm (h.allBlocks ++ h.freeList ++ out) := by
      refine List.perm_middle.trans ?_
      rw [← List.cons_append, ← List.cons_append]
      exact ((List.perm_cons_erase hx).symm.append_right _).append_right _
    exact hmove.trans hs.places
  free := hs.free

theorem deleteLRULoop_spec (attempts : Nat) (hs : Struct out h) (hne : h.allBlocks ≠ []) :
    ∃ r h', deleteLRULoop h attempts = .ok (r, h') ∧
      (∀ id, r = some id → Struct (id :: out) h' ∧ Took h h' id) ∧
      (r = none → Struct out h' ∧ h'.allBlocks.Perm h.allBlocks ∧ h'.objects = h.objects) := by
  induction attempts generalizing h with
  | zero =>
      refine ⟨none, h, rfl, fun id hid => ?_, fun _ => ⟨hs, List.Perm.refl _, rfl⟩⟩
      cases hid
  | succ attempts ih =>
      obtain ⟨head, rest, hlist⟩ := List.exists_cons_of_ne_nil hne
      have hhead : head ∈ h.allBlocks := hlist ▸ List.mem_cons_self
      have hfind := hs.find hhead
      by_cases hlocked : 0 < (h.objects head).readLocks ∨ 0 < (h.objects head).writeLocks
      · -- the object is locked and goes to the end
        have hperm := moveToTail_perm hhead
        have hmoved : moveToTail h.allBlocks head ≠ [] := List.append_ne_nil_of_right_ne_nil _ (List.cons_ne_nil _ _)
        obtain ⟨r, h', hloop, hsome, hnone⟩ := ih (hs.reorder hperm) hmoved
        refine ⟨r, h', ?_, fun id hid => ?_, fun hr => ?_⟩
        · rw [deleteLRULoop, hlist]
          simp only [hfind, if_pos hlocked]
          rw [← hlist]
          exact hloop
        · obtain ⟨hs', htook⟩ := hsome id hid
          refine ⟨hs', fun x => ?_, fun x hx => htook.objects x (hperm.mem_iff.mpr hx), htook.idle,
            fun hid => htook.fresh fun hmem => hid (hperm.mem_iff.mp hmem)⟩
          rw [htook.kept x]
          exact and_congr_left fun _ => hperm.mem_iff
        · obtain ⟨hs', hperm', hobjects⟩ := hnone hr
          exact ⟨hs', hperm'.trans hperm, hobjects⟩
      · refine ⟨some head, { h with
          whichBlocks := update h.whichBlocks (h.objects head).thisKey none, allBlocks := h.allBlocks.erase head },
          ?_, fun id hid => ?_, fun hr => ?_⟩
        · rw [deleteLRULoop, hlist]
          simp only [hfind, if_neg hlocked]
        · cases hid
          obtain ⟨hread, hwrite⟩ := not_or.mp hlocked
          refine ⟨hs.remove hhead, fun x => ?_, fun _ _ => rfl, ⟨Int.not_lt.mp hread, Int.not_lt.mp hwrite⟩,
            fun hid => absurd hhead hid⟩
          show x ∈ h.allBlocks.erase head ↔ x ∈ h.allBlocks ∧ x ≠ head
          rw [hs.nodup_allBlocks.mem_erase_iff]
          exact and_comm
        · cases hr

/-- There is always an object to be had. -/
theorem getOldHOB_took (expandLimit : Nat) (hs : Struct out h) (hout : out.length < h.created) :
    ∃ id h', getOldHOB expandLimit h = .ok (id, h') ∧ Struct (id :: out) h' ∧ Took h h' id := by
  unfold getOldHOB
  split
  · rename_i hfree
    exact takeFree_took hs (List.ne_nil_of_length_pos hfree)
  · rename_i hfree
    split
    · exact takeFree_expandHOC hs
    · have hne : h.allBlocks ≠ [] := by
        intro hnil
        have hlength := hs.places.length_eq
        have hempty := List.length_eq_zero_iff.mp (Nat.eq_zero_of_not_pos hfree)
        rw [hnil, hempty, List.length_range, List.append_nil, List.nil_append] at hlength
        omega
      obtain ⟨r, h', hloop, hsome, hnone⟩ := deleteLRULoop_spec 3 hs hne
      rw [deleteLRU, hloop, Run.ok_bind]
      cases r with
      | some id => exact ⟨id, h', rfl, hsome id rfl⟩
      | none =>
          obtain ⟨hs', hperm, hobjects⟩ := hnone rfl
          obtain ⟨id, h'', htake, hs'', htook⟩ := takeFree_expandHOC hs'
          refine ⟨id, h'', htake, hs'', fun x => ?_, fun x hx => ?_, htook.idle,
            fun hid => htook.fresh fun hmem => hid (hperm.mem_iff.mp hmem)⟩
          · rw [htook.kept x]
            exact and_congr_left fun _ => hperm.mem_iff
          · rw [htook.objects x (hperm.mem_iff.mpr hx), hobjects]

theorem Took.found (htook : Took h h' id) (hs : Struct out h) {out' : List Nat} (hs' : Struct out' h') :
    h'.whichBlocks key = some x ↔ h.whichBlocks key = some x ∧ x ≠ id := by
  rw [hs'.mapped, hs.mapped, htook.kept]
  constructor
  · rintro ⟨⟨hx, hne⟩, hkey⟩
    rw [htook.objects x hx] at hkey
    exact ⟨⟨hx, hkey⟩, hne⟩
  · rintro ⟨⟨hx, hkey⟩, hne⟩
    rw [← htook.objects x hx] at hkey
    exact ⟨⟨hx, hne⟩, hkey⟩

/-! ## What the calls keep -/

theorem Struct.setObject (hs : Struct out h) (hx : x ∈ h.allBlocks) (object : HotObject β)
    (hkey : object.thisKey = (h.objects x).thisKey) : Struct out (setObject h x object) where
  mapped := by
    intro key id
    show h.whichBlocks key = some id ↔ id ∈ h.allBlocks ∧ (update h.objects x object id).thisKey = key
    rw [hs.mapped]
    refine and_congr_right fun _ => ?_
    by_cases hid : id = x
    · rw [hid, update_self, hkey]
    · rw [update_of_ne hid]
  places := hs.places
  free := by
    intro id hid
    have hne : id ≠ x := fun heq => hs.not_mem_freeList hx (heq ▸ hid)
    show (update h.objects x object id).readLocks = 0 ∧ (update h.objects x object id).writeLocks = 0
    rw [update_of_ne hne]
    exact hs.free id hid

theorem Struct.attach (hs : Struct (id :: out) h) (hkey : h.whichBlocks key = none) : Struct out (attach h id key) where
  mapped := by
    intro key' x
    show update h.whichBlocks key (some id) key' = some x ↔
      x ∈ h.allBlocks ++ [id] ∧ (update h.objects id { h.objects id with thisKey := key } x).thisKey = key'
    have hnot := hs.not_mem_out.1
    rw [List.mem_append, List.mem_singleton]
    by_cases hx : x = id
    · rw [hx, update_self]
      by_cases hkey' : key' = key
      · rw [hkey', update_self]
        exact ⟨fun _ => ⟨.inr rfl, rfl⟩, fun _ => rfl⟩
      · rw [update_of_ne hkey', hs.mapped]
        constructor
        · rintro ⟨hmem, _⟩
          exact absurd hmem hnot
        · rintro ⟨_, hsame⟩
          exact absurd hsame.symm hkey'
    · rw [update_of_ne hx]
      by_cases hkey' : key' = key
      · rw [hkey', update_self]
        constructor
        · intro hsame
          exact absurd (Option.some.inj hsame).symm hx
        · rintro ⟨hmem, hsame⟩
          have hfound := (hs.mapped key x).mpr ⟨hmem.resolve_right hx, hsame⟩
          rw [hkey] at hfound
          cases hfound
      · rw [update_of_ne hkey', hs.mapped]
        exact and_congr_left fun _ => ⟨.inl, fun hmem => hmem.resolve_right hx⟩
  places := by
    have hmove : (h.allBlocks ++ [id] ++ h.freeList ++ out).Perm (h.allBlocks ++ h.freeList ++ id :: out) := by
      rw [List.append_assoc, List.append_assoc, List.append_assoc]
      refine List.Perm.append_left _ ?_
      rw [List.singleton_append]
      exact List.perm_middle.symm
    exact hmove.trans hs.places
  free := by
    intro x hx
    have hne : x ≠ id := fun heq => hs.not_mem_out.2 (heq ▸ hx)
    show (update h.objects id _ x).readLocks = 0 ∧ (update h.objects id _ x).writeLocks = 0
    rw [update_of_ne hne]
    exact hs.free x hx

theorem Struct.release (hs : Struct (id :: out) h) :
    Struct out
      { h with
        objects := update h.objects id { h.objects id with readLocks := 0, writeLocks := 0 }
        freeList := h.freeList ++ [id] } where
  mapped := by
    intro key x
    show h.whichBlocks key = some x ↔ x ∈ h.allBlocks ∧ (update h.objects id _ x).thisKey = key
    rw [hs.mapped]
    refine and_congr_right fun hx => ?_
    have hne : x ≠ id := fun heq => hs.not_mem_out.1 (heq ▸ hx)
    rw [update_of_ne hne]
  places := by
    have hmove : (h.allBlocks ++ (h.freeList ++ [id]) ++ out).Perm (h.allBlocks ++ h.freeList ++ id :: out) := by
      rw [← List.append_assoc, List.append_assoc _ [id] out, List.singleton_append]
    exact hmove.trans hs.places
  free := by
    intro x hx
    show (update h.objects id _ x).readLocks = 0 ∧ (update h.objects id _ x).writeLocks = 0
    by_cases heq : x = id
    · rw [heq, update_self]
      exact ⟨rfl, rfl⟩
    · rw [update_of_ne heq]
      exact hs.free x ((List.mem_append.mp hx).resolve_right fun hlast => heq (List.mem_singleton.mp hlast))

theorem Struct.counters (hs : Struct out h) (reads writes : Int) :
    Struct out { h with globalReadLocks := reads, globalWriteLocks := writes } :=
  ⟨hs.mapped, hs.places, hs.free⟩

theorem Struct.getBlock (hs : Struct out h) (remOffset : Int) : Struct out (getBlock h remOffset).2 := by
  unfold Hoc.getBlock
  split
  · exact hs
  · rename_i id hid
    have hmem := ((hs.mapped _ _).mp hid).1
    have hset := hs.setObject hmem { h.objects id with readLocks := toChar ((h.objects id).readLocks + 1) } rfl
    exact (hset.reorder (moveToTail_perm hmem)).counters _ _

theorem Struct.doneReading (hs : Struct out h) (remOffset : Int) : Struct out (doneReading h remOffset) := by
  unfold Hoc.doneReading
  split
  · exact hs
  · rename_i id hid
    have hmem := ((hs.mapped _ _).mp hid).1
    have hset := hs.setObject hmem { h.objects id with readLocks := toChar ((h.objects id).readLocks - 1) } rfl
    exact hset.counters _ _

theorem Struct.doneWriting (hs : Struct out h) (remOffset : Int) : Struct out (doneWriting h remOffset) := by
  unfold Hoc.doneWriting
  split
  · exact hs
  · rename_i id hid
    obtain ⟨hmem, hkey⟩ := (hs.mapped _ _).mp hid
    rw [← hkey]
    exact (hs.remove hmem).release.counters _ _

theorem insertBlock_absent (expandLimit : Nat) (hs : Struct out h) (hout : out.length < h.created) (dat : β)
    (hkey : h.whichBlocks key = none) :
    ∃ id h₁, insertBlock expandLimit h dat key = .ok (id,
        setObject (attach h₁ id key) id { (attach h₁ id key).objects id with block := dat, readLocks := 0, writeLocks := 0 }) ∧
      Struct (id :: out) h₁ ∧ Took h h₁ id ∧ h₁.whichBlocks key = none := by
  obtain ⟨id, h₁, hgot, hs₁, htook⟩ := getOldHOB_took expandLimit hs hout
  have hnone : h₁.whichBlocks key = none := by
    refine Option.eq_none_iff_forall_ne_some.mpr fun x hx => ?_
    rw [((htook.found hs hs₁).mp hx).1] at hkey
    cases hkey
  have hobject : (attach h₁ id key).objects id = { h₁.objects id with thisKey := key } := update_self ..
  have hidle : ¬(0 < ((attach h₁ id key).objects id).readLocks ∨ 0 < ((attach h₁ id key).objects id).writeLocks) := by
    rw [hobject]
    exact not_or.mpr ⟨Int.not_lt.mpr htook.idle.1, Int.not_lt.mpr htook.idle.2⟩
  refine ⟨id, h₁, ?_, hs₁, htook, hnone⟩
  unfold insertBlock
  rw [hkey, hgot]
  simp only [Run.ok_bind, if_neg hidle, Run.pure_eq_ok]

theorem Struct.mem_attach (h : Cache β) (id : Nat) (key : Int) : id ∈ (Hoc.attach h id key).allBlocks :=
  List.mem_append_right _ List.mem_cons_self

theorem Struct.insertBlock (expandLimit : Nat) (hs : Struct out h) (hout : out.length < h.created) (dat : β) (remOffset : Int) :
    ∃ id h', insertBlock expandLimit h dat remOffset = .ok (id, h') ∧ Struct out h' := by
  cases hkey : h.whichBlocks remOffset with
  | some id =>
      refine ⟨id, { h with allBlocks := moveToTail h.allBlocks id }, ?_, ?_⟩
      · unfold Hoc.insertBlock
        rw [hkey]
      · exact hs.reorder (moveToTail_perm ((hs.mapped _ _).mp hkey).1)
  | none =>
      obtain ⟨id, h₁, hinsert, hs₁, _, hnone⟩ := insertBlock_absent expandLimit hs hout dat hkey
      exact ⟨id, _, hinsert, (hs₁.attach hnone).setObject (mem_attach h₁ id remOffset) _ rfl⟩

/-- A pass of `getKBlocks` locks the object of the key, after it has got one if there was none. -/
theorem getKBlock_spec (expandLimit : Nat) (hs : Struct out h) (hout : out.length < h.created) (key : Int) :
    ∃ id h₁, getKBlock expandLimit h key = .ok (id,
        { setObject h₁ id { h₁.objects id with writeLocks := toChar ((h₁.objects id).writeLocks + 1) } with
          globalWriteLocks := h₁.globalWriteLocks + 1 }) ∧
      Struct out h₁ ∧ id ∈ h₁.allBlocks ∧
      (h.whichBlocks key = some id ∧ h₁ = h ∨
        h.whichBlocks key = none ∧ ∃ h₂, h₁ = attach h₂ id key ∧ Struct (id :: out) h₂ ∧ Took h h₂ id) := by
  cases hkey : h.whichBlocks key with
  | some id =>
      refine ⟨id, h, ?_, hs, ((hs.mapped _ _).mp hkey).1, .inl ⟨rfl, rfl⟩⟩
      unfold getKBlock
      rw [hkey]
      rfl
  | none =>
      obtain ⟨id, h₂, hgot, hs₂, htook⟩ := getOldHOB_took expandLimit hs hout
      have hnone : h₂.whichBlocks key = none := by
        refine Option.eq_none_iff_forall_ne_some.mpr fun x hx => ?_
        rw [((htook.found hs hs₂).mp hx).1] at hkey
        cases hkey
      refine ⟨id, attach h₂ id key, ?_, hs₂.attach hnone, Struct.mem_attach h₂ id key, .inr ⟨rfl, h₂, rfl, hs₂, htook⟩⟩
      unfold getKBlock
      rw [hkey, hgot]
      rfl

end Struct

end BeagleCache.Hoc
