import Mathlib.Tactic
import BeagleCache.Bytes
import BeagleCache.Transition
import BeagleCache.Wrapping

/-! The objects that wait to be written (dirty.c). The original of an object is in the table under its URL until it and every copy that
a reader has got of it are deleted; whoever is the last takes it out. -/

namespace BeagleCache.DirtyObjects

open Transition Function

variable {β : Type}

/-- The original of an object. `allBlocks` is the list of its response, and `none` when it has been destroyed; the original is
allocated as long as it is in the table. -/
structure DirtyObject (β : Type) where
  allBlocks : Option (List β)
  locks : BitVec 8
  lDel : Bool
  used : Bool
  hoc : Bool

/-- What has become of the original that was last put into the table under a URL. -/
structure History (β : Type) where
  /-- Its response has not deleted it. -/
  held : Bool
  blocks : List β
  moved : Bool
  /-- How often it was taken out of the table, and what `doneWriting` was called for. -/
  removals : Nat
  doneWriting : List β
  /-- A list was gone through that had been destroyed. -/
  wild : Bool

structure State (β : Type) where
  dirtyCache : Bytes → Option (DirtyObject β)
  /-- The URLs of the copies; nothing else of a copy is looked at when it is deleted. -/
  copies : List Bytes
  numDirty : Int
  history : Bytes → Option (History β)

def initDirtyCache : State β := ⟨fun _ => none, [], 0, fun _ => none⟩

/-- The entry for a URL, and its history, are replaced. -/
def State.put (s : State β) (URL : Bytes) (o : Option (DirtyObject β)) (h : Option (History β)) : State β :=
  { s with dirtyCache := update s.dirtyCache URL o, history := update s.history URL h }

/-- `false` is that `NULL` is returned. For a list without blocks the program exits. -/
def createDirtyObject (s : State β) (URL : Bytes) (allBlocks : List β) : Option (State β × Bool) :=
  if allBlocks = [] then none
  else match s.dirtyCache URL with
  | some _ => some (s, false)
  | none =>
      let h : History β := ⟨true, allBlocks, false, 0, [], false⟩
      some ({ s.put URL (some ⟨some allBlocks, 1, false, false, false⟩) (some h) with numDirty := s.numDirty + 1 }, true)

/-- Whether there is a copy. -/
def getDirtyObject (s : State β) (URL : Bytes) : State β × Bool :=
  match s.dirtyCache URL with
  | none => (s, false)
  | some oldCopy =>
      let s := s.put URL (some { oldCopy with locks := oldCopy.locks + 1, used := true }) (s.history URL)
      ({ s with copies := s.copies ++ [URL], numDirty := s.numDirty + 1 }, true)

/-- The loop over a list with `doneWriting`. -/
def History.walk (h : History β) : Option (List β) → History β
  | some allBlocks => { h with doneWriting := h.doneWriting ++ allBlocks }
  | none => { h with wild := true }

/-- The `ORIG` case of `deleteDirtyObject`, and what it returns. -/
def deleteOriginal (s : State β) (URL : Bytes) : State β × Int :=
  let gone := (s.history URL).map fun h => { h with held := false }
  match s.dirtyCache URL with
  | none => (s.put URL none gone, -1)
  | some oldCopy =>
      let oldCopy : DirtyObject β := { oldCopy with locks := oldCopy.locks - 1 }
      if oldCopy.locks = 0 then
        let h := gone.map fun h => { h with removals := h.removals + 1 }
        let h := if oldCopy.hoc = true then h.map fun h => h.walk oldCopy.allBlocks else h
        ({ s.put URL none h with numDirty := s.numDirty - 1 }, 0)
      else (s.put URL (some { oldCopy with lDel := true }) gone, 1)

/-- The `TEMP` case, for the copy at `k`. -/
def deleteCopy (s : State β) (k : Nat) (URL : Bytes) : State β × Int :=
  match s.dirtyCache URL with
  | none => (s, -1)
  | some oldCopy =>
      let oldCopy : DirtyObject β := { oldCopy with locks := oldCopy.locks - 1 }
      let s := { s with copies := s.copies.eraseIdx k, numDirty := s.numDirty - 1 }
      if oldCopy.locks = 0 ∧ oldCopy.lDel = true then
        let h := (s.history URL).map fun h => { h with removals := h.removals + 1 }
        -- the list is destroyed before it is gone through
        let oldCopy : DirtyObject β := { oldCopy with allBlocks := none }
        let h := if oldCopy.hoc = true then h.map fun h => h.walk oldCopy.allBlocks else h
        ({ s.put URL none h with numDirty := s.numDirty - 1 }, 0)
      else (s.put URL (some oldCopy) (s.history URL), 0)

/-- The new blocks are as many as the old ones. -/
def reAssignBlocks (s : State β) (URL : Bytes) (newBlocks : List β) : State β :=
  s.put URL ((s.dirtyCache URL).map fun o => { o with hoc := true, allBlocks := o.allBlocks.map fun _ => newBlocks })
    ((s.history URL).map fun h => { h with moved := true, blocks := newBlocks })

/-! ## Every order of calls -/

inductive Event (β : Type) where
  | createDirtyObject (URL : Bytes) (allBlocks : List β)
  | getDirtyObject (URL : Bytes)
  /-- A response deletes its dirty object, and a reader its copy. -/
  | deleteOriginal (URL : Bytes)
  | deleteCopy (k : Nat)
  | reAssignBlocks (URL : Bytes) (newBlocks : List β)

/-- The original under a URL has not been deleted. -/
def State.Held (s : State β) (URL : Bytes) : Prop := (s.history URL).any History.held = true

instance (s : State β) (URL : Bytes) : Decidable (s.Held URL) := inferInstanceAs (Decidable (_ = _))

/-- An original and a copy are deleted once. -/
def next (s : State β) : Event β → Option (State β)
  | .createDirtyObject URL allBlocks => (createDirtyObject s URL allBlocks).map Prod.fst
  | .getDirtyObject URL => some (getDirtyObject s URL).1
  | .deleteOriginal URL => if s.Held URL then some (deleteOriginal s URL).1 else none
  | .deleteCopy k => (s.copies[k]?).map fun URL => (deleteCopy s k URL).1
  | .reAssignBlocks URL newBlocks =>
      if s.Held URL ∧ (s.history URL).map (fun h => h.blocks.length) = some newBlocks.length then some (reAssignBlocks s URL newBlocks)
      else none

def dirtySystem (β : Type) : System (State β) (Event β) where
  init := fun s => s = initDirtyCache
  step := fun s e s' => next s e = some s'

/-- Under a URL the original that was put there is in the table as long as it or a copy is not deleted, with its blocks; then it
has been taken out once, and `doneWriting` was called for its blocks if they had been moved. -/
structure Alive (o : Option (DirtyObject β)) (copies : Nat) (h : Option (History β)) : Prop where
  kept : ∀ h', h = some h' → h'.held = true ∨ 0 < copies →
    (∃ o', o = some o' ∧ o'.allBlocks = some h'.blocks) ∧ h'.removals = 0 ∧ h'.doneWriting = []
  removed : ∀ h', h = some h' → h'.held = false → copies = 0 →
    o = none ∧ h'.removals = 1 ∧ h'.doneWriting = if h'.moved = true then h'.blocks else []
  never : h = none → o = none ∧ copies = 0
  wild : ∀ h', h = some h' → h'.wild = false

/-- The life of all objects, and `numDirty`. -/
structure Lives (s : State β) : Prop where
  alive : ∀ URL, Alive (s.dirtyCache URL) (s.copies.count URL) (s.history URL)
  numDirty : ∃ URLs : Finset Bytes, (∀ URL, URL ∈ URLs ↔ (s.dirtyCache URL).isSome = true) ∧ s.numDirty = URLs.card + s.copies.length

/-- The call does not leave a number of copies that the counter takes for none, and it is not for the last copy of an object that was
moved and whose original is deleted. -/
def Event.Safe (s : State β) : Event β → Prop
  | .deleteOriginal URL => 0 < s.copies.count URL → ¬ 256 ∣ s.copies.count URL
  | .deleteCopy k => ∀ URL, s.copies[k]? = some URL → ¬ s.Held URL →
      (1 < s.copies.count URL → ¬ 256 ∣ s.copies.count URL - 1) ∧ (s.copies.count URL = 1 → (s.history URL).any History.moved = false)
  | _ => True

theorem Alive.copies_eq_zero {copies : Nat} {h : Option (History β)} (halive : Alive none copies h) : copies = 0 := by
  cases h with
  | none => exact (halive.never rfl).2
  | some h' =>
      by_contra hpos
      obtain ⟨⟨o, ho, -⟩, -⟩ := halive.kept h' rfl (.inr (Nat.pos_of_ne_zero hpos))
      cases ho

/-! ## What is true under a URL -/

/-- An original in the table with its history and the number of its copies. -/
structure Live (o : DirtyObject β) (h : History β) (copies : Nat) : Prop where
  last : h.held = true ∨ 0 < copies
  locks : o.locks = BitVec.ofNat 8 (h.held.toNat + copies)
  lDel : o.lDel = !h.held
  hoc : o.hoc = h.moved
  blocks : o.allBlocks = some h.blocks
  removals : h.removals = 0
  wild : h.wild = false
  doneWriting : h.doneWriting = []

/-- An original that was taken out. -/
structure Gone (h : History β) : Prop where
  held : h.held = false
  removals : h.removals = 1
  wild : h.wild = false
  doneWriting : h.doneWriting = if h.moved = true then h.blocks else []

/-- What is in the table for a URL, the number of copies, and the history. -/
inductive Slot : Option (DirtyObject β) → Nat → Option (History β) → Prop
  | never : Slot none 0 none
  | gone {h : History β} (hgone : Gone h) : Slot none 0 (some h)
  | live {o : DirtyObject β} {h : History β} {copies : Nat} (hlive : Live o h copies) : Slot (some o) copies (some h)

section Slot

variable {o : DirtyObject β} {copies : Nat} {h : Option (History β)}

theorem Slot.of_none (hslot : Slot (none : Option (DirtyObject β)) copies h) : copies = 0 ∧ ∀ h', h = some h' → Gone h' := by
  cases hslot with
  | never => exact ⟨rfl, fun h' hh => (by cases hh)⟩
  | gone hgone => exact ⟨rfl, fun h' hh => Option.some.inj hh ▸ hgone⟩

theorem Slot.of_some (hslot : Slot (some o) copies h) : ∃ h', h = some h' ∧ Live o h' copies := by
  cases hslot with
  | live hlive => exact ⟨_, rfl, hlive⟩

theorem Slot.alive {o : Option (DirtyObject β)} (hslot : Slot o copies h) : Alive o copies h := by
  cases hslot with
  | never => exact ⟨fun h' hh => (by cases hh), fun h' hh => (by cases hh), fun _ => ⟨rfl, rfl⟩, fun h' hh => (by cases hh)⟩
  | gone hgone =>
      refine ⟨fun h' hh hor => ?_, fun h' hh _ _ => ?_, fun hh => (by cases hh), fun h' hh => ?_⟩
      · cases hh
        simp [hgone.held] at hor
      · cases hh
        exact ⟨rfl, hgone.removals, hgone.doneWriting⟩
      · cases hh
        exact hgone.wild
  | live hlive =>
      refine ⟨fun h' hh _ => ?_, fun h' hh hheld hzero => ?_, fun hh => (by cases hh), fun h' hh => ?_⟩
      · cases hh
        exact ⟨⟨_, rfl, hlive.blocks⟩, hlive.removals, hlive.doneWriting⟩
      · cases hh
        have hlast := hlive.last
        simp [hheld, hzero] at hlast
      · cases hh
        exact hlive.wild

end Slot

/-- What is true in a run of safe calls. -/
structure Sound (s : State β) : Prop where
  slot : ∀ URL, Slot (s.dirtyCache URL) (s.copies.count URL) (s.history URL)
  numDirty : ∃ URLs : Finset Bytes, (∀ URL, URL ∈ URLs ↔ (s.dirtyCache URL).isSome = true) ∧ s.numDirty = URLs.card + s.copies.length

theorem Sound.lives {s : State β} (h : Sound s) : Lives s := ⟨fun URL => (h.slot URL).alive, h.numDirty⟩

section Steps

variable {s : State β}

/-- A call changes only what belongs to one URL, and `numDirty` follows. -/
theorem Sound.change (h : Sound s) {s' : State β} (URL : Bytes) (hslot : Slot (s'.dirtyCache URL) (s'.copies.count URL) (s'.history URL))
    (hother : ∀ u ≠ URL, s'.dirtyCache u = s.dirtyCache u ∧ s'.copies.count u = s.copies.count u ∧ s'.history u = s.history u)
    (hnum : s'.numDirty - s'.copies.length + (s.dirtyCache URL).isSome.toNat =
      s.numDirty - s.copies.length + (s'.dirtyCache URL).isSome.toNat) : Sound s' := by
  refine ⟨fun u => ?_, ?_⟩
  · by_cases hu : u = URL
    · exact hu ▸ hslot
    · obtain ⟨hcache, hcount, hhistory⟩ := hother u hu
      rw [hcache, hcount, hhistory]
      exact h.slot u
  · obtain ⟨URLs, hmem, hcard⟩ := h.numDirty
    have hothers : ∀ u ≠ URL, (u ∈ URLs ↔ (s'.dirtyCache u).isSome = true) := fun u hu => by rw [(hother u hu).1, hmem u]
    have hbefore : (URLs.erase URL).card + (s.dirtyCache URL).isSome.toNat = URLs.card := by
      cases hin : (s.dirtyCache URL).isSome with
      | true => exact Finset.card_erase_add_one ((hmem URL).mpr hin)
      | false => rw [Finset.erase_eq_of_notMem (fun hu => by rw [(hmem URL).mp hu] at hin; cases hin)]; rfl
    cases hin : (s'.dirtyCache URL).isSome with
    | true =>
        refine ⟨insert URL (URLs.erase URL), fun u => ?_, ?_⟩
        · rw [Finset.mem_insert, Finset.mem_erase]
          by_cases hu : u = URL
          · simp [hu, hin]
          · simp [hu, hothers u hu]
        · rw [Finset.card_insert_of_notMem (Finset.notMem_erase URL URLs)]
          rw [hin, Bool.toNat_true] at hnum
          omega
    | false =>
        refine ⟨URLs.erase URL, fun u => ?_, ?_⟩
        · rw [Finset.mem_erase]
          by_cases hu : u = URL
          · simp [hu, hin]
          · simp [hu, hothers u hu]
        · rw [hin, Bool.toNat_false] at hnum
          omega

theorem sound_createDirtyObject (h : Sound s) {URL : Bytes} {allBlocks : List β} {r : State β × Bool}
    (hcreate : createDirtyObject s URL allBlocks = some r) : Sound r.1 := by
  unfold createDirtyObject at hcreate
  split at hcreate
  · cases hcreate
  · cases ho : s.dirtyCache URL with
    | some o =>
        rw [ho] at hcreate
        cases hcreate
        exact h
    | none =>
        rw [ho] at hcreate
        cases hcreate
        have hslot := h.slot URL
        rw [ho] at hslot
        refine h.change URL ?_ (fun u hu => ⟨update_of_ne hu _ _, rfl, update_of_ne hu _ _⟩) ?_
        · simp only [State.put, update_self]
          exact .live ⟨.inl rfl, by rw [hslot.of_none.1]; rfl, rfl, rfl, rfl, rfl, rfl, rfl⟩
        · simp only [State.put, update_self, ho, Option.isSome_some, Option.isSome_none, Bool.toNat_true, Bool.toNat_false]
          omega

theorem sound_getDirtyObject (h : Sound s) (URL : Bytes) : Sound (getDirtyObject s URL).1 := by
  unfold getDirtyObject
  cases ho : s.dirtyCache URL with
  | none => exact h
  | some o =>
      have hslot := h.slot URL
      rw [ho] at hslot
      obtain ⟨h', hh, hlive⟩ := hslot.of_some
      refine h.change URL ?_ (fun u hu => ⟨update_of_ne hu _ _, ?_, update_of_ne hu _ _⟩) ?_
      · simp only [State.put, update_self, List.count_append, List.count_singleton_self, hh]
        refine .live ⟨.inr (Nat.succ_pos _), ?_, hlive.lDel, hlive.hoc, hlive.blocks, hlive.removals, hlive.wild, hlive.doneWriting⟩
        show o.locks + 1 = BitVec.ofNat 8 (h'.held.toNat + s.copies.count URL + 1)
        rw [hlive.locks, BitVec.ofNat_add (h'.held.toNat + s.copies.count URL)]
        rfl
      · show (s.copies ++ [URL]).count u = s.copies.count u
        rw [List.count_append, List.count_singleton, if_neg (by simpa using Ne.symm hu), Nat.add_zero]
      · simp only [State.put, update_self, ho, Option.isSome_some, List.length_append, List.length_singleton]
        omega

theorem Sound.held (h : Sound s) {URL : Bytes} (hheld : s.Held URL) :
    ∃ o h', s.dirtyCache URL = some o ∧ s.history URL = some h' ∧ h'.held = true ∧ Live o h' (s.copies.count URL) := by
  have hslot := h.slot URL
  obtain ⟨h', hh, hheld'⟩ := (Option.any_eq_true _ _).mp hheld
  cases ho : s.dirtyCache URL with
  | none =>
      rw [ho] at hslot
      exact absurd ((hslot.of_none.2 h' hh).held.symm.trans hheld') Bool.false_ne_true
  | some o =>
      rw [ho] at hslot
      obtain ⟨h'', hh', hlive⟩ := hslot.of_some
      rw [hh] at hh'
      cases hh'
      exact ⟨o, h', rfl, hh, hheld', hlive⟩

theorem sound_reAssignBlocks (h : Sound s) (URL : Bytes) (newBlocks : List β) (hheld : s.Held URL) :
    Sound (reAssignBlocks s URL newBlocks) := by
  obtain ⟨o, h', ho, hh, -, hlive⟩ := h.held hheld
  refine h.change URL ?_ (fun u hu => ⟨update_of_ne hu _ _, rfl, update_of_ne hu _ _⟩) ?_
  · simp only [reAssignBlocks, State.put, update_self, ho, hh]
    exact .live ⟨hlive.last, hlive.locks, hlive.lDel, rfl, by simp [hlive.blocks], hlive.removals, hlive.wild, hlive.doneWriting⟩
  · simp only [reAssignBlocks, State.put, update_self, Option.isSome_map]

theorem sound_deleteOriginal (h : Sound s) (URL : Bytes) (hheld : s.Held URL)
    (hsafe : 0 < s.copies.count URL → ¬ 256 ∣ s.copies.count URL) : Sound (deleteOriginal s URL).1 := by
  obtain ⟨o, h', ho, hh, hheld', hlive⟩ := h.held hheld
  have hlocks : o.locks - 1 = BitVec.ofNat 8 (s.copies.count URL) := by
    rw [hlive.locks, hheld', Bool.toNat_true, Nat.add_comm, Wrapping.ofNat_succ_sub_one]
  unfold deleteOriginal
  simp only [ho, hlocks, Wrapping.ofNat_eq_zero, Nat.reducePow, hh, Option.map_some]
  by_cases hzero : s.copies.count URL = 0
  · rw [if_pos (hzero ▸ Nat.dvd_zero 256)]
    refine h.change URL ?_ (fun u hu => ⟨update_of_ne hu _ _, rfl, update_of_ne hu _ _⟩) ?_
    · simp only [State.put, update_self, hzero]
      cases hmoved : h'.moved with
      | true =>
          rw [hlive.hoc, hmoved, if_pos rfl, hlive.blocks]
          exact .gone ⟨rfl, by simp [History.walk, hlive.removals], hlive.wild, by simp [History.walk, hlive.doneWriting]⟩
      | false =>
          rw [hlive.hoc, hmoved, if_neg Bool.false_ne_true]
          exact .gone ⟨rfl, by simp [hlive.removals], hlive.wild, by simp [hlive.doneWriting]⟩
    · simp only [State.put, update_self, ho, Option.isSome_some, Option.isSome_none, Bool.toNat_true, Bool.toNat_false]
      omega
  · rw [if_neg (hsafe (Nat.pos_of_ne_zero hzero))]
    refine h.change URL ?_ (fun u hu => ⟨update_of_ne hu _ _, rfl, update_of_ne hu _ _⟩) ?_
    · simp only [State.put, update_self]
      exact .live ⟨.inr (Nat.pos_of_ne_zero hzero), by simp, rfl, hlive.hoc, hlive.blocks, hlive.removals, hlive.wild, hlive.doneWriting⟩
    · simp only [State.put, update_self, ho, Option.isSome_some]

theorem count_eraseIdx {copies : List Bytes} {k : Nat} {URL : Bytes} (hk : copies[k]? = some URL) :
    (copies.eraseIdx k).count URL + 1 = copies.count URL ∧ (∀ u ≠ URL, (copies.eraseIdx k).count u = copies.count u) ∧
      (copies.eraseIdx k).length + 1 = copies.length := by
  obtain ⟨hlt, hget⟩ := List.getElem?_eq_some_iff.mp hk
  have hperm := List.getElem_cons_eraseIdx_perm hlt
  rw [hget] at hperm
  refine ⟨?_, fun u hu => ?_, ?_⟩
  · rw [← hperm.count_eq, List.count_cons_self]
  · rw [← hperm.count_eq, List.count_cons_of_ne hu.symm]
  · rw [← hperm.length_eq, List.length_cons]

theorem sound_deleteCopy (h : Sound s) {k : Nat} {URL : Bytes} (hk : s.copies[k]? = some URL)
    (hsafe : ¬ s.Held URL → (1 < s.copies.count URL → ¬ 256 ∣ s.copies.count URL - 1) ∧
      (s.copies.count URL = 1 → (s.history URL).any History.moved = false)) : Sound (deleteCopy s k URL).1 := by
  have hslot := h.slot URL
  obtain ⟨hcount, hcounts, hlength⟩ := count_eraseIdx hk
  unfold deleteCopy
  cases ho : s.dirtyCache URL with
  | none =>
      rw [ho] at hslot
      have hnone := hslot.of_none.1
      omega
  | some o =>
      rw [ho] at hslot
      obtain ⟨h', hh, hlive⟩ := hslot.of_some
      have hlocks : o.locks - 1 = BitVec.ofNat 8 (h'.held.toNat + (s.copies.eraseIdx k).count URL) := by
        rw [hlive.locks, ← hcount, ← Nat.add_assoc, Wrapping.ofNat_succ_sub_one]
      have hkept : h'.held = true ∨ 0 < (s.copies.eraseIdx k).count URL →
          Sound (State.put { s with copies := s.copies.eraseIdx k, numDirty := s.numDirty - 1 } URL
            (some { o with locks := o.locks - 1 }) (s.history URL)) := by
        intro hlast
        refine h.change URL ?_ (fun u hu => ⟨update_of_ne hu _ _, hcounts u hu, update_of_ne hu _ _⟩) ?_
        · simp only [State.put, update_self, hh]
          exact .live ⟨hlast, hlocks, hlive.lDel, hlive.hoc, hlive.blocks, hlive.removals, hlive.wild, hlive.doneWriting⟩
        · simp only [State.put, update_self, ho, Option.isSome_some]
          omega
      simp only [hlocks, Wrapping.ofNat_eq_zero, Nat.reducePow]
      rw [hlocks] at hkept
      cases hheld : h'.held with
      | true =>
          rw [if_neg (by simp [hlive.lDel, hheld])]
          rw [hheld] at hkept
          exact hkept (.inl rfl)
      | false =>
          have hnot : ¬ s.Held URL := by
            rw [State.Held, hh]
            simp [hheld]
          obtain ⟨hmany, hone⟩ := hsafe hnot
          rw [hheld] at hkept
          simp only [Bool.toNat_false, Nat.zero_add] at hkept ⊢
          by_cases hzero : (s.copies.eraseIdx k).count URL = 0
          · have hmoved : h'.moved = false := by
              have hsome := hone (by omega)
              rwa [hh] at hsome
            rw [hzero, if_pos ⟨Nat.dvd_zero 256, by rw [hlive.lDel, hheld]; rfl⟩, hlive.hoc, hmoved]
            refine h.change URL ?_ (fun u hu => ⟨update_of_ne hu _ _, hcounts u hu, update_of_ne hu _ _⟩) ?_
            · simp only [State.put, update_self, hh, hzero]
              exact .gone ⟨hheld, by simp [hlive.removals], hlive.wild, by simp [hlive.doneWriting, hmoved]⟩
            · simp only [State.put, update_self, ho, Option.isSome_some, Option.isSome_none, Bool.toNat_true, Bool.toNat_false]
              omega
          · have hlarge : ¬ 256 ∣ (s.copies.eraseIdx k).count URL := by
              have hrest := hmany (by omega)
              rwa [← hcount, Nat.add_sub_cancel] at hrest
            rw [if_neg (fun hand => hlarge hand.1)]
            exact hkept (.inr (Nat.pos_of_ne_zero hzero))

theorem sound_next (h : Sound s) {e : Event β} (hsafe : e.Safe s) {s' : State β} (hnext : next s e = some s') : Sound s' := by
  cases e with
  | createDirtyObject URL allBlocks =>
      obtain ⟨r, hr, rfl⟩ := Option.map_eq_some_iff.mp hnext
      exact sound_createDirtyObject h hr
  | getDirtyObject URL =>
      cases hnext
      exact sound_getDirtyObject h URL
  | deleteOriginal URL =>
      obtain ⟨hheld, hs'⟩ := Option.ite_none_right_eq_some.mp hnext
      cases hs'
      exact sound_deleteOriginal h URL hheld hsafe
  | deleteCopy k =>
      obtain ⟨URL, hk, rfl⟩ := Option.map_eq_some_iff.mp hnext
      exact sound_deleteCopy h hk (hsafe URL hk)
  | reAssignBlocks URL newBlocks =>
      obtain ⟨hcond, hs'⟩ := Option.ite_none_right_eq_some.mp hnext
      cases hs'
      exact sound_reAssignBlocks h URL newBlocks hcond.1

/-- A call that is not safe takes an original out too early, or goes through a destroyed list. -/
theorem Lives.safe (h : Sound s) {e : Event β} {s' : State β} (hnext : next s e = some s') (h' : Lives s') : e.Safe s := by
  cases e with
  | deleteOriginal URL =>
      obtain ⟨hheld, hs'⟩ := Option.ite_none_right_eq_some.mp hnext
      cases hs'
      intro hpos hdvd
      obtain ⟨o, hist, ho, -, hheld', hlive⟩ := h.held hheld
      have halive := h'.alive URL
      have hlocks : o.locks - 1 = 0 := by
        rw [hlive.locks, hheld', Bool.toNat_true, Nat.add_comm, Wrapping.ofNat_succ_sub_one, Wrapping.ofNat_eq_zero]
        exact hdvd
      simp only [deleteOriginal, ho, if_pos hlocks, State.put, update_self] at halive
      have hzero := halive.copies_eq_zero
      omega
  | deleteCopy k =>
      obtain ⟨URL, hk, rfl⟩ := Option.map_eq_some_iff.mp hnext
      intro URL' hk' hnot
      cases hk.symm.trans hk'
      obtain ⟨hcount, -, -⟩ := count_eraseIdx hk
      have hslot := h.slot URL
      have halive := h'.alive URL
      cases ho : s.dirtyCache URL with
      | none =>
          rw [ho] at hslot
          have hzero := hslot.of_none.1
          omega
      | some o =>
          rw [ho] at hslot
          obtain ⟨hist, hh, hlive⟩ := hslot.of_some
          have hheld : hist.held = false := by
            rw [State.Held, hh] at hnot
            simpa using hnot
          have hlocks : o.locks - 1 = 0 ↔ 256 ∣ (s.copies.eraseIdx k).count URL := by
            rw [hlive.locks, hheld, Bool.toNat_false, Nat.zero_add, ← hcount, Wrapping.ofNat_succ_sub_one]
            exact Wrapping.ofNat_eq_zero
          have hdel : o.lDel = true := by
            rw [hlive.lDel, hheld]
            rfl
          refine ⟨fun hmany hdvd => ?_, fun hone => ?_⟩
          · rw [← hcount, Nat.add_sub_cancel] at hdvd
            simp only [deleteCopy, ho, if_pos (And.intro (hlocks.mpr hdvd) hdel), State.put, update_self] at halive
            have hzero := halive.copies_eq_zero
            omega
          · have hzero : (s.copies.eraseIdx k).count URL = 0 := by omega
            have hlast : o.locks - 1 = 0 := hlocks.mpr (hzero ▸ Nat.dvd_zero 256)
            rw [hh]
            by_contra hmoved
            have hhoc : o.hoc = true := by
              rw [hlive.hoc]
              simpa using hmoved
            simp only [deleteCopy, ho, if_pos (And.intro hlast hdel), if_pos hhoc, State.put, update_self, hh, Option.map_some] at halive
            exact absurd (halive.wild _ rfl) (by simp [History.walk])
  | createDirtyObject | getDirtyObject | reAssignBlocks => exact trivial

end Steps

theorem sound_runs {events : List (Event β)} {s : State β} (hrun : ((dirtySystem β).restrict fun s e => e.Safe s).Runs events s) :
    Sound s := by
  have hinv : ((dirtySystem β).restrict fun s e => e.Safe s).Invariant (Sound (β := β)) := by
    refine ⟨fun s hs => ?_, fun s e s' h hstep => sound_next h hstep.1 hstep.2⟩
    rw [hs]
    exact ⟨fun _ => .never, ∅, fun _ => by simp [initDirtyCache], rfl⟩
  exact hinv.holds hrun

/-- Every object lives as long as it should in every state of a run just when all calls of the run are safe. -/
theorem lives_iff {events : List (Event β)} {s : State β} (hrun : (dirtySystem β).Runs events s) :
    (∀ before t, before <+: events → (dirtySystem β).Runs before t → Lives t) ↔
      ((dirtySystem β).restrict fun s e => e.Safe s).Runs events s := by
  refine System.Runs.forall_prefix_iff (fun s s' hs hs' => hs.trans hs'.symm) (fun s e s₁ s₂ h₁ h₂ => Option.some.inj (h₁.symm.trans h₂))
    (fun labels s h => (sound_runs h).lives) (fun labels s e s' h hstep h' => h'.safe (sound_runs h) hstep) hrun

/-- The writer is the last. -/
theorem lives_sample : ∃ s : State Nat, Lives s ∧ s.numDirty = 0 ∧ (s.history [47]).any (fun h => h.doneWriting = [7, 8]) = true := by
  have hrun : (dirtySystem Nat).Runs ([] ++ [Event.createDirtyObject [47] [1, 2]] ++ [Event.getDirtyObject [47]] ++
      [Event.reAssignBlocks [47] [7, 8]] ++
      [Event.deleteCopy 0] ++ [Event.deleteOriginal [47]]) _ := .step (.step (.step (.step (.step (.start rfl) rfl) rfl) rfl) rfl) rfl
  refine ⟨_, (lives_iff hrun).mpr ?_ _ _ (List.prefix_refl _) hrun, by decide, by decide⟩
  refine .step (.step (.step (.step (.step (.start rfl) ⟨trivial, rfl⟩) ⟨trivial, rfl⟩) ⟨trivial, rfl⟩) ⟨?_, rfl⟩) ⟨?_, rfl⟩
  · intro URL hk hnot
    obtain rfl : [47] = URL := Option.some.inj hk
    exact absurd (by decide) hnot
  · exact fun hpos => absurd hpos (by decide)

/-- A reader is the last: the list of the blocks, which are now in the hot object cache, is gone when they are to be given back. -/
theorem moved_list_destroyed : ∃ (events : List (Event Nat)) (s : State Nat), (dirtySystem Nat).Runs events s ∧ s.copies = [] ∧
    (s.history [47]).any (fun h => h.moved = true ∧ h.doneWriting = [] ∧ h.wild = true) = true ∧ ¬ Lives s := by
  have hrun : (dirtySystem Nat).Runs ([] ++ [Event.createDirtyObject [47] [1, 2]] ++ [Event.getDirtyObject [47]] ++
      [Event.reAssignBlocks [47] [7, 8]] ++
      [Event.deleteOriginal [47]] ++ [Event.deleteCopy 0]) _ := .step (.step (.step (.step (.step (.start rfl) rfl) rfl) rfl) rfl) rfl
  refine ⟨_, _, hrun, by decide, by decide, fun h => ?_⟩
  have hdone := (h.alive [47]).removed _ rfl rfl (by decide)
  exact absurd hdone.2.2 (by decide)

end BeagleCache.DirtyObjects
