import Mathlib.Tactic
import BeagleCache.LinkedSort
import BeagleCache.Transition

/-! Calls on a list (list.c), one after the other, beside a mathematical sequence with a current element that the same calls are made
on. -/

namespace BeagleCache.LinkedList

open DoublyLinked
open Transition

variable {α : Type}

/-! ## A well-formed list -/

/-- From `p` the elements are visited in order, and then comes `NULL`. -/
def Visits (nodes : Heap Ptr (Entry α)) : Option Ptr → List (Ptr × Entry α) → Prop
  | p, [] => p = none
  | p, x :: rest => p = some x.1 ∧ ∃ e, nodes x.1 = some e ∧ e.body = x.2 ∧ Visits nodes e.next rest

/-- A list is the sequence of its elements. -/
structure WellFormed (L : LinkedList α) (seq : List (Ptr × Entry α)) : Prop where
  size : L.size = seq.length
  once : (keys seq).Nodup
  visits : Visits L.nodes L.head seq
  tail : L.tail = final seq
  inverse : ∀ k l, (∃ e, L.nodes k = some e ∧ e.next = some l) ↔ ∃ e, L.nodes l = some e ∧ e.prev = some k
  head_none : L.head = none ↔ L.size = 0
  tail_none : L.tail = none ↔ L.size = 0

section WellFormed

variable {L : LinkedList α} {seq xs ys : List (Ptr × Entry α)} {k : Ptr} {b : Entry α}

theorem Linked.visits (h : Linked L (xs ++ ys)) : Visits L.nodes (first ys) ys := by
  induction ys generalizing xs with
  | nil => rfl
  | cons y ys ih => exact ⟨rfl, _, Linked.cell (b := y.2) h, rfl, ih (show Linked L (xs ++ [y] ++ ys) by simpa using h)⟩

theorem Linked.next_iff (h : Linked L seq) (k l : Ptr) :
    (∃ e, L.nodes k = some e ∧ e.next = some l) ↔ ∃ xs b c ys, seq = xs ++ (k, b) :: (l, c) :: ys := by
  constructor
  · rintro ⟨e, hcell, hnext⟩
    obtain ⟨xs, b, ys, rfl⟩ := split_of_mem (h.allocated.mp (by rw [hcell]; exact Option.some_ne_none e))
    cases h.cell.symm.trans hcell
    obtain ⟨⟨l, c⟩, rest, rfl, rfl⟩ := first_mem hnext
    exact ⟨xs, b, c, rest, rfl⟩
  · rintro ⟨xs, b, c, ys, rfl⟩
    exact ⟨_, h.cell, rfl⟩

theorem Linked.prev_iff (h : Linked L seq) (k l : Ptr) :
    (∃ e, L.nodes l = some e ∧ e.prev = some k) ↔ ∃ xs b c ys, seq = xs ++ (k, b) :: (l, c) :: ys := by
  constructor
  · rintro ⟨e, hcell, hprev⟩
    obtain ⟨xs, c, ys, rfl⟩ := split_of_mem (h.allocated.mp (by rw [hcell]; exact Option.some_ne_none e))
    cases h.cell.symm.trans hcell
    obtain ⟨before, ⟨k, b⟩, rfl, rfl⟩ := final_mem hprev
    exact ⟨before, b, c, ys, (List.append_cons before (k, b) ((l, c) :: ys)).symm⟩
  · rintro ⟨xs, b, c, ys, rfl⟩
    rw [List.append_cons] at h
    exact ⟨_, h.cell, final_concat xs (k, b)⟩

theorem Linked.wellFormed (h : Linked L seq) : WellFormed L seq where
  size := h.size
  once := h.nodup
  visits := by
    rw [h.head]
    exact Linked.visits (show Linked L ([] ++ seq) from h)
  tail := h.tail
  inverse := fun k l => (h.next_iff k l).trans (h.prev_iff k l).symm
  head_none := by
    rw [h.head, h.size_eq_zero]
    cases seq <;> simp
  tail_none := by
    rw [h.tail, h.size_eq_zero]
    constructor
    · intro hnone
      by_contra hne
      obtain ⟨before, x, rfl⟩ := (List.eq_nil_or_concat' seq).resolve_left hne
      cases (final_concat before x).symm.trans hnone
    · rintro rfl
      rfl

theorem Visits.last {nodes : Heap Ptr (Entry α)} {p : Option Ptr} (h : Visits nodes p seq) (hk : final seq = some k) :
    (nodes k).map Cell.next = some none := by
  induction seq generalizing p with
  | nil => cases hk
  | cons x rest ih =>
      obtain ⟨-, e, hcell, -, hrest⟩ := h
      cases rest with
      | nil =>
          obtain rfl : x.1 = k := Option.some.inj hk
          rw [hcell]
          exact congrArg some hrest
      | cons y ys => exact ih hrest ((final_append_of_ne [x] (List.cons_ne_nil y ys)).symm.trans hk)

theorem WellFormed.tail_next (h : WellFormed L seq) (hk : L.tail = some k) : (L.nodes k).map Cell.next = some none :=
  h.visits.last (h.tail.symm.trans hk)

end WellFormed

/-! ## A sequence with a current element -/

structure Items (α : Type) where
  seq : List (Ptr × Entry α)
  current : Option Ptr

/-- The calls. `newOne` is where `malloc` finds room, and `memory` what it returns for an array. -/
inductive Event (α : Type)
  | addToHead (newOne : Ptr) (value : Int) (data : α)
  | addToTail (newOne : Ptr) (value : Int) (data : α)
  | addSorted (newOne : Ptr) (data : α) (value : Int)
  | delete (value : Int)
  | deleteHead
  | deleteTail
  | sort (memory : Nat → Temp)
  | startIter
  | endIter
  | setIter (p : Ptr)
  | move
  | getPresentData
  | setPresentData (dat : α)
  | deletePresent
  | movePresentToTail

namespace Items

def At (I : Items α) (x : Ptr × Entry α) : Prop := I.current = some x.1

instance (I : Items α) : DecidablePred I.At := fun x => inferInstanceAs (Decidable (I.current = some x.1))

/-- The current element is one of the sequence. -/
def OnItem (I : Items α) : Prop := ∃ x ∈ I.seq, I.At x

instance (I : Items α) : Decidable I.OnItem := inferInstanceAs (Decidable (∃ x ∈ I.seq, I.At x))

/-- The element behind the current one. -/
def following (I : Items α) : Option Ptr := first (I.seq.dropWhile fun x => ¬I.At x).tail

/-- The current element comes last; the others stay in order. -/
def toTail (I : Items α) : List (Ptr × Entry α) := (I.seq.filter fun x => ¬I.At x) ++ I.seq.filter fun x => I.At x

end Items

/-- A call on the sequence. -/
def Event.items (I : Items α) : Event α → Items α
  | .addToHead newOne value data => { I with seq := (newOne, ⟨value, data⟩) :: I.seq }
  | .addToTail newOne value data => { I with seq := I.seq ++ [(newOne, ⟨value, data⟩)] }
  | .addSorted newOne data value =>
      { I with
        seq := (I.seq.takeWhile fun x => x.2.value < value) ++ (newOne, ⟨value, data⟩) :: I.seq.dropWhile fun x => x.2.value < value }
  | .delete value => { I with seq := I.seq.filter fun x => x.2.value ≠ value }
  | .deleteHead => { I with seq := I.seq.tail }
  | .deleteTail => { I with seq := I.seq.dropLast }
  | .sort _ => ⟨sorted I.seq, if I.seq = [] then I.current else none⟩
  | .startIter => { I with current := first I.seq }
  | .endIter => { I with current := final I.seq }
  | .setIter p => { I with current := some p }
  | .move => if I.OnItem then { I with current := I.following } else I
  | .getPresentData => I
  | .setPresentData dat => { I with seq := I.seq.map fun x => if I.At x then (x.1, { x.2 with data := dat }) else x }
  | .deletePresent => if I.OnItem then ⟨I.seq.filter fun x => ¬I.At x, I.following⟩ else I
  | .movePresentToTail => { I with seq := I.toTail }

/-- A call on the list. -/
def Event.call (rounds : Nat) (L : LinkedList α) : Event α → Run (LinkedList α)
  | .addToHead newOne value data => Prod.snd <$> LinkedList.addToHead L newOne value data
  | .addToTail newOne value data => Prod.snd <$> LinkedList.addToTail L newOne value data
  | .addSorted newOne data value => Prod.snd <$> LinkedList.addSorted rounds L newOne data value
  | .delete value => Prod.snd <$> LinkedList.delete rounds L value
  | .deleteHead => Prod.snd <$> LinkedList.deleteHead L
  | .deleteTail => Prod.snd <$> LinkedList.deleteTail L
  | .sort memory => Prod.snd <$> LinkedList.sort rounds L memory
  | .startIter => return LinkedList.startIter L
  | .endIter => return LinkedList.endIter L
  | .setIter p => return LinkedList.setIter L p
  | .move => LinkedList.move L
  | .getPresentData => (fun _ => L) <$> LinkedList.getPresentData L
  | .setPresentData dat => Prod.snd <$> LinkedList.setPresentData L dat
  | .deletePresent => Prod.snd <$> LinkedList.deletePresent L
  | .movePresentToTail => Prod.snd <$> LinkedList.movePresentToTail L

/-- There is no list once a call has not returned. -/
structure State (α : Type) where
  list : Option (LinkedList α)
  items : Items α

/-- A loop along the list may take as many rounds as it has elements, and two more. -/
def Event.next (s : State α) (e : Event α) : State α where
  list := s.list.bind fun L => (e.call (s.items.seq.length + 2) L).toOption
  items := e.items s.items

/-- What a caller, and `malloc`, promise: a new element is where none is, and the iterator is set to an element of the list. -/
def Event.Allowed (s : State α) : Event α → Prop
  | .addToHead newOne _ _ | .addToTail newOne _ _ | .addSorted newOne _ _ => ∀ L, s.list = some L → L.nodes newOne = none
  | .setIter p => p ∈ keys s.items.seq
  | _ => True

def listSystem (start : State α) : System (State α) (Event α) where
  init := fun s => s = start
  step := fun s e s' => e.Allowed s ∧ s' = e.next s

/-- A call that leaves the list well-formed: `delete` never does, an element is moved to the tail only where it is, and the iterator is
not where an element has been freed. -/
def Event.Safe (s : State α) : Event α → Prop
  | .delete _ => False
  | .movePresentToTail => s.items.seq.length = 1 ∨ s.items.current ≠ none ∧ s.items.current = final s.items.seq
  | .deletePresent => s.items.current = none ∨ s.items.seq.length ≤ 1 ∨ s.items.OnItem
  | .move | .getPresentData | .setPresentData _ => s.items.current = none ∨ s.items.OnItem
  | _ => True

/-- The list is the sequence, and the iterator is at its current element. -/
def Good (s : State α) : Prop := ∃ L, s.list = some L ∧ Linked L s.items.seq ∧ L.iterator = s.items.current

section Current

variable {I : Items α} {xs ys : List (Ptr × Entry α)} {k : Ptr} {b : Entry α}

theorem Items.OnItem.split (h : I.OnItem) : ∃ xs k b ys, I.seq = xs ++ (k, b) :: ys ∧ I.current = some k := by
  obtain ⟨⟨k, b⟩, hmem, hat⟩ := h
  obtain ⟨xs, ys, hseq⟩ := List.append_of_mem hmem
  exact ⟨xs, k, b, ys, hseq, hat⟩

theorem Items.onItem_iff (I : Items α) : I.OnItem ↔ ∃ k ∈ keys I.seq, I.current = some k := by
  constructor
  · rintro ⟨x, hmem, hat⟩
    exact ⟨x.1, List.mem_map_of_mem hmem, hat⟩
  · rintro ⟨k, hk, hat⟩
    obtain ⟨x, hmem, rfl⟩ := List.mem_map.mp hk
    exact ⟨x, hmem, hat⟩

theorem Items.not_at (hnodup : (keys I.seq).Nodup) (hseq : I.seq = xs ++ (k, b) :: ys) (hk : I.current = some k) :
    (∀ x ∈ xs, ¬I.At x) ∧ ∀ y ∈ ys, ¬I.At y := by
  rw [hseq] at hnodup
  obtain ⟨hkx, hky⟩ := split_unique hnodup
  have hother : ∀ zs : List (Ptr × Entry α), k ∉ keys zs → ∀ z ∈ zs, ¬I.At z := by
    intro zs hkz z hz hat
    cases hk.symm.trans hat
    exact hkz (List.mem_map_of_mem hz)
  exact ⟨hother xs hkx, hother ys hky⟩

theorem Items.filter_not_at (hnodup : (keys I.seq).Nodup) (hseq : I.seq = xs ++ (k, b) :: ys) (hk : I.current = some k) :
    (I.seq.filter fun x => ¬I.At x) = xs ++ ys := by
  obtain ⟨hxs, hys⟩ := Items.not_at hnodup hseq hk
  have hat : I.At (k, b) := hk
  rw [hseq, List.filter_append, List.filter_cons_of_neg (by simpa using hat), List.filter_eq_self.mpr (by simpa using hxs),
    List.filter_eq_self.mpr (by simpa using hys)]

theorem Items.following_eq (hnodup : (keys I.seq).Nodup) (hseq : I.seq = xs ++ (k, b) :: ys) (hk : I.current = some k) :
    I.following = first ys := by
  obtain ⟨hxs, -⟩ := Items.not_at hnodup hseq hk
  have hat : I.At (k, b) := hk
  unfold Items.following
  rw [hseq, List.dropWhile_append_of_pos (by simpa using hxs), List.dropWhile_cons_of_neg (by simpa using hat)]
  rfl

theorem Items.map_at (hnodup : (keys I.seq).Nodup) (hseq : I.seq = xs ++ (k, b) :: ys) (hk : I.current = some k)
    (f : Ptr × Entry α → Ptr × Entry α) : (I.seq.map fun x => if I.At x then f x else x) = xs ++ f (k, b) :: ys := by
  obtain ⟨hxs, hys⟩ := Items.not_at hnodup hseq hk
  have hat : I.At (k, b) := hk
  have hsame : ∀ zs : List (Ptr × Entry α), (∀ z ∈ zs, ¬I.At z) → (zs.map fun x => if I.At x then f x else x) = zs := by
    intro zs hzs
    exact (List.map_congr_left fun z hz => if_neg (hzs z hz)).trans (List.map_id' zs)
  rw [hseq, List.map_append, List.map_cons, hsame xs hxs, hsame ys hys, if_pos hat]

theorem Items.toTail_last (hnodup : (keys I.seq).Nodup) (hseq : I.seq = xs ++ [(k, b)]) (hk : I.current = some k) : I.toTail = I.seq := by
  obtain ⟨hxs, -⟩ := Items.not_at hnodup hseq hk
  have hat : I.At (k, b) := hk
  unfold Items.toTail
  rw [Items.filter_not_at hnodup hseq hk, hseq, List.filter_append, List.filter_eq_nil_iff.mpr (by simpa using hxs),
    List.filter_cons_of_pos (by simpa using hat)]
  simp

theorem Items.toTail_one {x : Ptr × Entry α} (hseq : I.seq = [x]) : I.toTail = I.seq := by
  unfold Items.toTail
  rw [hseq]
  by_cases hat : I.At x
  · simp [hat]
  · simp [hat]

end Current

/-! ## One call -/

section Step

variable {s : State α} {L : LinkedList α} {e : Event α}

theorem good_of_call {L' : LinkedList α} (hlist : s.list = some L) (hcall : e.call (s.items.seq.length + 2) L = .ok L')
    (hlinked : Linked L' (e.items s.items).seq) (hiter : L'.iterator = (e.items s.items).current) : Good (e.next s) := by
  refine ⟨L', ?_, hlinked, hiter⟩
  unfold Event.next
  dsimp only
  rw [hlist, Option.bind_some, hcall]
  rfl

theorem good_of_spec {r : Run (Int × LinkedList α)} (hlist : s.list = some L) (hcall : e.call (s.items.seq.length + 2) L = Prod.snd <$> r)
    {n : Int} (hspec : ∃ L', r = .ok (n, L') ∧ Linked L' (e.items s.items).seq ∧ L'.iterator = (e.items s.items).current) :
    Good (e.next s) := by
  obtain ⟨L', hr, hlinked, hiter⟩ := hspec
  refine good_of_call hlist ?_ hlinked hiter
  rw [hcall, hr]
  rfl

/-- An iterator that is not at an element of a list with one element, or with none, does nothing. -/
theorem deletePresent_off {seq : List (Ptr × Entry α)} (h : Linked L seq) (hoff : ∀ k ∈ keys seq, L.iterator ≠ some k)
    (hfew : L.iterator = none ∨ seq.length ≤ 1) : ∃ n, deletePresent L = .ok (n, L) := by
  unfold deletePresent
  by_cases hnone : L.iterator = none
  · exact ⟨0, if_pos hnone⟩
  · rw [if_neg hnone]
    by_cases hzero : L.size = 0
    · exact ⟨0, if_pos hzero⟩
    · have hone : seq.length = 1 := by
        have hsize := h.size
        have hle := hfew.resolve_left hnone
        omega
      obtain ⟨x, rfl⟩ := List.length_eq_one_iff.mp hone
      have hhead : L.iterator ≠ L.head := by
        rw [h.head]
        exact hoff x.1 List.mem_cons_self
      rw [if_neg hzero, if_pos ⟨h.size_eq_one.mpr ⟨x, rfl⟩, hhead⟩]
      exact ⟨-1, rfl⟩

theorem good_move (h : Good s) (hsafe : (Event.move : Event α).Safe s) : Good (Event.move.next s) := by
  obtain ⟨L, hlist, hL, hiter⟩ := h
  rcases hsafe with hnone | hon
  · have hoff : ¬s.items.OnItem := by
      rintro ⟨x, -, hat⟩
      cases hnone.symm.trans hat
    have hitems : (Event.move : Event α).items s.items = s.items := if_neg hoff
    refine good_of_call hlist (if_pos (hiter.trans hnone)) ?_ ?_
    · rwa [hitems]
    · rwa [hitems]
  · obtain ⟨xs, k, b, ys, hseq, hk⟩ := hon.split
    have hitems : (Event.move : Event α).items s.items = { s.items with current := s.items.following } := if_pos hon
    have hL' : Linked L (xs ++ (k, b) :: ys) := hseq ▸ hL
    refine good_of_call hlist (move_spec hL' (hiter.trans hk)) ?_ ?_
    · rw [hitems]
      exact ⟨hL.nodup, hL.nodes, hL.head, hL.tail, hL.size⟩
    · rw [hitems]
      exact (Items.following_eq hL.nodup hseq hk).symm

theorem good_getPresentData (h : Good s) (hsafe : (Event.getPresentData : Event α).Safe s) : Good (Event.getPresentData.next s) := by
  obtain ⟨L, hlist, hL, hiter⟩ := h
  rcases hsafe with hnone | hon
  · refine good_of_call hlist ?_ hL hiter
    unfold Event.call getPresentData
    rw [if_pos (hiter.trans hnone)]
    rfl
  · obtain ⟨xs, k, b, ys, hseq, hk⟩ := hon.split
    refine good_of_call hlist ?_ hL hiter
    unfold Event.call
    dsimp only
    rw [getPresentData_spec (hseq ▸ hL) (hiter.trans hk)]
    rfl

theorem good_setPresentData {dat : α} (h : Good s) (hsafe : (Event.setPresentData dat).Safe s) :
    Good ((Event.setPresentData dat).next s) := by
  obtain ⟨L, hlist, hL, hiter⟩ := h
  rcases hsafe with hnone | hon
  · have hmap : (s.items.seq.map fun x => if s.items.At x then (x.1, { x.2 with data := dat }) else x) = s.items.seq := by
      refine (List.map_congr_left fun x _ => if_neg fun hat => ?_).trans (List.map_id' s.items.seq)
      cases hnone.symm.trans hat
    refine good_of_spec hlist rfl ⟨L, if_pos (hiter.trans hnone), ?_, hiter⟩
    rw [Event.items, hmap]
    exact hL
  · obtain ⟨xs, k, b, ys, hseq, hk⟩ := hon.split
    obtain ⟨L', hrun, hL', hiter'⟩ := setPresentData_spec (hseq ▸ hL) (hiter.trans hk) dat
    refine good_of_spec hlist rfl ⟨L', hrun, ?_, hiter'.trans hiter⟩
    rw [Event.items, Items.map_at hL.nodup hseq hk fun x => (x.1, { x.2 with data := dat })]
    exact hL'

theorem good_deletePresent (h : Good s) (hsafe : (Event.deletePresent : Event α).Safe s) : Good (Event.deletePresent.next s) := by
  obtain ⟨L, hlist, hL, hiter⟩ := h
  by_cases hon : s.items.OnItem
  · obtain ⟨xs, k, b, ys, hseq, hk⟩ := hon.split
    have hitems : (Event.deletePresent : Event α).items s.items = ⟨s.items.seq.filter fun x => ¬s.items.At x, s.items.following⟩ :=
        if_pos hon
    obtain ⟨L', hrun, hL', hiter'⟩ := deletePresent_spec (hseq ▸ hL) (hiter.trans hk)
    refine good_of_spec hlist rfl ⟨L', hrun, ?_, ?_⟩
    · rw [hitems, Items.filter_not_at hL.nodup hseq hk]
      exact hL'
    · rw [hitems, Items.following_eq hL.nodup hseq hk]
      exact hiter'
  · have hitems : (Event.deletePresent : Event α).items s.items = s.items := if_neg hon
    have hoff : ∀ k ∈ keys s.items.seq, L.iterator ≠ some k := fun k hk hat =>
      hon ((Items.onItem_iff s.items).mpr ⟨k, hk, hiter.symm.trans hat⟩)
    have hfew : L.iterator = none ∨ s.items.seq.length ≤ 1 := by
      rw [hiter]
      rcases hsafe with hnone | hle | hon'
      · exact .inl hnone
      · exact .inr hle
      · exact absurd hon' hon
    obtain ⟨n, hrun⟩ := deletePresent_off hL hoff hfew
    refine good_of_spec hlist rfl ⟨L, hrun, ?_, ?_⟩
    · rwa [hitems]
    · rwa [hitems]

theorem good_movePresentToTail (h : Good s) (hsafe : (Event.movePresentToTail : Event α).Safe s) :
    Good (Event.movePresentToTail.next s) := by
  obtain ⟨L, hlist, hL, hiter⟩ := h
  rcases hsafe with hone | ⟨hsome, hlast⟩
  · obtain ⟨x, hx⟩ := List.length_eq_one_iff.mp hone
    refine good_of_spec hlist rfl ⟨L, movePresentToTail_one (hL.size_eq_one.mpr ⟨x, hx⟩), ?_, hiter⟩
    rw [Event.items, Items.toTail_one hx]
    exact hL
  · obtain ⟨k, hk⟩ := Option.ne_none_iff_exists'.mp hsome
    obtain ⟨xs, ⟨k, b⟩, hseq, rfl⟩ := final_mem (hlast.symm.trans hk)
    refine good_of_spec hlist rfl ⟨L, movePresentToTail_last (hseq ▸ hL) (hiter.trans hk), ?_, hiter⟩
    rw [Event.items, Items.toTail_last hL.nodup hseq hk]
    exact hL

theorem Good.next (h : Good s) (hallowed : e.Allowed s) (hsafe : e.Safe s) : Good (e.next s) := by
  have hgood := h
  obtain ⟨L, hlist, hL, hiter⟩ := h
  have hnew : ∀ {newOne : Ptr}, (∀ L, s.list = some L → L.nodes newOne = none) → newOne ∉ keys s.items.seq := fun hfree hmem =>
    hL.allocated.mpr hmem (hfree L hlist)
  cases e with
  | addToHead newOne value data =>
      obtain ⟨L', hrun, hL', hiter'⟩ := addToHead_spec hL (hnew hallowed) value data
      exact good_of_spec hlist rfl ⟨L', hrun, hL', hiter'.trans hiter⟩
  | addToTail newOne value data =>
      obtain ⟨L', hrun, hL', hiter'⟩ := addToTail_spec hL (hnew hallowed) value data
      exact good_of_spec hlist rfl ⟨L', hrun, hL', hiter'.trans hiter⟩
  | addSorted newOne data value =>
      obtain ⟨L', hrun, hL', hiter'⟩ := addSorted_spec hL (hnew hallowed) data value
        (show s.items.seq.length < s.items.seq.length + 2 by omega)
      exact good_of_spec hlist rfl ⟨L', hrun, hL', hiter'.trans hiter⟩
  | delete value => exact hsafe.elim
  | deleteHead =>
      obtain ⟨L', hrun, hL', hiter'⟩ := deleteHead_spec hL
      exact good_of_spec hlist rfl ⟨L', hrun, hL', hiter'.trans hiter⟩
  | deleteTail =>
      obtain ⟨L', hrun, hL', hiter'⟩ := deleteTail_spec hL
      exact good_of_spec hlist rfl ⟨L', hrun, hL', hiter'.trans hiter⟩
  | sort memory =>
      obtain ⟨L', hrun, hL', hiter'⟩ := sort_spec hL memory (show s.items.seq.length + 1 < s.items.seq.length + 2 by omega)
      exact good_of_spec hlist rfl ⟨L', hrun, hL', hiter'.trans (by rw [hiter]; rfl)⟩
  | startIter => exact good_of_call hlist rfl ⟨hL.nodup, hL.nodes, hL.head, hL.tail, hL.size⟩ hL.head
  | endIter => exact good_of_call hlist rfl ⟨hL.nodup, hL.nodes, hL.head, hL.tail, hL.size⟩ hL.tail
  | setIter p => exact good_of_call hlist rfl ⟨hL.nodup, hL.nodes, hL.head, hL.tail, hL.size⟩ rfl
  | move => exact good_move hgood hsafe
  | getPresentData => exact good_getPresentData hgood hsafe
  | setPresentData dat => exact good_setPresentData hgood hsafe
  | deletePresent => exact good_deletePresent hgood hsafe
  | movePresentToTail => exact good_movePresentToTail hgood hsafe

theorem deletePresent_wild {seq : List (Ptr × Entry α)} (h : Linked L seq) (hoff : ∀ k ∈ keys seq, L.iterator ≠ some k)
    (hsome : L.iterator ≠ none) (hmany : ¬seq.length ≤ 1) : deletePresent L = .error .overrun := by
  have hsize := h.size
  have hone : ¬L.size = 1 := by omega
  have hhead : ¬L.iterator = L.head := by
    intro heq
    obtain ⟨k, hk⟩ := Option.ne_none_iff_exists'.mp hsome
    exact hoff k (mem_of_first (h.head.symm.trans (heq.symm.trans hk))) hk
  have htail : ¬L.iterator = L.tail := by
    intro heq
    obtain ⟨k, hk⟩ := Option.ne_none_iff_exists'.mp hsome
    exact hoff k (mem_of_final (h.tail.symm.trans (heq.symm.trans hk))) hk
  unfold deletePresent
  rw [if_neg hsome, if_neg (by omega), if_neg fun hand => hone hand.1, if_neg fun hand => hone hand.1, if_neg hhead, if_neg htail,
    h.element_wild hoff]
  rfl

theorem movePresentToTail_wild {seq : List (Ptr × Entry α)} (h : Linked L seq) (hoff : ∀ k ∈ keys seq, L.iterator ≠ some k)
    (hone : seq.length ≠ 1) : movePresentToTail L = .error .overrun := by
  have hsize := h.size
  unfold movePresentToTail
  rw [if_neg (by omega)]
  by_cases hhead : L.iterator = L.head
  · rw [if_pos hhead, ← hhead, h.element_wild hoff]
    rfl
  · have htail : ¬L.tail = L.iterator := by
      intro heq
      rcases List.eq_nil_or_concat' seq with rfl | ⟨before, x, rfl⟩
      · exact hhead (heq.symm.trans (h.tail.trans h.head.symm))
      · exact hoff x.1 (mem_of_final (final_concat before x)) (heq.symm.trans (h.tail.trans (final_concat before x)))
    rw [if_neg hhead, if_neg htail]
    dsimp only
    rw [h.element_wild hoff]
    rfl

theorem map_snd_ok {β : Type} {r : Run (Int × β)} {y : β} (h : Prod.snd <$> r = .ok y) : ∃ n, r = .ok (n, y) := by
  cases r with
  | error f => cases h
  | ok x =>
      cases h
      exact ⟨x.1, rfl⟩

/-- A call that ends in a well-formed list of the elements that the sequence has was safe. -/
theorem Good.safe (h : Good s) {L' : LinkedList α} (hlist' : (e.next s).list = some L') (h' : WellFormed L' (e.items s.items).seq) :
    e.Safe s := by
  obtain ⟨L, hlist, hL, hiter⟩ := h
  have hcall : e.call (s.items.seq.length + 2) L = .ok L' := by
    unfold Event.next at hlist'
    dsimp only at hlist'
    rw [hlist, Option.bind_some] at hlist'
    cases hrun : e.call (s.items.seq.length + 2) L with
    | error f =>
        rw [hrun] at hlist'
        cases hlist'
    | ok M =>
        rw [hrun] at hlist'
        cases hlist'
        rfl
  have hoff : ¬s.items.OnItem → ∀ k ∈ keys s.items.seq, L.iterator ≠ some k := fun hon k hk hat =>
    hon ((Items.onItem_iff s.items).mpr ⟨k, hk, hiter.symm.trans hat⟩)
  -- an element that is not there is not read
  have hwild : ¬(s.items.current = none ∨ s.items.OnItem) → L.iterator ≠ none ∧ L.element L.iterator = .error .overrun := by
    intro hnot
    obtain ⟨hsome, hon⟩ := not_or.mp hnot
    exact ⟨hiter ▸ hsome, hL.element_wild (hoff hon)⟩
  cases e with
  | delete value =>
      obtain ⟨n, hrun⟩ := map_snd_ok hcall
      obtain ⟨hsize, hnone⟩ := delete_ok hL hrun
      have hsame : s.items.seq.filter (fun x => x.2.value ≠ value) = s.items.seq :=
        List.filter_eq_self.mpr fun x hx => by simpa using hnone x hx
      have hsize' := h'.size
      rw [Event.items, hsame] at hsize'
      dsimp only at hsize hsize'
      omega
  | move =>
      by_contra hnot
      obtain ⟨hsome, herror⟩ := hwild hnot
      rw [Event.call, move, if_neg hsome, herror] at hcall
      cases hcall
  | getPresentData =>
      by_contra hnot
      obtain ⟨hsome, herror⟩ := hwild hnot
      rw [Event.call, getPresentData, if_neg hsome, herror] at hcall
      cases hcall
  | setPresentData dat =>
      by_contra hnot
      obtain ⟨hsome, hon⟩ := not_or.mp hnot
      have hwrite : ∀ u, L.write L.iterator u = .error .overrun := fun u => hL.write_wild (hoff hon) u
      rw [Event.call, setPresentData, if_neg (by rwa [hiter]), hwrite] at hcall
      cases hcall
  | deletePresent =>
      by_contra hnot
      obtain ⟨hsome, hnot'⟩ := not_or.mp hnot
      obtain ⟨hmany, hon⟩ := not_or.mp hnot'
      rw [Event.call, deletePresent_wild hL (hoff hon) (by rwa [hiter]) hmany] at hcall
      cases hcall
  | movePresentToTail =>
      by_contra hnot
      obtain ⟨hone, hlast⟩ := not_or.mp hnot
      by_cases hon : s.items.OnItem
      · obtain ⟨xs, k, b, ys, hseq, hk⟩ := hon.split
        have hys : ys ≠ [] := by
          rintro rfl
          exact hlast ⟨hk ▸ Option.some_ne_none k, hk.trans (by rw [hseq, final_concat])⟩
        obtain ⟨n, hrun⟩ := map_snd_ok hcall
        obtain ⟨htail, hnext⟩ := movePresentToTail_next (hseq ▸ hL) (hiter.trans hk) hys hrun
        obtain ⟨y, rest, rfl⟩ := List.exists_cons_of_ne_nil hys
        cases hnext.symm.trans (h'.tail_next htail)
      · rw [Event.call, movePresentToTail_wild hL (hoff hon) hone] at hcall
        cases hcall
  | addToHead | addToTail | addSorted | deleteHead | deleteTail | sort | startIter | endIter | setIter => exact trivial

end Step

/-! ## Every call after another -/

theorem good_runs {start s : State α} (hstart : Good start) {events : List (Event α)}
    (hrun : ((listSystem start).restrict fun s e => e.Safe s).Runs events s) : Good s := by
  have hinv : ((listSystem start).restrict fun s e => e.Safe s).Invariant Good := by
    refine ⟨fun s hs => ?_, fun s e s' h hstep => ?_⟩
    · rw [hs]
      exact hstart
    · obtain ⟨hsafe, hallowed, rfl⟩ := hstep
      exact h.next hallowed hsafe
  exact hinv.holds hrun

theorem Good.fresh (h : Good s) {newOne : Ptr} (hnew : newOne ∉ keys s.items.seq) (L : LinkedList α) (hL : s.list = some L) :
    L.nodes newOne = none := by
  obtain ⟨M, hM, hlinked, -⟩ := h
  cases hM.symm.trans hL
  by_contra hnode
  exact hnew (hlinked.allocated.mp hnode)

theorem safe_step {start s : State α} {events : List (Event α)} (hrun : ((listSystem start).restrict fun s e => e.Safe s).Runs events s)
    (e : Event α) (hallowed : e.Allowed s) (hsafe : e.Safe s) :
    ((listSystem start).restrict fun s e => e.Safe s).Runs (events ++ [e]) (e.next s) := hrun.step ⟨hsafe, hallowed, rfl⟩

/-- A list without elements. -/
def empty : State Unit := ⟨some create, ⟨[], none⟩⟩

/-- Two elements, the iterator at the first of them. -/
def two : State Unit := Event.startIter.next ((Event.addToTail 20 3 ()).next ((Event.addToTail 10 5 ()).next empty))

theorem two_runs : ((listSystem empty).restrict fun s e => e.Safe s).Runs [.addToTail 10 5 (), .addToTail 20 3 (), .startIter] two := by
  have hempty : Good empty := ⟨create, rfl, linked_create, rfl⟩
  have hnoten : 10 ∉ keys empty.items.seq := List.not_mem_nil
  have hone := safe_step (.start rfl) (.addToTail 10 5 ()) (hempty.fresh hnoten) trivial
  have hnottwenty : 20 ∉ keys ((Event.addToTail 10 5 ()).next empty).items.seq := by decide
  have htwo := safe_step hone (.addToTail 20 3 ()) ((good_runs hempty hone).fresh hnottwenty) trivial
  exact safe_step htwo .startIter trivial trivial

/-- In all states of a run the list is well-formed, and the sequence that the calls make, just when all calls of the run are safe. -/
theorem wellFormed_iff {L : LinkedList α} {seq : List (Ptr × Entry α)} (h : Linked L seq) {events : List (Event α)} {s : State α}
    (hrun : (listSystem ⟨some L, ⟨seq, L.iterator⟩⟩).Runs events s) :
    (∀ before t, before <+: events → (listSystem ⟨some L, ⟨seq, L.iterator⟩⟩).Runs before t →
      ∃ L', t.list = some L' ∧ WellFormed L' t.items.seq) ↔
      ((listSystem ⟨some L, ⟨seq, L.iterator⟩⟩).restrict fun s e => e.Safe s).Runs events s := by
  have hstart : Good (⟨some L, ⟨seq, L.iterator⟩⟩ : State α) := ⟨L, rfl, h, rfl⟩
  refine System.Runs.forall_prefix_iff (P := fun t : State α => ∃ L', t.list = some L' ∧ WellFormed L' t.items.seq)
    (fun s s' hs hs' => hs.trans hs'.symm) (fun s e s₁ s₂ h₁ h₂ => h₁.2.trans h₂.2.symm) (fun events s hsafe => ?_)
    (fun events s e s' hsafe hstep hend => ?_) hrun
  · obtain ⟨L', hlist, hL', -⟩ := good_runs hstart hsafe
    exact ⟨L', hlist, hL'.wellFormed⟩
  · obtain ⟨-, rfl⟩ := hstep
    obtain ⟨L', hlist', h'⟩ := hend
    exact (good_runs hstart hsafe).safe hlist' h'

/-- The first of two elements is deleted at the iterator. -/
theorem wellFormed_deletePresent :
    (∃ L', (Event.deletePresent.next two).list = some L' ∧ WellFormed L' (Event.deletePresent.next two).items.seq) ∧
      (Event.deletePresent.next two).items.seq = [(20, ⟨3, ()⟩)] := by
  have hsafe : Event.deletePresent.Safe two := .inr (.inr (by decide))
  have hrun := safe_step two_runs .deletePresent trivial hsafe
  exact ⟨(wellFormed_iff linked_create hrun.of_restrict).mpr hrun _ _ (List.prefix_refl _) hrun.of_restrict, rfl⟩

/-- The first of two elements is moved to the tail: each is before the other. -/
theorem movePresentToTail_cycle :
    (listSystem empty).Runs [.addToTail 10 5 (), .addToTail 20 3 (), .startIter, .movePresentToTail] (Event.movePresentToTail.next two) ∧
      (¬∃ L', (Event.movePresentToTail.next two).list = some L' ∧ WellFormed L' (Event.movePresentToTail.next two).items.seq) ∧
      ∃ L', (Event.movePresentToTail.next two).list = some L' ∧ (L'.nodes 20).map Cell.next = some (some 10) ∧
        (L'.nodes 10).map Cell.next = some (some 20) := by
  refine ⟨two_runs.of_restrict.step ⟨trivial, rfl⟩, ?_, _, rfl, rfl, rfl⟩
  rintro ⟨L', hlist', h'⟩
  have hgood := good_runs ⟨create, rfl, linked_create, rfl⟩ two_runs
  rcases hgood.safe hlist' h' with hone | ⟨-, hlast⟩
  · exact absurd hone (by decide)
  · exact absurd hlast (by decide)

end BeagleCache.LinkedList
