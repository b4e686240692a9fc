import Mathlib.Tactic
import BeagleCache.DoublyLinked
import BeagleCache.Outcome

/-! The lists of list.c in the memory that their elements are allocated in. A call reads and writes the pointers of elements; where it
follows a pointer that is `NULL` or to an element that has been freed, it does not return. -/

namespace BeagleCache

open DoublyLinked Run

namespace LinkedList

/-- The address of an element. -/
abbrev Ptr := Nat

/-- What an element has besides its pointers. -/
structure Entry (α : Type) where
  value : Int
  data : α

end LinkedList

open LinkedList in
/-- A `list` with the memory of its elements. -/
structure LinkedList (α : Type) where
  nodes : Heap Ptr (Entry α)
  head : Option Ptr
  tail : Option Ptr
  size : Int
  iterator : Option Ptr

namespace LinkedList

variable {α : Type}

/-! ## Elements -/

def create : LinkedList α := ⟨fun _ => none, none, none, 0, none⟩

/-- A read of an element. -/
def element (L : LinkedList α) (p : Option Ptr) : Run (Cell Ptr (Entry α)) :=
  match p.bind L.nodes with
  | some e => .ok e
  | none => .error .overrun

/-- A write to an element. -/
def write (L : LinkedList α) (p : Option Ptr) (u : Cell Ptr (Entry α) → Cell Ptr (Entry α)) : Run (LinkedList α) :=
  match p with
  | none => .error .overrun
  | some k => if L.nodes k = none then .error .overrun else .ok { L with nodes := modify L.nodes k u }

def setNext (L : LinkedList α) (p next : Option Ptr) : Run (LinkedList α) := L.write p fun e => { e with next := next }

def setPrev (L : LinkedList α) (p prev : Option Ptr) : Run (LinkedList α) := L.write p fun e => { e with prev := prev }

/-- `free` of an element. -/
def free (L : LinkedList α) : Option Ptr → Run (LinkedList α)
  | none => .ok L
  | some k => if L.nodes k = none then .error .overrun else .ok { L with nodes := DoublyLinked.free L.nodes k }

/-- `newOne`, at the address that `malloc` returned. -/
def malloc (L : LinkedList α) (newOne : Ptr) (value : Int) (data : α) : LinkedList α :=
  { L with nodes := Function.update L.nodes newOne (some ⟨⟨value, data⟩, none, none⟩) }

/-! ## Elements are added -/

def addToHead (L : LinkedList α) (newOne : Ptr) (value : Int) (data : α) : Run (Int × LinkedList α) :=
  let L := L.malloc newOne value data
  if L.size = 0 then return (0, { L with tail := some newOne, head := some newOne, size := L.size + 1 })
  else do
    let L ← L.setNext (some newOne) L.head
    let L ← L.setPrev L.head (some newOne)
    return (0, { L with head := some newOne, size := L.size + 1 })

def addToTail (L : LinkedList α) (newOne : Ptr) (value : Int) (data : α) : Run (Int × LinkedList α) :=
  let L := L.malloc newOne value data
  if L.size = 0 then return (0, { L with head := some newOne, tail := some newOne, size := L.size + 1 })
  else do
    let L ← L.setPrev (some newOne) L.tail
    let L ← L.setNext L.tail (some newOne)
    return (0, { L with tail := some newOne, size := L.size + 1 })

/-- The loop of `addSorted`: `present` and `previous` at its end. -/
def sortedPlace (L : LinkedList α) (value : Int) : Nat → Option Ptr → Option Ptr → Run (Option Ptr × Option Ptr)
  | 0, _, _ => .error .hang
  | _ + 1, none, previous => .ok (none, previous)
  | fuel + 1, some present, previous => do
      let e ← L.element (some present)
      if e.body.value < value then sortedPlace L value fuel e.next (some present) else return (some present, previous)

def addSorted (fuel : Nat) (L : LinkedList α) (newOne : Ptr) (data : α) (value : Int) : Run (Int × LinkedList α) :=
  let L := L.malloc newOne value data
  if L.head = none then return (0, { L with head := some newOne, tail := some newOne, size := L.size + 1 })
  else do
    let place ← sortedPlace L value fuel L.head none
    match place with
    | (none, _) =>
        let L ← L.setNext L.tail (some newOne)
        let L ← L.setPrev (some newOne) L.tail
        return (0, { L with tail := some newOne, size := L.size + 1 })
    | (some _, none) =>
        let L ← L.setPrev L.head (some newOne)
        let L ← L.setNext (some newOne) L.head
        return (0, { L with head := some newOne, size := L.size + 1 })
    | (some present, some previous) =>
        let L ← L.setNext (some previous) (some newOne)
        let L ← L.setNext (some newOne) (some present)
        let L ← L.setPrev (some present) (some newOne)
        let L ← L.setPrev (some newOne) (some previous)
        return (0, { L with size := L.size + 1 })

/-! ## Elements are deleted -/

/-- The loop of `delete`. The next element is read from the one that may have been freed. -/
def deleteLoop (value : Int) : Nat → LinkedList α → Option Ptr → Option Ptr → Run (LinkedList α)
  | 0, _, _, _ => .error .hang
  | _ + 1, L, none, _ => .ok L
  | fuel + 1, L, some present, previous => do
      let e ← L.element (some present)
      let L ← if e.body.value = value then do
          let L ← L.setNext previous e.next
          L.free (some present)
        else pure L
      let e ← L.element (some present)
      deleteLoop value fuel L e.next (some present)

def delete (fuel : Nat) (L : LinkedList α) (value : Int) : Run (Int × LinkedList α) := do
  let L ← deleteLoop value fuel L L.head L.head
  return (0, { L with size := L.size - 1 })

def deleteHead (L : LinkedList α) : Run (Int × LinkedList α) :=
  if L.head = none then return (0, L)
  else if L.size = 1 then do
    let L ← L.free L.tail
    return (0, { L with tail := none, head := none, size := L.size - 1 })
  else do
    let tmp := L.head
    let e ← L.element L.head
    let L := { L with head := e.next }
    let L ← L.setPrev L.head none
    let L ← L.free tmp
    return (0, { L with size := L.size - 1 })

def deleteTail (L : LinkedList α) : Run (Int × LinkedList α) :=
  if L.head = none then return (0, L)
  else if L.size = 1 then do
    let L ← L.free L.head
    return (0, { L with head := none, tail := none, size := L.size - 1 })
  else do
    let temp := L.tail
    let e ← L.element L.tail
    let L := { L with tail := e.prev }
    let L ← L.setNext L.tail none
    let L ← L.free temp
    return (0, { L with size := L.size - 1 })

def deletePresent (L : LinkedList α) : Run (Int × LinkedList α) :=
  if L.iterator = none then return (0, L)
  else if L.size = 0 then return (0, L)
  else if L.size = 1 ∧ L.iterator ≠ L.head then return (-1, L)
  else if L.size = 1 ∧ L.iterator = L.head then do
    let L ← L.free L.head
    return (0, { L with tail := none, head := none, iterator := none, size := L.size - 1 })
  else if L.iterator = L.head then do
    let e ← L.element L.head
    let L := { L with head := e.next }
    let L ← L.setPrev L.head none
    let L ← L.free L.iterator
    return (0, { L with size := L.size - 1, iterator := L.head })
  else if L.iterator = L.tail then do
    let e ← L.element L.tail
    let L := { L with tail := e.prev }
    let L ← L.setNext L.tail none
    let L ← L.free L.iterator
    return (0, { L with size := L.size - 1, iterator := none })
  else do
    let temp := L.iterator
    let e ← L.element L.iterator
    let L ← L.setNext e.prev e.next
    let e ← L.element L.iterator
    let L ← L.setPrev e.next e.prev
    let e ← L.element L.iterator
    let L ← { L with iterator := e.next }.free temp
    return (0, { L with size := L.size - 1 })

/-! ## The iterator -/

def movePresentToTail (L : LinkedList α) : Run (Int × LinkedList α) :=
  if L.size = 1 then return (0, L)
  else if L.iterator = L.head then do
    let pres := L.iterator
    let e ← L.element L.head
    let L := { L with head := e.next }
    let L ← L.setPrev e.next none
    let L ← L.setNext L.tail pres
    let L ← L.setPrev pres L.tail
    return (0, { L with tail := pres })
  else if L.tail = L.iterator then return (0, L)
  else do
    let pres := L.iterator
    let e ← L.element pres
    let L ← L.setNext L.tail pres
    let L ← L.setNext e.prev e.next
    let L ← L.setPrev e.next e.prev
    let L ← L.setPrev pres L.tail
    return (0, { L with tail := pres })

def startIter (L : LinkedList α) : LinkedList α := { L with iterator := L.head }

def endIter (L : LinkedList α) : LinkedList α := { L with iterator := L.tail }

def setIter (L : LinkedList α) (p : Ptr) : LinkedList α := { L with iterator := some p }

def notEnd (L : LinkedList α) : Bool := !(L.iterator = none ∨ L.size = 0)

def move (L : LinkedList α) : Run (LinkedList α) :=
  if L.iterator = none then return L
  else do
    let e ← L.element L.iterator
    return { L with iterator := e.next }

/-- `none` is that there is no present element. -/
def getPresentData (L : LinkedList α) : Run (Option α) :=
  if L.iterator = none then return none
  else do
    let e ← L.element L.iterator
    return some e.body.data

def setPresentData (L : LinkedList α) (dat : α) : Run (Int × LinkedList α) :=
  if L.iterator = none then return (-1, L)
  else do
    let L ← L.write L.iterator fun e => { e with body := { e.body with data := dat } }
    return (0, L)

/-! ## What a list has -/

/-- A list with its elements in order: the memory is laid out for them, and for nothing else. -/
structure Linked (L : LinkedList α) (seq : List (Ptr × Entry α)) : Prop where
  nodup : (keys seq).Nodup
  nodes : L.nodes = seg none none seq
  head : L.head = first seq
  tail : L.tail = final seq
  size : L.size = seq.length

section Linked

variable {L : LinkedList α} {seq xs ys : List (Ptr × Entry α)} {k : Ptr} {b : Entry α}

theorem linked_create : Linked (create : LinkedList α) [] := ⟨List.nodup_nil, rfl, rfl, rfl, rfl⟩

theorem Linked.size_succ (h : Linked L seq) : L.size + 1 = (seq.length + 1 : Nat) := by
  rw [h.size]
  rfl

theorem Linked.size_eq_zero (h : Linked L seq) : L.size = 0 ↔ seq = [] := by
  rw [h.size, Int.natCast_eq_zero, List.length_eq_zero_iff]

theorem Linked.size_eq_one (h : Linked L seq) : L.size = 1 ↔ ∃ x, seq = [x] := by
  rw [h.size, ← List.length_eq_one_iff]
  exact Nat.cast_eq_one

theorem Linked.cell (h : Linked L (xs ++ (k, b) :: ys)) : L.nodes k = some ⟨b, first ys, final xs⟩ := by
  rw [h.nodes, seg_middle (x := (k, b)) (split_unique h.nodup).1, Option.or_none, Option.or_none]

theorem Linked.allocated (h : Linked L seq) : L.nodes k ≠ none ↔ k ∈ keys seq := by
  rw [h.nodes]
  constructor
  · intro hk
    by_contra hmem
    exact hk (seg_of_not_mem hmem)
  · exact seg_mem

theorem element_eq {e : Cell Ptr (Entry α)} (hk : L.nodes k = some e) : L.element (some k) = .ok e := by
  unfold element
  rw [Option.bind_some, hk]

theorem Linked.element (h : Linked L (xs ++ (k, b) :: ys)) : L.element (some k) = .ok ⟨b, first ys, final xs⟩ := element_eq h.cell

theorem Linked.element_first (h : Linked L ((k, b) :: ys)) : L.element (some k) = .ok ⟨b, first ys, none⟩ :=
  Linked.element (show Linked L ([] ++ (k, b) :: ys) from h)

theorem write_eq (hk : L.nodes k ≠ none) (u : Cell Ptr (Entry α) → Cell Ptr (Entry α)) :
    L.write (some k) u = .ok { L with nodes := modify L.nodes k u } := if_neg hk

theorem setNext_eq (hk : L.nodes k ≠ none) (p : Option Ptr) :
    L.setNext (some k) p = .ok { L with nodes := DoublyLinked.setNext L.nodes k p } :=
  write_eq hk _

theorem setPrev_eq (hk : L.nodes k ≠ none) (p : Option Ptr) :
    L.setPrev (some k) p = .ok { L with nodes := DoublyLinked.setPrev L.nodes k p } :=
  write_eq hk _

theorem free_eq (hk : L.nodes k ≠ none) : L.free (some k) = .ok { L with nodes := DoublyLinked.free L.nodes k } := if_neg hk

end Linked

/-! ## What the calls do -/

section Calls

variable {L : LinkedList α} {seq xs ys : List (Ptr × Entry α)} {k newOne : Ptr} {b : Entry α} {value : Int} {data : α}

theorem addToHead_spec (h : Linked L seq) (hnew : newOne ∉ keys seq) (value : Int) (data : α) :
    ∃ L', addToHead L newOne value data = .ok (0, L') ∧ Linked L' ((newOne, ⟨value, data⟩) :: seq) ∧ L'.iterator = L.iterator := by
  have hnodup : (keys ((newOne, ⟨value, data⟩) :: seq)).Nodup := List.nodup_cons.mpr ⟨hnew, h.nodup⟩
  have hsize : L.size + 1 = ((newOne, (⟨value, data⟩ : Entry α)) :: seq).length := h.size_succ
  unfold addToHead malloc
  dsimp only
  cases seq with
  | nil =>
      rw [if_pos (h.size_eq_zero.mpr rfl)]
      refine ⟨_, rfl, ⟨hnodup, ?_, rfl, rfl, hsize⟩, rfl⟩
      dsimp only
      rw [h.nodes]
      rfl
  | cons x rest =>
      have hne : ¬L.size = 0 := mt h.size_eq_zero.mp (List.cons_ne_nil x rest)
      have hhead : L.head = some x.1 := h.head
      have hx : L.nodes x.1 ≠ none := h.allocated.mpr List.mem_cons_self
      rw [if_neg hne, setNext_eq (by simp), ok_bind]
      dsimp only
      rw [hhead, setPrev_eq (by simp [hx]), ok_bind]
      refine ⟨_, rfl, ⟨hnodup, ?_, rfl, ?_, hsize⟩, rfl⟩
      · dsimp only
        rw [h.nodes]
        exact link_front hnew rfl
      · exact h.tail

theorem addToTail_spec (h : Linked L seq) (hnew : newOne ∉ keys seq) (value : Int) (data : α) :
    ∃ L', addToTail L newOne value data = .ok (0, L') ∧ Linked L' (seq ++ [(newOne, ⟨value, data⟩)]) ∧ L'.iterator = L.iterator := by
  have hnodup : (keys (seq ++ [(newOne, (⟨value, data⟩ : Entry α))])).Nodup := by
    rw [keys, List.map_append]
    exact List.nodup_append'.mpr ⟨h.nodup, List.nodup_singleton _, by simpa using hnew⟩
  have hsize : L.size + 1 = (seq ++ [(newOne, (⟨value, data⟩ : Entry α))]).length := by
    rw [List.length_append]
    exact h.size_succ
  unfold addToTail malloc
  dsimp only
  by_cases hempty : seq = []
  · subst hempty
    rw [if_pos (h.size_eq_zero.mpr rfl)]
    refine ⟨_, rfl, ⟨hnodup, ?_, rfl, rfl, hsize⟩, rfl⟩
    dsimp only
    rw [h.nodes]
    rfl
  · obtain ⟨before, x, rfl⟩ := List.eq_nil_or_concat' seq |>.resolve_left hempty
    have hne : ¬L.size = 0 := mt h.size_eq_zero.mp hempty
    have htail : L.tail = some x.1 := h.tail.trans (final_concat before x)
    have hx : L.nodes x.1 ≠ none := h.allocated.mpr (mem_of_final (final_concat before x))
    rw [if_neg hne, setPrev_eq (by simp), ok_bind]
    dsimp only
    rw [htail, setNext_eq (by simp [hx]), ok_bind]
    refine ⟨_, rfl, ⟨hnodup, ?_, ?_, ?_, hsize⟩, rfl⟩
    · dsimp only
      rw [h.nodes]
      exact link_back hnew h.nodup (final_concat before x)
    · exact h.head.trans (first_append_of_ne hempty _).symm
    · exact (final_concat (before ++ [x]) (newOne, _)).symm

theorem sortedPlace_spec {M : LinkedList α}
    (hread : ∀ xs k b ys, seq = xs ++ (k, b) :: ys → M.element (some k) = .ok ⟨b, first ys, final xs⟩)
    (value : Int) (xs ys : List (Ptr × Entry α)) (hseq : seq = xs ++ ys) {fuel : Nat} (hfuel : ys.length < fuel) :
    sortedPlace M value fuel (first ys) (final xs) =
      .ok (first (ys.dropWhile fun x => x.2.value < value), final (xs ++ ys.takeWhile fun x => x.2.value < value)) := by
  induction ys generalizing xs fuel with
  | nil =>
      obtain ⟨n, rfl⟩ := Nat.exists_eq_add_one.mpr hfuel
      rw [List.takeWhile_nil, List.append_nil]
      rfl
  | cons y ys ih =>
      obtain ⟨n, rfl⟩ := Nat.exists_eq_add_one.mpr hfuel.pos
      rw [first_cons, sortedPlace, hread xs y.1 y.2 ys hseq, ok_bind]
      by_cases hlt : y.2.value < value
      · rw [if_pos hlt, List.dropWhile_cons_of_pos (by simpa using hlt), List.takeWhile_cons_of_pos (by simpa using hlt)]
        have hnext := ih (xs ++ [y]) (by rw [hseq, List.append_cons]) (Nat.lt_of_succ_lt_succ hfuel)
        rw [final_concat, ← List.append_cons] at hnext
        exact hnext
      · rw [if_neg hlt, List.dropWhile_cons_of_neg (by simpa using hlt), List.takeWhile_cons_of_neg (by simpa using hlt), List.append_nil]
        rfl

theorem malloc_element (h : Linked L seq) (hnew : newOne ∉ keys seq) (value : Int) (data : α) {xs ys : List (Ptr × Entry α)} {k : Ptr}
    {b : Entry α} (hseq : seq = xs ++ (k, b) :: ys) : (L.malloc newOne value data).element (some k) = .ok ⟨b, first ys, final xs⟩ := by
  subst hseq
  have hne : k ≠ newOne := by
    rintro rfl
    exact hnew (by simp)
  exact element_eq ((Function.update_of_ne hne _ _).trans h.cell)

theorem addSorted_spec (h : Linked L seq) (hnew : newOne ∉ keys seq) (data : α) (value : Int) {fuel : Nat} (hfuel : seq.length < fuel) :
    ∃ L', addSorted fuel L newOne data value = .ok (0, L') ∧
      Linked L' ((seq.takeWhile fun x => x.2.value < value) ++ (newOne, ⟨value, data⟩) :: seq.dropWhile fun x => x.2.value < value) ∧
      L'.iterator = L.iterator := by
  have hplace := sortedPlace_spec (fun _ _ _ _ => malloc_element h hnew value data) value [] seq rfl hfuel
  have hsplit := List.takeWhile_append_dropWhile (p := fun x : Ptr × Entry α => x.2.value < value) (l := seq)
  rw [List.nil_append] at hplace
  generalize seq.takeWhile (fun x => x.2.value < value) = before at hplace hsplit ⊢
  generalize seq.dropWhile (fun x => x.2.value < value) = behind at hplace hsplit ⊢
  subst hsplit
  have hnodup : (keys (before ++ (newOne, (⟨value, data⟩ : Entry α)) :: behind)).Nodup := by
    have hperm : (keys (before ++ (newOne, (⟨value, data⟩ : Entry α)) :: behind)).Perm (newOne :: keys (before ++ behind)) :=
      List.perm_middle.map Prod.fst
    exact hperm.nodup_iff.mpr (List.nodup_cons.mpr ⟨hnew, h.nodup⟩)
  have hsize : L.size + 1 = (before ++ (newOne, (⟨value, data⟩ : Entry α)) :: behind).length := by
    rw [List.length_append, List.length_cons, ← Nat.add_assoc, ← List.length_append]
    exact h.size_succ
  obtain ⟨hxs, hys, hapart⟩ := List.nodup_append'.mp (by simpa using h.nodup : (keys before ++ keys behind).Nodup)
  obtain ⟨hnewx, hnewy⟩ : newOne ∉ keys before ∧ newOne ∉ keys behind := by simpa using hnew
  have hhead : (L.malloc newOne value data).head = first (before ++ behind) := h.head
  have htail : (L.malloc newOne value data).tail = final (before ++ behind) := h.tail
  have hiterator : (L.malloc newOne value data).iterator = L.iterator := rfl
  have hnodes : (L.malloc newOne value data).nodes =
      Function.update (seg none none (before ++ behind)) newOne (some ⟨⟨value, data⟩, none, none⟩) := by
    rw [← h.nodes]
    rfl
  have hsize' : (L.malloc newOne value data).size + 1 = (before ++ (newOne, (⟨value, data⟩ : Entry α)) :: behind).length := hsize
  unfold addSorted
  dsimp only
  generalize L.malloc newOne value data = M at hplace hhead htail hiterator hnodes hsize' ⊢
  have hin : ∀ k ∈ keys (before ++ behind), M.nodes k ≠ none := by
    intro k hk
    rw [hnodes]
    simp [seg_mem hk]
  have hself : M.nodes newOne ≠ none := by
    rw [hnodes]
    simp
  by_cases hempty : before ++ behind = []
  · obtain ⟨rfl, rfl⟩ := List.append_eq_nil_iff.mp hempty
    have hnone : M.head = none := hhead
    rw [if_pos hnone]
    exact ⟨_, rfl, ⟨hnodup, hnodes, rfl, rfl, hsize'⟩, hiterator⟩
  · have hsome : M.head ≠ none := by
      obtain ⟨y, rest, hcons⟩ := List.exists_cons_of_ne_nil hempty
      rw [hhead, hcons]
      exact Option.some_ne_none _
    rw [if_neg hsome, hhead, ← final_nil, hplace, ok_bind]
    rcases behind with _ | ⟨y, behind⟩
    · obtain ⟨a, ha⟩ : ∃ a, final before = some a := by
        obtain ⟨rest, x, rfl⟩ := (List.eq_nil_or_concat' before).resolve_left (by simpa using hempty)
        exact ⟨x.1, final_concat rest x⟩
      rw [List.append_nil] at htail hnodes hin hhead
      have hlast : M.tail = some a := htail.trans ha
      dsimp only [first_nil]
      rw [hlast, setNext_eq (hin a (mem_of_final ha)), ok_bind]
      dsimp only
      rw [hlast, setPrev_eq (by simp [hself]), ok_bind]
      refine ⟨_, rfl, ⟨hnodup, ?_, ?_, ?_, hsize'⟩, hiterator⟩
      · dsimp only
        rw [setPrev_setNext_comm, hnodes]
        exact link_back hnewx hxs ha
      · exact hhead.trans (first_append_of_ne (by simpa using hempty) _).symm
      · exact (final_concat before (newOne, _)).symm
    · rcases List.eq_nil_or_concat' before with rfl | ⟨before, x, rfl⟩
      · dsimp only [List.nil_append, first_cons, final_nil]
        rw [setPrev_eq (hin y.1 (by simp)), ok_bind]
        dsimp only
        rw [hhead]
        dsimp only [List.nil_append, first_cons]
        rw [setNext_eq (by simp [hself]), ok_bind]
        refine ⟨_, rfl, ⟨hnodup, ?_, rfl, htail, hsize'⟩, hiterator⟩
        dsimp only
        rw [← setPrev_setNext_comm, hnodes]
        exact link_front hnewy rfl
      · have hx : final (before ++ [x]) = some x.1 := final_concat before x
        rw [hx]
        dsimp only [first_cons]
        rw [setNext_eq (hin x.1 (by simp)), ok_bind, setNext_eq (by simp [hself]), ok_bind,
          setPrev_eq (by simp [hin y.1 (by simp)]), ok_bind, setPrev_eq (by simp [hself]), ok_bind]
        refine ⟨_, rfl, ⟨hnodup, ?_, ?_, ?_, hsize'⟩, hiterator⟩
        · dsimp only
          rw [hnodes]
          exact link_between hnew h.nodup hx rfl
        · have hne : before ++ [x] ≠ [] := by simp
          exact hhead.trans ((first_append_of_ne hne _).trans (first_append_of_ne hne _).symm)
        · have hne : y :: behind ≠ [] := List.cons_ne_nil y behind
          have hlast : final ((newOne, (⟨value, data⟩ : Entry α)) :: y :: behind) = final (y :: behind) := final_append_of_ne [_] hne
          exact htail.trans ((final_append_of_ne _ hne).trans (hlast.symm.trans (final_append_of_ne _ (List.cons_ne_nil _ _)).symm))

theorem Linked.unlink_only (h : Linked L [(k, b)]) :
    Linked { L with nodes := DoublyLinked.free L.nodes k, tail := none, head := none, size := L.size - 1 } [] := by
  refine ⟨List.nodup_nil, ?_, rfl, rfl, ?_⟩
  · dsimp only
    rw [h.nodes]
    exact free_singleton
  · dsimp only
    rw [h.size]
    rfl

theorem Linked.unlink_first {y : Ptr × Entry α} (h : Linked L ((k, b) :: y :: ys)) :
    Linked { L with nodes := DoublyLinked.free (DoublyLinked.setPrev L.nodes y.1 none) k, head := some y.1, size := L.size - 1 }
      (y :: ys) := by
  obtain ⟨hk, hnodup⟩ := List.nodup_cons.mp h.nodup
  refine ⟨hnodup, ?_, rfl, ?_, ?_⟩
  · dsimp only
    rw [h.nodes]
    exact unlink_front hk rfl
  · exact h.tail.trans (final_append_of_ne [(k, b)] (List.cons_ne_nil y ys))
  · dsimp only
    rw [h.size, List.length_cons]
    push_cast
    exact add_sub_cancel_right _ _

theorem Linked.unlink_last {x : Ptr × Entry α} (h : Linked L (xs ++ [x] ++ [(k, b)])) :
    Linked { L with nodes := DoublyLinked.free (DoublyLinked.setNext L.nodes x.1 none) k, tail := some x.1, size := L.size - 1 }
      (xs ++ [x]) := by
  obtain ⟨hk, -⟩ := split_unique h.nodup
  have hkeys : (keys (xs ++ [x]) ++ [k]).Nodup := by simpa using h.nodup
  have hnodup : (keys (xs ++ [x])).Nodup := (List.nodup_append'.mp hkeys).1
  refine ⟨hnodup, ?_, ?_, (final_concat xs x).symm, ?_⟩
  · dsimp only
    rw [h.nodes]
    exact unlink_back hk hnodup (final_concat xs x)
  · exact h.head.trans (first_append_of_ne (by simp) _)
  · dsimp only
    rw [h.size, List.length_append]
    push_cast
    exact add_sub_cancel_right _ _

theorem Linked.unlink_middle {x y : Ptr × Entry α} (h : Linked L (xs ++ [x] ++ (k, b) :: y :: ys)) :
    Linked
      { L with
        nodes := DoublyLinked.free (DoublyLinked.setPrev (DoublyLinked.setNext L.nodes x.1 (some y.1)) y.1 (some x.1)) k
        size := L.size - 1 }
      (xs ++ [x] ++ y :: ys) := by
  have hkeys : (keys (xs ++ [x]) ++ k :: keys (y :: ys)).Nodup := by simpa using h.nodup
  have hne : xs ++ [x] ≠ [] := by simp
  refine ⟨?_, ?_, ?_, ?_, ?_⟩
  · rw [keys, List.map_append]
    exact (List.nodup_middle.mp hkeys).of_cons
  · dsimp only
    rw [h.nodes]
    exact unlink_between h.nodup (final_concat xs x) rfl
  · exact h.head.trans ((first_append_of_ne hne _).trans (first_append_of_ne hne _).symm)
  · have hlast : final ((k, b) :: y :: ys) = final (y :: ys) := final_append_of_ne [(k, b)] (List.cons_ne_nil y ys)
    exact h.tail.trans ((final_append_of_ne _ (List.cons_ne_nil _ _)).trans
      (hlast.trans (final_append_of_ne _ (List.cons_ne_nil _ _)).symm))
  · dsimp only
    rw [h.size]
    simp only [List.length_append, List.length_cons, List.length_nil]
    push_cast
    ring

theorem Linked.size_ne_one {x y : Ptr × Entry α} (h : Linked L (x :: y :: ys)) : ¬L.size = 1 := by
  intro hone
  obtain ⟨z, hz⟩ := h.size_eq_one.mp hone
  cases hz

theorem deleteHead_spec (h : Linked L seq) : ∃ L', deleteHead L = .ok (0, L') ∧ Linked L' seq.tail ∧ L'.iterator = L.iterator := by
  unfold deleteHead
  match seq, h with
  | [], h =>
      have hhead : L.head = none := h.head
      rw [if_pos hhead]
      exact ⟨L, rfl, h, rfl⟩
  | [(k, b)], h =>
      have hhead : L.head = some k := h.head
      have htail : L.tail = some k := h.tail
      have hk : L.nodes k ≠ none := h.allocated.mpr List.mem_cons_self
      rw [if_neg (by simp [hhead]), if_pos (h.size_eq_one.mpr ⟨_, rfl⟩), htail, free_eq hk, ok_bind]
      exact ⟨_, rfl, h.unlink_only, rfl⟩
  | (k, b) :: y :: ys, h =>
      have hhead : L.head = some k := h.head
      have hk : L.nodes k ≠ none := h.allocated.mpr List.mem_cons_self
      have hy : L.nodes y.1 ≠ none := h.allocated.mpr (by simp)
      rw [if_neg (by simp [hhead]), if_neg h.size_ne_one, hhead, h.element_first, ok_bind]
      dsimp only [first_cons]
      rw [setPrev_eq (by exact hy), ok_bind, free_eq (by simp [hk]), ok_bind]
      exact ⟨_, rfl, h.unlink_first, rfl⟩

theorem deleteTail_spec (h : Linked L seq) : ∃ L', deleteTail L = .ok (0, L') ∧ Linked L' seq.dropLast ∧ L'.iterator = L.iterator := by
  unfold deleteTail
  rcases List.eq_nil_or_concat' seq with rfl | ⟨before, ⟨k, b⟩, rfl⟩
  · have hhead : L.head = none := h.head
    rw [if_pos hhead]
    exact ⟨L, rfl, h, rfl⟩
  · have htail : L.tail = some k := h.tail.trans (final_concat before (k, b))
    have hk : L.nodes k ≠ none := h.allocated.mpr (mem_of_final (final_concat before (k, b)))
    rw [List.dropLast_concat]
    rcases List.eq_nil_or_concat' before with rfl | ⟨before, x, rfl⟩
    · have hhead : L.head = some k := h.head
      rw [if_neg (by simp [hhead]), if_pos (h.size_eq_one.mpr ⟨_, rfl⟩), hhead, free_eq hk, ok_bind]
      exact ⟨_, rfl, h.unlink_only, rfl⟩
    · have hhead : L.head ≠ none := by
        rw [h.head]
        simp [first]
      have hone : ¬L.size = 1 := by
        rw [h.size, List.length_append, List.length_append]
        simp only [List.length_singleton]
        omega
      have hx : L.nodes x.1 ≠ none := h.allocated.mpr (by simp)
      rw [if_neg hhead, if_neg hone, htail, h.element, ok_bind]
      dsimp only
      rw [final_concat, setNext_eq (by exact hx), ok_bind, free_eq (by simp [hk]), ok_bind]
      exact ⟨_, rfl, h.unlink_last, rfl⟩

/-- The element at the iterator is taken out, and the iterator goes to the next one. -/
theorem deletePresent_spec (h : Linked L (xs ++ (k, b) :: ys)) (hiter : L.iterator = some k) :
    ∃ L', deletePresent L = .ok (0, L') ∧ Linked L' (xs ++ ys) ∧ L'.iterator = first ys := by
  have hk : L.nodes k ≠ none := h.allocated.mpr (by simp)
  obtain ⟨hkx, hky⟩ := split_unique h.nodup
  have hlength : L.size = xs.length + 1 + ys.length := by
    rw [h.size, List.length_append, List.length_cons]
    push_cast
    ring
  have hzero : ¬L.size = 0 := by omega
  unfold deletePresent
  rw [if_neg (by simp [hiter]), if_neg hzero]
  rcases List.eq_nil_or_concat' xs with rfl | ⟨before, x, rfl⟩
  · have hhead : L.head = some k := h.head
    have hat : L.iterator = L.head := hiter.trans hhead.symm
    rw [if_neg fun hone => hone.2 hat]
    cases ys with
    | nil =>
        have hone : L.size = 1 ∧ L.iterator = L.head := ⟨h.size_eq_one.mpr ⟨_, rfl⟩, hat⟩
        rw [if_pos hone, hhead, free_eq hk, ok_bind]
        obtain ⟨hnodup, hnodes, hhead', htail', hsize⟩ := h.unlink_only
        exact ⟨_, rfl, ⟨hnodup, hnodes, hhead', htail', hsize⟩, rfl⟩
    | cons y ys =>
        have hy : L.nodes y.1 ≠ none := h.allocated.mpr (by simp)
        rw [if_neg fun hone => Linked.size_ne_one h hone.1, if_pos hat, hhead, h.element_first, ok_bind]
        dsimp only [first_cons]
        rw [setPrev_eq (by exact hy), ok_bind]
        dsimp only
        rw [hiter, free_eq (by simp [hk]), ok_bind]
        obtain ⟨hnodup, hnodes, hhead', htail', hsize⟩ := h.unlink_first
        exact ⟨_, rfl, ⟨hnodup, hnodes, hhead', htail', hsize⟩, rfl⟩
  · have hnotone : ¬L.size = 1 := by
      rw [hlength, List.length_append]
      simp only [List.length_singleton]
      omega
    have hhead : ¬L.iterator = L.head := by
      rw [hiter, h.head, first_append_of_ne (by simp)]
      exact fun heq => hkx (mem_of_first heq.symm)
    have hx : L.nodes x.1 ≠ none := h.allocated.mpr (by simp)
    rw [if_neg fun hone => hnotone hone.1, if_neg fun hone => hnotone hone.1, if_neg hhead]
    cases ys with
    | nil =>
        have htail : L.tail = some k := h.tail.trans (final_concat _ (k, b))
        rw [if_pos (hiter.trans htail.symm), htail, h.element, ok_bind]
        dsimp only
        rw [final_concat, setNext_eq (by exact hx), ok_bind]
        dsimp only
        rw [hiter, free_eq (by simp [hk]), ok_bind]
        obtain ⟨hnodup, hnodes, hhead', htail', hsize⟩ := h.unlink_last
        rw [List.append_nil]
        exact ⟨_, rfl, ⟨hnodup, hnodes, hhead', htail', hsize⟩, rfl⟩
    | cons y ys =>
        have hy : L.nodes y.1 ≠ none := h.allocated.mpr (by simp)
        have hcell : L.nodes k = some ⟨b, some y.1, some x.1⟩ := by
          rw [h.cell, final_concat]
          rfl
        have hkx' : k ≠ x.1 := fun heq => hkx (by simp [heq])
        have hky' : k ≠ y.1 := fun heq => hky (by simp [heq])
        have hlast : final ((k, b) :: y :: ys) = final (y :: ys) := final_append_of_ne [(k, b)] (List.cons_ne_nil y ys)
        have htail : ¬L.iterator = L.tail := by
          rw [hiter, h.tail, final_append_of_ne _ (List.cons_ne_nil _ _), hlast]
          exact fun heq => hky (mem_of_final heq.symm)
        rw [if_neg htail, hiter, element_eq hcell, ok_bind]
        dsimp only
        rw [setNext_eq (by exact hx), ok_bind]
        dsimp only
        rw [hiter, element_eq ((setNext_of_ne hkx' _).trans hcell), ok_bind]
        dsimp only
        rw [setPrev_eq (by simp [hy]), ok_bind]
        dsimp only
        rw [element_eq ((setPrev_of_ne hky' _).trans ((setNext_of_ne hkx' _).trans hcell)), ok_bind, free_eq (by simp [hk]), ok_bind]
        obtain ⟨hnodup, hnodes, hhead', htail', hsize⟩ := h.unlink_middle
        exact ⟨_, rfl, ⟨hnodup, hnodes, hhead', htail', hsize⟩, rfl⟩

theorem move_spec (h : Linked L (xs ++ (k, b) :: ys)) (hiter : L.iterator = some k) :
    move L = .ok { L with iterator := first ys } := by
  unfold move
  rw [if_neg (by simp [hiter]), hiter, h.element]
  rfl

theorem getPresentData_spec (h : Linked L (xs ++ (k, b) :: ys)) (hiter : L.iterator = some k) : getPresentData L = .ok (some b.data) := by
  unfold getPresentData
  rw [if_neg (by simp [hiter]), hiter, h.element]
  rfl

theorem setPresentData_spec (h : Linked L (xs ++ (k, b) :: ys)) (hiter : L.iterator = some k) (dat : α) :
    ∃ L', setPresentData L dat = .ok (0, L') ∧ Linked L' (xs ++ (k, { b with data := dat }) :: ys) ∧ L'.iterator = L.iterator := by
  obtain ⟨hk, -⟩ := split_unique h.nodup
  unfold setPresentData
  rw [if_neg (by simp [hiter]), hiter, write_eq (h.allocated.mpr (by simp)), ok_bind]
  refine ⟨_, rfl, ⟨?_, ?_, ?_, ?_, ?_⟩, hiter⟩
  · simpa using h.nodup
  · dsimp only
    rw [h.nodes]
    exact modify_body hk fun b => { b with data := dat }
  · exact h.head.trans (by cases xs <;> rfl)
  · exact h.tail.trans (by rw [final_append, final_append, final_cons, final_cons])
  · exact h.size.trans (by simp)

theorem movePresentToTail_one (hone : L.size = 1) : movePresentToTail L = .ok (0, L) := if_pos hone

theorem movePresentToTail_last (h : Linked L (xs ++ [(k, b)])) (hiter : L.iterator = some k) : movePresentToTail L = .ok (0, L) := by
  unfold movePresentToTail
  have htail : L.tail = some k := h.tail.trans (final_concat xs (k, b))
  by_cases hone : L.size = 1
  · exact if_pos hone
  · have hhead : ¬L.iterator = L.head := by
      have hne : xs ≠ [] := by
        rintro rfl
        exact hone (h.size_eq_one.mpr ⟨_, rfl⟩)
      rw [hiter, h.head, first_append_of_ne hne]
      exact fun heq => (split_unique h.nodup).1 (mem_of_first heq.symm)
    rw [if_neg hone, if_neg hhead, if_pos (htail.trans hiter.symm)]
    rfl

/-! ## Where a call goes wrong -/

theorem Linked.element_wild (h : Linked L seq) {p : Option Ptr} (hp : ∀ k ∈ keys seq, p ≠ some k) : L.element p = .error .overrun := by
  have hnone : p.bind L.nodes = none := by
    cases p with
    | none => rfl
    | some k =>
        by_contra hk
        exact hp k (h.allocated.mp hk) rfl
  unfold LinkedList.element
  rw [hnone]

theorem Linked.write_wild (h : Linked L seq) {p : Option Ptr} (hp : ∀ k ∈ keys seq, p ≠ some k)
    (u : Cell Ptr (Entry α) → Cell Ptr (Entry α)) :
    L.write p u = .error .overrun := by
  cases p with
  | none => rfl
  | some k =>
      refine if_pos ?_
      by_contra hk
      exact hp k (h.allocated.mp hk) rfl

theorem element_free {L' : LinkedList α} (hfree : L.free (some k) = .ok L') : L'.element (some k) = .error .overrun := by
  unfold free at hfree
  dsimp only at hfree
  split at hfree
  · cases hfree
  · cases hfree
    unfold LinkedList.element
    rw [Option.bind_some]
    dsimp only [DoublyLinked.free]
    rw [Function.update_self]

/-- `delete` gets to the end of a list only if it finds nothing to delete. -/
theorem deleteLoop_ok (value : Int) {fuel : Nat} (h : Linked L (xs ++ ys)) {previous : Option Ptr} {L' : LinkedList α}
    (hok : deleteLoop value fuel L (first ys) previous = .ok L') : L' = L ∧ ∀ y ∈ ys, y.2.value ≠ value := by
  induction ys generalizing xs fuel previous with
  | nil =>
      cases fuel with
      | zero => cases hok
      | succ fuel =>
          cases hok
          exact ⟨rfl, fun y hy => nomatch hy⟩
  | cons y ys ih =>
      cases fuel with
      | zero => cases hok
      | succ fuel =>
          rw [first_cons, deleteLoop, Linked.element (b := y.2) h, ok_bind] at hok
          by_cases hvalue : y.2.value = value
          · rw [if_pos hvalue] at hok
            obtain ⟨L₁, -, hok⟩ := bind_eq_ok.mp hok
            obtain ⟨L₂, hfree, hok⟩ := bind_eq_ok.mp hok
            dsimp only at hok
            rw [element_free hfree] at hok
            cases hok
          · rw [if_neg hvalue] at hok
            dsimp only [pure_eq_ok, ok_bind] at hok
            rw [Linked.element (b := y.2) h, ok_bind] at hok
            obtain ⟨heq, hrest⟩ := ih (show Linked L (xs ++ [y] ++ ys) by simpa using h) hok
            exact ⟨heq, List.forall_mem_cons.mpr ⟨hvalue, hrest⟩⟩

theorem delete_ok (h : Linked L seq) {fuel : Nat} {value : Int} {r : Int × LinkedList α} (hok : delete fuel L value = .ok r) :
    r.2.size = seq.length - 1 ∧ ∀ x ∈ seq, x.2.value ≠ value := by
  rw [delete, h.head] at hok
  obtain ⟨M, hloop, hreturn⟩ := bind_eq_ok.mp hok
  obtain ⟨heq, hnone⟩ := deleteLoop_ok value (show Linked L ([] ++ seq) from h) hloop
  cases hreturn
  exact ⟨by rw [heq, h.size], hnone⟩

theorem write_tail {L' : LinkedList α} {p : Option Ptr} {u : Cell Ptr (Entry α) → Cell Ptr (Entry α)} (hok : L.write p u = .ok L') :
    L'.tail = L.tail := by
  cases p with
  | none => cases hok
  | some l =>
      by_cases hl : L.nodes l = none
      · cases (if_pos hl).symm.trans hok
      · cases (write_eq hl u).symm.trans hok
        rfl

/-- A write of a pointer to the element before leaves the pointers to the next elements. -/
theorem setPrev_next {L' : LinkedList α} {p q : Option Ptr} (hok : L.setPrev p q = .ok L') (k : Ptr) :
    (L'.nodes k).map Cell.next = (L.nodes k).map Cell.next := by
  cases p with
  | none => cases hok
  | some l =>
      by_cases hl : L.nodes l = none
      · cases (if_pos hl).symm.trans hok
      · cases (setPrev_eq hl q).symm.trans hok
        exact next_setPrev L.nodes l k q

theorem setNext_next {L' : LinkedList α} {p q : Option Ptr} (hok : L.setNext p q = .ok L') (hne : p ≠ some k) : L'.nodes k = L.nodes k := by
  cases p with
  | none => cases hok
  | some l =>
      by_cases hl : L.nodes l = none
      · cases (if_pos hl).symm.trans hok
      · cases (setNext_eq hl q).symm.trans hok
        exact setNext_of_ne (fun heq => hne (congrArg some heq.symm)) q

theorem movePresentToTail_next (h : Linked L (xs ++ (k, b) :: ys)) (hiter : L.iterator = some k) (hys : ys ≠ []) {r : Int × LinkedList α}
    (hok : movePresentToTail L = .ok r) : r.2.tail = some k ∧ (r.2.nodes k).map Cell.next = some (first ys) := by
  have hcell : (L.nodes k).map Cell.next = some (first ys) := by rw [h.cell]; rfl
  obtain ⟨hkx, hky⟩ := split_unique h.nodup
  have hbefore : final xs ≠ some k := fun heq => hkx (mem_of_final heq)
  have htail : L.tail ≠ some k := by
    rw [h.tail, List.append_cons, final_append_of_ne _ hys]
    exact fun heq => hky (mem_of_final heq)
  have hone : ¬L.size = 1 := by
    obtain ⟨y, ys, rfl⟩ := List.exists_cons_of_ne_nil hys
    rw [h.size, List.length_append, List.length_cons, List.length_cons]
    omega
  unfold movePresentToTail at hok
  rw [if_neg hone] at hok
  by_cases hhead : L.iterator = L.head
  · rw [if_pos hhead, ← hhead, hiter, h.element, ok_bind] at hok
    dsimp only at hok
    obtain ⟨L₁, h₁, hok⟩ := bind_eq_ok.mp hok
    obtain ⟨L₂, h₂, hok⟩ := bind_eq_ok.mp hok
    obtain ⟨L₃, h₃, hok⟩ := bind_eq_ok.mp hok
    cases hok
    have htail' : L₁.tail ≠ some k := by
      rw [write_tail h₁]
      exact htail
    refine ⟨rfl, ?_⟩
    calc (L₃.nodes k).map Cell.next = (L₂.nodes k).map Cell.next := setPrev_next h₃ k
      _ = (L₁.nodes k).map Cell.next := by rw [setNext_next h₂ htail']
      _ = (L.nodes k).map Cell.next := setPrev_next h₁ k
      _ = some (first ys) := hcell
  · rw [if_neg hhead, if_neg fun heq => htail (heq.trans hiter), hiter] at hok
    dsimp only at hok
    rw [h.element, ok_bind] at hok
    obtain ⟨L₁, h₁, hok⟩ := bind_eq_ok.mp hok
    obtain ⟨L₂, h₂, hok⟩ := bind_eq_ok.mp hok
    obtain ⟨L₃, h₃, hok⟩ := bind_eq_ok.mp hok
    obtain ⟨L₄, h₄, hok⟩ := bind_eq_ok.mp hok
    cases hok
    refine ⟨rfl, ?_⟩
    calc (L₄.nodes k).map Cell.next = (L₃.nodes k).map Cell.next := setPrev_next h₄ k
      _ = (L₂.nodes k).map Cell.next := setPrev_next h₃ k
      _ = (L₁.nodes k).map Cell.next := by rw [setNext_next h₂ hbefore]
      _ = (L.nodes k).map Cell.next := by rw [setNext_next h₁ htail]
      _ = some (first ys) := hcell

end Calls

end LinkedList

end BeagleCache
