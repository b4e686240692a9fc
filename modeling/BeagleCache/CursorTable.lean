import BeagleCache.Transition

/-! A collection of items one of which is the current one, as in a table that is walked with `first` and `next`: `next` behind the last
item comes back to the first one and says so, and the item behind one that is deleted becomes the current one. -/

namespace CursorTable

open Transition

variable {α K V : Type}

/-- The items before the current one, and those from it on. There is a current item if there is any. -/
structure Cursor (α : Type) where
  before : List α
  rest : List α
  ends : rest = [] → before = []

namespace Cursor

/-- At the first of some items. -/
def start (l : List α) : Cursor α := ⟨[], l, fun _ => rfl⟩

/-- At an item behind others. -/
def at_ (before : List α) (x : α) (rest : List α) : Cursor α := ⟨before, x :: rest, fun h => absurd h (List.cons_ne_nil _ _)⟩

variable (c : Cursor α)

def items : List α := c.before ++ c.rest

def current : Option α := c.rest.head?

def first : Cursor α := start c.items

/-- `false` where the first item follows. -/
def next : Bool × Cursor α :=
  match c.rest with
  | x :: y :: rest => (true, at_ (c.before ++ [x]) y rest)
  | _ => (false, c.first)

def delete : Cursor α :=
  match c.rest with
  | _ :: y :: rest => at_ c.before y rest
  | _ => start c.before

@[ext] theorem ext {c c' : Cursor α} (hbefore : c.before = c'.before) (hrest : c.rest = c'.rest) : c = c' := by
  cases c
  cases c'
  cases hbefore
  cases hrest
  rfl

@[simp] theorem items_start (l : List α) : (start l).items = l := List.nil_append l

@[simp] theorem items_at (before rest : List α) (x : α) : (at_ before x rest).items = before ++ x :: rest := rfl

@[simp] theorem items_first : c.first.items = c.items := items_start _

@[simp] theorem current_at (before rest : List α) (x : α) : (at_ before x rest).current = some x := rfl

variable {c}

theorem eq_at {x : α} {rest : List α} (h : c.rest = x :: rest) : c = at_ c.before x rest := ext rfl h

theorem eq_start_nil (h : c.rest = []) : c = start [] := ext (c.ends h) h

theorem items_next (c : Cursor α) : c.next.2.items = c.items := by
  unfold next
  split
  · rename_i x y rest h
    rw [items_at, items, h, List.append_assoc, List.singleton_append]
  · exact items_first c

/-- The current item is deleted, and the others stay in order. -/
theorem items_delete {x : α} {rest : List α} (h : c.rest = x :: rest) : c.delete.items = c.before ++ rest := by
  unfold delete
  rw [h]
  cases rest with
  | nil => exact (items_start _).trans (List.append_nil _).symm
  | cons y rest => rfl

theorem current_eq_none : c.current = none ↔ c.items = [] := by
  unfold current items
  rw [List.head?_eq_none_iff, List.append_eq_nil_iff]
  exact ⟨fun h => ⟨c.ends h, h⟩, fun h => h.2⟩

theorem mem_of_current {x : α} (h : c.current = some x) : x ∈ c.items := by
  obtain ⟨rest, hrest⟩ := List.head?_eq_some_iff.mp h
  rw [items, hrest]
  exact List.mem_append_right _ List.mem_cons_self

/-! ## The items in other terms -/

section Map

variable {β : Type} (f : α → β)

def map (c : Cursor α) : Cursor β where
  before := c.before.map f
  rest := c.rest.map f
  ends := fun h => by rw [c.ends (List.map_eq_nil_iff.mp h), List.map_nil]

@[simp] theorem items_map (c : Cursor α) : (c.map f).items = c.items.map f := (List.map_append ..).symm

@[simp] theorem current_map (c : Cursor α) : (c.map f).current = c.current.map f := List.head?_map ..

@[simp] theorem map_start (l : List α) : (start l).map f = start (l.map f) := rfl

@[simp] theorem map_at (before rest : List α) (x : α) : (at_ before x rest).map f = at_ (before.map f) (f x) (rest.map f) := rfl

theorem map_first (c : Cursor α) : c.first.map f = (c.map f).first := by
  rw [first, first, map_start, items_map]

theorem map_next (c : Cursor α) : (c.map f).next = (c.next.1, c.next.2.map f) := by
  match hrest : c.rest with
  | [] =>
      rw [eq_start_nil hrest]
      rfl
  | [x] =>
      rw [eq_at hrest]
      exact congrArg (Prod.mk false) (map_first f _).symm
  | x :: y :: rest =>
      have hbefore : c.before.map f ++ [f x] = (c.before ++ [x]).map f := by rw [List.map_append, List.map_singleton]
      have hnext : c.next = (true, at_ (c.before ++ [x]) y rest) := by rw [next, hrest]
      rw [hnext, map_at, ← hbefore, eq_at hrest]
      rfl

theorem map_delete (c : Cursor α) : c.delete.map f = (c.map f).delete := by
  match hrest : c.rest with
  | [] =>
      rw [eq_start_nil hrest]
      rfl
  | [x] =>
      rw [eq_at hrest]
      rfl
  | x :: y :: rest =>
      rw [eq_at hrest]
      rfl

end Map

end Cursor

/-! ## A table with a cursor -/

open Cursor

/-- A call on a table of keys and values, with its answer. -/
inductive Event (K V : Type)
  | found (k : K) (answer : Bool)
  | added (k : K) (v : V) (answer : Bool)
  | deleted (answer : Bool)
  | first (answer : Bool)
  | next (answer : Bool)

def keys (c : Cursor (K × V)) : List K := c.items.map Prod.fst

/-- The current item has the key, and the items are the same. -/
def MovedTo (c c' : Cursor (K × V)) (k : K) : Prop := c'.items = c.items ∧ ∃ v, c'.current = some (k, v)

/-- A key is added once; a new item is somewhere among the others, which may be in a new order. -/
def Step (c : Cursor (K × V)) : Event K V → Cursor (K × V) → Prop
  | .found k true, c' => MovedTo c c' k
  | .found k false, c' => k ∉ keys c ∧ c' = c
  | .added k v true, c' => k ∉ keys c ∧ c'.current = some (k, v) ∧ c'.items.Perm ((k, v) :: c.items)
  | .added k _ false, c' => MovedTo c c' k
  | .deleted true, c' => c.items ≠ [] ∧ c' = c.delete
  | .deleted false, c' => c.items = [] ∧ c' = c
  | .first answer, c' => (answer = true ↔ c.items ≠ []) ∧ c' = c.first
  | .next answer, c' => (answer, c') = c.next

def table : System (Cursor (K × V)) (Event K V) where
  init := fun c => c = start []
  step := Step

/-- No key is there twice. -/
theorem nodup_keys : System.Invariant (table : System (Cursor (K × V)) (Event K V)) fun c => (keys c).Nodup where
  init := by
    rintro c rfl
    exact List.nodup_nil
  step := by
    intro c e c' hnodup hstep
    cases e with
    | found k answer =>
        cases answer with
        | true =>
            rw [keys, hstep.1]
            exact hnodup
        | false =>
            rw [hstep.2]
            exact hnodup
    | added k v answer =>
        cases answer with
        | true =>
            obtain ⟨hnew, -, hperm⟩ := hstep
            exact (hperm.map Prod.fst).nodup_iff.mpr (List.nodup_cons.mpr ⟨hnew, hnodup⟩)
        | false =>
            rw [keys, hstep.1]
            exact hnodup
    | deleted answer =>
        cases answer with
        | true =>
            obtain ⟨hne, rfl⟩ := hstep
            match hrest : c.rest with
            | [] =>
                have hnil : c.items = [] := current_eq_none.mp (by rw [current, hrest, List.head?_nil])
                exact absurd hnil hne
            | x :: rest =>
                rw [keys, items_delete hrest]
                rw [keys, items, hrest] at hnodup
                exact hnodup.sublist (((List.Sublist.refl _).append (List.sublist_cons_self x rest)).map _)
        | false =>
            rw [hstep.2]
            exact hnodup
    | first answer =>
        rw [hstep.2, keys, items_first]
        exact hnodup
    | next answer =>
        have hsame : c'.items = c.items := (congrArg (fun r => r.2.items) hstep).trans (items_next c)
        rw [keys, hsame]
        exact hnodup

end CursorTable
