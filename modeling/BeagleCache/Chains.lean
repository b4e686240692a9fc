import Mathlib.Tactic

/-! Chains of cells in a memory, and tables of them. A chain is the cells of a list of items, each with a pointer to the next one; a table
has the head of one chain at every index, and its chains do not share a cell. -/

namespace Chains

open Function

variable {κ β ι : Type}

structure Cell (κ β : Type) where
  body : β
  next : Option κ

/-- The cells that are allocated. -/
abbrev Heap (κ β : Type) := κ → Option (Cell κ β)

/-- The places of the items. -/
abbrev keys (xs : List (κ × β)) : List κ := xs.map Prod.fst

def first (xs : List (κ × β)) : Option κ := xs.head?.map Prod.fst

/-- Where the pointer to an item behind others is: in the last of them, or else in the table. -/
def linkBehind (before : List (κ × β)) : Option κ := before.getLast?.map Prod.fst

/-- The cells of the items are in the memory, each with a pointer to the next. -/
def Chain (h : Heap κ β) : List (κ × β) → Prop
  | [] => True
  | x :: rest => h x.1 = some ⟨x.2, first rest⟩ ∧ Chain h rest

@[simp] theorem first_nil : first ([] : List (κ × β)) = none := rfl

@[simp] theorem first_cons (x : κ × β) (xs : List (κ × β)) : first (x :: xs) = some x.1 := rfl

@[simp] theorem linkBehind_nil : linkBehind ([] : List (κ × β)) = none := rfl

@[simp] theorem linkBehind_concat (xs : List (κ × β)) (x : κ × β) : linkBehind (xs ++ [x]) = some x.1 := by
  rw [linkBehind, List.getLast?_concat]
  rfl

theorem first_eq_none {xs : List (κ × β)} : first xs = none ↔ xs = [] := by
  cases xs <;> simp

/-! ## One chain -/

section Chain

variable {h h' : Heap κ β} {xs ys : List (κ × β)} {x : κ × β}

theorem Chain.cell (hchain : Chain h (xs ++ x :: ys)) : h x.1 = some ⟨x.2, first ys⟩ := by
  induction xs with
  | nil => exact hchain.1
  | cons y xs ih => exact ih hchain.2

theorem Chain.right (hchain : Chain h (xs ++ ys)) : Chain h ys := by
  induction xs with
  | nil => exact hchain
  | cons y xs ih => exact ih hchain.2

theorem Chain.allocated (hchain : Chain h xs) {k : κ} (hk : k ∈ keys xs) : h k ≠ none := by
  obtain ⟨x, hx, rfl⟩ := List.mem_map.mp hk
  obtain ⟨before, after, rfl⟩ := List.append_of_mem hx
  rw [hchain.cell]
  exact Option.some_ne_none _

/-- A chain stays where its cells do. -/
theorem Chain.frame (hchain : Chain h xs) (hsame : ∀ k ∈ keys xs, h' k = h k) : Chain h' xs := by
  induction xs with
  | nil => trivial
  | cons x xs ih =>
      refine ⟨(hsame x.1 List.mem_cons_self).trans hchain.1, ih hchain.2 fun k hk => ?_⟩
      exact hsame k (List.mem_cons_of_mem _ hk)

variable [DecidableEq κ]

theorem Chain.update (hchain : Chain h xs) {k : κ} (hk : k ∉ keys xs) (c : Option (Cell κ β)) : Chain (update h k c) xs :=
  hchain.frame fun _ hmem => update_of_ne (ne_of_mem_of_not_mem hmem hk) _ _

/-- The item between two others is taken out of a chain. -/
theorem Chain.unlink {y : κ × β} (hchain : Chain h (xs ++ y :: x :: ys)) (hnodup : (keys (xs ++ y :: x :: ys)).Nodup) :
    Chain (Function.update (Function.update h y.1 (some ⟨y.2, first ys⟩)) x.1 none) (xs ++ y :: ys) := by
  induction xs with
  | nil =>
      obtain ⟨hy, hrest⟩ := List.nodup_cons.mp hnodup
      obtain ⟨hx, -⟩ := List.nodup_cons.mp hrest
      have hne : y.1 ≠ x.1 := fun heq => hy (heq ▸ List.mem_cons_self)
      have hys : y.1 ∉ keys ys := fun hmem => hy (List.mem_cons_of_mem _ hmem)
      refine ⟨?_, (hchain.2.2.update hys _).update hx _⟩
      rw [Function.update_of_ne hne, Function.update_self]
  | cons z xs ih =>
      obtain ⟨hz, hrest⟩ := List.nodup_cons.mp hnodup
      have hzy : z.1 ≠ y.1 := fun heq => hz (heq ▸ List.mem_map_of_mem (List.mem_append_right _ List.mem_cons_self))
      have hzx : z.1 ≠ x.1 :=
        fun heq => hz (heq ▸ List.mem_map_of_mem (List.mem_append_right _ (List.mem_cons_of_mem _ List.mem_cons_self)))
      refine ⟨?_, ih hchain.2 hrest⟩
      have hnext : first (xs ++ y :: x :: ys) = first (xs ++ y :: ys) := by cases xs <;> rfl
      have hcell : h z.1 = some ⟨z.2, first (xs ++ y :: ys)⟩ := by
        rw [← hnext]
        exact hchain.1
      rw [Function.update_of_ne hzx, Function.update_of_ne hzy]
      exact hcell

end Chain

/-! ## A table -/

/-- The chains at the indices `inTable` of a table, with their items. The memory has no other cell. -/
structure Layout (inTable : ι → Prop) (h : Heap κ β) (heads : ι → Option κ) (chains : ι → List (κ × β)) : Prop where
  heads : ∀ i, inTable i → heads i = first (chains i)
  chain : ∀ i, inTable i → Chain h (chains i)
  nodup : ∀ i, inTable i → (keys (chains i)).Nodup
  apart : ∀ i j, inTable i → inTable j → ∀ k ∈ keys (chains i), k ∈ keys (chains j) → i = j
  only : ∀ k, h k ≠ none → ∃ i, inTable i ∧ k ∈ keys (chains i)

namespace Layout

variable {inTable : ι → Prop} {h : Heap κ β} {heads : ι → Option κ} {chains : ι → List (κ × β)} {i j : ι} {k : κ} {b : β}

theorem empty (inTable : ι → Prop) : Layout inTable (fun _ => none : Heap κ β) (fun _ => none) fun _ => [] where
  heads := fun _ _ => rfl
  chain := fun _ _ => trivial
  nodup := fun _ _ => List.nodup_nil
  apart := fun _ _ _ _ _ hk _ => absurd hk List.not_mem_nil
  only := fun _ hk => absurd rfl hk

theorem allocated (hl : Layout inTable h heads chains) : h k ≠ none ↔ ∃ i, inTable i ∧ k ∈ keys (chains i) := by
  constructor
  · exact hl.only k
  · rintro ⟨i, hi, hk⟩
    exact (hl.chain i hi).allocated hk

theorem not_mem_of_free (hl : Layout inTable h heads chains) (hfree : h k = none) (hi : inTable i) : k ∉ keys (chains i) :=
  fun hk => (hl.chain i hi).allocated hk hfree

/-- What the chains are elsewhere does not matter. -/
theorem congr (hl : Layout inTable h heads chains) {chains' : ι → List (κ × β)} (hsame : ∀ i, inTable i → chains i = chains' i) :
    Layout inTable h heads chains' where
  heads := fun i hi => hsame i hi ▸ hl.heads i hi
  chain := fun i hi => hsame i hi ▸ hl.chain i hi
  nodup := fun i hi => hsame i hi ▸ hl.nodup i hi
  apart := fun i j hi hj k hki hkj => hl.apart i j hi hj k (hsame i hi ▸ hki) (hsame j hj ▸ hkj)
  only := by
    intro k hk
    obtain ⟨i, hi, hki⟩ := hl.only k hk
    exact ⟨i, hi, hsame i hi ▸ hki⟩

variable [DecidableEq κ] [DecidableEq ι]

/-- A change of one chain that leaves the cells of the others. -/
theorem change (hl : Layout inTable h heads chains) {h' : Heap κ β} {xs : List (κ × β)} (hchain : Chain h' xs)
    (hnodup : (keys xs).Nodup) (hapart : ∀ k ∈ keys xs, k ∈ keys (chains i) ∨ h k = none)
    (hsame : ∀ k, k ∉ keys (chains i) → k ∉ keys xs → h' k = h k)
    (hgone : ∀ k ∈ keys (chains i), k ∉ keys xs → h' k = none) (hi : inTable i) :
    Layout inTable h' (update heads i (first xs)) (update chains i xs) := by
  have hother : ∀ j, inTable j → j ≠ i → ∀ k ∈ keys (chains j), k ∉ keys (chains i) ∧ k ∉ keys xs := by
    intro j hj hne k hk
    have hold : k ∉ keys (chains i) := fun hki => hne (hl.apart j i hj hi k hk hki)
    refine ⟨hold, fun hnew => ?_⟩
    obtain hki | hfree := hapart k hnew
    · exact hold hki
    · exact hl.not_mem_of_free hfree hj hk
  refine ⟨?_, ?_, ?_, ?_, ?_⟩
  · intro j hj
    by_cases hne : j = i
    · subst hne
      rw [update_self, update_self]
    · rw [update_of_ne hne, update_of_ne hne, hl.heads j hj]
  · intro j hj
    by_cases hne : j = i
    · subst hne
      rwa [update_self]
    · rw [update_of_ne hne]
      refine (hl.chain j hj).frame fun k hk => ?_
      exact hsame k (hother j hj hne k hk).1 (hother j hj hne k hk).2
  · intro j hj
    by_cases hne : j = i
    · subst hne
      rwa [update_self]
    · rw [update_of_ne hne]
      exact hl.nodup j hj
  · intro j l hj hlt k hkj hkl
    by_cases hji : j = i <;> by_cases hli : l = i
    · rw [hji, hli]
    · subst hji
      rw [update_self] at hkj
      rw [update_of_ne hli] at hkl
      exact absurd hkj (hother l hlt hli k hkl).2
    · subst hli
      rw [update_self] at hkl
      rw [update_of_ne hji] at hkj
      exact absurd hkl (hother j hj hji k hkj).2
    · rw [update_of_ne hji] at hkj
      rw [update_of_ne hli] at hkl
      exact hl.apart j l hj hlt k hkj hkl
  · intro k hk
    by_cases hnew : k ∈ keys xs
    · exact ⟨i, hi, by rwa [update_self]⟩
    by_cases hold : k ∈ keys (chains i)
    · exact absurd (hgone k hold hnew) hk
    · rw [hsame k hold hnew] at hk
      obtain ⟨j, hj, hkj⟩ := hl.only k hk
      have hne : j ≠ i := fun heq => hold (heq ▸ hkj)
      exact ⟨j, hj, by rwa [update_of_ne hne]⟩

/-- A new cell becomes the head of a chain. -/
theorem push (hl : Layout inTable h heads chains) (hfree : h k = none) (hi : inTable i) (b : β) :
    Layout inTable (update h k (some ⟨b, heads i⟩)) (update heads i (some k))
      (update chains i ((k, b) :: chains i)) := by
  have hk : k ∉ keys (chains i) := hl.not_mem_of_free hfree hi
  have hchain : Chain (update h k (some ⟨b, heads i⟩)) ((k, b) :: chains i) := by
    refine ⟨?_, (hl.chain i hi).update hk _⟩
    rw [update_self, hl.heads i hi]
  refine hl.change hchain (List.nodup_cons.mpr ⟨hk, hl.nodup i hi⟩) ?_ ?_ ?_ hi
  · intro l hmem
    obtain rfl | hmem := List.mem_cons.mp hmem
    · exact .inr hfree
    · exact .inl hmem
  · intro l _ hnew
    exact update_of_ne (List.ne_of_not_mem_cons hnew) _ _
  · intro l hold hnew
    exact absurd (List.mem_cons_of_mem _ hold) hnew

/-- The head of a chain is taken out. -/
theorem pop (hl : Layout inTable h heads chains) (hi : inTable i) {rest : List (κ × β)} (hchain : chains i = (k, b) :: rest) :
    Layout inTable (update h k none) (update heads i (first rest)) (update chains i rest) := by
  have hall := hl.chain i hi
  have hnodup := hl.nodup i hi
  rw [hchain] at hall hnodup
  obtain ⟨hk, hrest⟩ := List.nodup_cons.mp hnodup
  refine hl.change (hall.2.update hk _) hrest ?_ ?_ ?_ hi
  · intro l hmem
    rw [hchain]
    exact .inl (List.mem_cons_of_mem _ hmem)
  · intro l hold _
    rw [hchain] at hold
    exact update_of_ne (List.ne_of_not_mem_cons hold) _ _
  · intro l hold hnew
    rw [hchain] at hold
    obtain rfl | hmem := List.mem_cons.mp hold
    · exact update_self ..
    · exact absurd hmem hnew

/-- A cell behind another one is taken out of a chain. -/
theorem unlink (hl : Layout inTable h heads chains) (hi : inTable i) {xs ys : List (κ × β)} {x y : κ × β}
    (hchain : chains i = xs ++ y :: x :: ys) :
    Layout inTable (update (update h y.1 (some ⟨y.2, first ys⟩)) x.1 none) heads
      (update chains i (xs ++ y :: ys)) := by
  have hall := hl.chain i hi
  have hnodup := hl.nodup i hi
  rw [hchain] at hall hnodup
  have hkeys : ∀ k, k ∈ keys (xs ++ y :: x :: ys) ↔ k = x.1 ∨ k ∈ keys (xs ++ y :: ys) := by
    intro k
    simp only [keys, List.map_append, List.map_cons, List.mem_append, List.mem_cons]
    tauto
  have hshort : (keys (xs ++ y :: ys)).Nodup := by
    refine List.Nodup.sublist (List.Sublist.map _ ?_) hnodup
    exact (List.Sublist.refl xs).append ((List.Sublist.refl ys).cons x |>.cons_cons y)
  have hx : x.1 ∉ keys (xs ++ y :: ys) := by
    have hperm : (keys (xs ++ y :: x :: ys)).Perm (x.1 :: keys (xs ++ y :: ys)) := by
      have hmiddle := @List.perm_middle _ x (xs ++ [y]) ys
      rw [List.append_assoc, List.append_assoc] at hmiddle
      exact hmiddle.map Prod.fst
    exact (List.nodup_cons.mp (hperm.nodup_iff.mp hnodup)).1
  have hheads : heads i = first (xs ++ y :: ys) := by
    rw [hl.heads i hi, hchain]
    cases xs <;> rfl
  have hresult := hl.change (hall.unlink hnodup) hshort (i := i) ?_ ?_ ?_ hi
  · rwa [← hheads, update_eq_self] at hresult
  · intro l hmem
    rw [hchain]
    exact .inl ((hkeys l).mpr (.inr hmem))
  · intro l hold _
    rw [hchain, hkeys] at hold
    have hly : l ≠ y.1 := fun heq => hold (.inr (heq ▸ List.mem_map_of_mem (List.mem_append_right _ List.mem_cons_self)))
    rw [update_of_ne fun heq => hold (.inl heq), update_of_ne hly]
  · intro l hold hnew
    rw [hchain, hkeys] at hold
    obtain rfl | hmem := hold
    · exact update_self ..
    · exact absurd hmem hnew

end Layout

/-! ## All items of a table -/

section Items

variable {α : Type} [DecidableEq ι] {l : List ι} {f : ι → List α} {i : ι}

theorem flatMap_update_perm (hl : l.Nodup) (hi : i ∈ l) (ys : List α) :
    (l.flatMap (update f i ys)).Perm (ys ++ (l.erase i).flatMap f) := by
  have hrest : (l.erase i).flatMap (update f i ys) = (l.erase i).flatMap f := by
    refine List.flatMap_congr fun j hj => update_of_ne ?_ _ _
    rintro rfl
    exact hl.not_mem_erase hj
  refine ((List.perm_cons_erase hi).flatMap_right _).trans ?_
  rw [List.flatMap_cons, update_self, hrest]

theorem flatMap_perm (hi : i ∈ l) (f : ι → List α) : (l.flatMap f).Perm (f i ++ (l.erase i).flatMap f) := by
  refine ((List.perm_cons_erase hi).flatMap_right _).trans ?_
  rw [List.flatMap_cons]

/-- One item more at one index. -/
theorem flatMap_update_more (hl : l.Nodup) (hi : i ∈ l) {x : α} {ys : List α} (hys : ys.Perm (x :: f i)) :
    (l.flatMap (update f i ys)).Perm (x :: l.flatMap f) := by
  refine (flatMap_update_perm hl hi ys).trans ((hys.append_right _).trans ?_)
  exact ((flatMap_perm hi f).symm).cons x

/-- One item less at one index. -/
theorem flatMap_update_less (hl : l.Nodup) (hi : i ∈ l) {x : α} {ys : List α} (hys : (f i).Perm (x :: ys)) :
    (l.flatMap f).Perm (x :: l.flatMap (update f i ys)) := by
  refine (flatMap_perm hi f).trans ((hys.append_right _).trans ?_)
  exact ((flatMap_update_perm hl hi ys).symm).cons x

theorem emptied_nil (f : ι → List α) : (fun j => if j ∈ ([] : List ι) then [] else f j) = f :=
  funext fun _ => if_neg List.not_mem_nil

theorem emptied_cons (f : ι → List α) (i : ι) (l : List ι) :
    (fun j => if j ∈ l then [] else update f i [] j) = fun j => if j ∈ i :: l then [] else f j := by
  funext j
  by_cases hj : j = i
  · subst hj
    simp
  · simp [hj]

end Items

/-! ## The items in the order of a table -/

section Order

variable {α : Type} {n i j : Nat} {chains : Nat → List α}

/-- The items of the first chains. -/
abbrev items (n : Nat) (chains : Nat → List α) : List α := (List.range n).flatMap chains

/-- The items of the chains from one on. -/
def itemsFrom (n : Nat) (chains : Nat → List α) (i : Nat) : List α := (List.range' i (n - i)).flatMap chains

theorem itemsFrom_zero : itemsFrom n chains 0 = items n chains := by
  rw [itemsFrom, Nat.sub_zero, items, List.range_eq_range']

theorem itemsFrom_of_le (hi : n ≤ i) : itemsFrom n chains i = [] := by
  rw [itemsFrom, Nat.sub_eq_zero_of_le hi, List.range'_zero, List.flatMap_nil]

theorem itemsFrom_succ (hi : i < n) : itemsFrom n chains i = chains i ++ itemsFrom n chains (i + 1) := by
  have hlength : n - i = (n - (i + 1)) + 1 := by omega
  rw [itemsFrom, hlength, List.range'_succ, List.flatMap_cons, itemsFrom]

theorem items_succ : items (i + 1) chains = items i chains ++ chains i := by
  rw [items, List.range_succ, List.flatMap_append, List.flatMap_singleton]

theorem items_split (hi : i ≤ n) : items n chains = items i chains ++ itemsFrom n chains i := by
  have hsplit := @List.range'_append_1 0 i (n - i)
  rw [Nat.zero_add, Nat.add_sub_cancel' hi] at hsplit
  rw [items, items, itemsFrom, List.range_eq_range', List.range_eq_range', ← List.flatMap_append, hsplit]

theorem items_skip (hle : j ≤ i) (hempty : ∀ l, j ≤ l → l < i → chains l = []) : items i chains = items j chains := by
  have hbetween : itemsFrom i chains j = [] := by
    refine List.flatMap_eq_nil_iff.mpr fun l hl => ?_
    rw [List.mem_range'_1] at hl
    exact hempty l hl.1 (by omega)
  rw [items_split hle, hbetween, List.append_nil]

theorem itemsFrom_skip (hle : j ≤ i) (hin : i ≤ n) (hempty : ∀ l, j ≤ l → l < i → chains l = []) :
    itemsFrom n chains j = itemsFrom n chains i := by
  have hwhole : items n chains = items j chains ++ itemsFrom n chains j := items_split (hle.trans hin)
  rw [items_split hin, items_skip hle hempty] at hwhole
  exact (List.append_cancel_left hwhole).symm

theorem items_update {zs : List α} (hle : n ≤ i) : items n (update chains i zs) = items n chains := by
  refine List.flatMap_congr fun j hj => update_of_ne ?_ _ _
  have hlt := List.mem_range.mp hj
  omega

theorem itemsFrom_update {zs : List α} (hlt : i < j) :
    itemsFrom n (update chains i zs) j = itemsFrom n chains j := by
  refine List.flatMap_congr fun l hl => update_of_ne ?_ _ _
  rw [List.mem_range'_1] at hl
  omega

/-- The first place from `j` on, below `n`, with an item. -/
def nextFrom (heads : Nat → Option κ) (j n : Nat) : Option Nat := (List.range' j (n - j)).find? fun i => (heads i).isSome

theorem nextFrom_congr {heads heads' : Nat → Option κ} (hsame : ∀ i, j ≤ i → heads i = heads' i) :
    nextFrom heads j n = nextFrom heads' j n := by
  refine List.find?_congr fun i hi => ?_
  rw [hsame i (List.mem_range'_1.mp hi).1]

theorem nextFrom_ge {heads : Nat → Option κ} (h : nextFrom heads j n = some i) : j ≤ i := by
  obtain ⟨-, hmem, -⟩ := List.find?_range'_eq_some.mp h
  exact (List.mem_range'_1.mp hmem).1

theorem nextFrom_spec {β : Type} {heads : Nat → Option κ} {chains : Nat → List (κ × β)}
    (hheads : ∀ i, i < n → heads i = first (chains i)) (j : Nat) :
    (nextFrom heads j n = none ∧ itemsFrom n chains j = []) ∨
      ∃ i x after, nextFrom heads j n = some i ∧ j ≤ i ∧ i < n ∧ heads i = some x.1 ∧ chains i = x :: after ∧
        ∀ l, j ≤ l → l < i → chains l = [] := by
  have hempty : ∀ i, i < n → (heads i).isSome = false → chains i = [] := by
    intro i hi hnone
    rw [Option.isSome_eq_false_iff, Option.isNone_iff_eq_none, hheads i hi] at hnone
    exact first_eq_none.mp hnone
  have hbelow : ∀ i, i ∈ List.range' j (n - j) → j ≤ i ∧ i < n := by
    intro i hi
    rw [List.mem_range'_1] at hi
    omega
  cases hnext : nextFrom heads j n with
  | none =>
      refine .inl ⟨rfl, List.flatMap_eq_nil_iff.mpr fun i hi => ?_⟩
      have hnone := List.find?_eq_none.mp hnext i hi
      exact hempty i (hbelow i hi).2 (Bool.eq_false_iff.mpr hnone)
  | some i =>
      obtain ⟨hsome, hmem, hskip⟩ := List.find?_range'_eq_some.mp hnext
      obtain ⟨hle, hi⟩ := hbelow i hmem
      have hhead := hheads i hi
      rw [hhead] at hsome
      cases hchain : chains i with
      | nil =>
          rw [hchain] at hsome
          cases hsome
      | cons x after =>
          refine .inr ⟨i, x, after, rfl, hle, hi, ?_, hchain, fun l hjl hli => hempty l (hli.trans hi) ?_⟩
          · rw [hhead, hchain, first_cons]
          · simpa using hskip l hjl hli

end Order

/-! ## From one table to another -/

section Rehash

/-- The items that are moved one after the other to the front of the chains where they belong. -/
def rehash (place : β → Nat) (xs : List (κ × β)) (chains : Nat → List (κ × β)) : Nat → List (κ × β) :=
  xs.foldl (fun chains x => update chains (place x.2) (x :: chains (place x.2))) chains

variable {place : β → Nat} {xs ys : List (κ × β)} {chains : Nat → List (κ × β)} {m : Nat}

theorem rehash_cons (x : κ × β) : rehash place (x :: xs) chains =
    rehash place xs (update chains (place x.2) (x :: chains (place x.2))) := rfl

theorem rehash_append : rehash place (xs ++ ys) chains = rehash place ys (rehash place xs chains) := List.foldl_append

variable (place xs chains) in
theorem rehash_perm (hplace : ∀ x ∈ xs, place x.2 < m) :
    ((List.range m).flatMap (rehash place xs chains)).Perm (xs ++ (List.range m).flatMap chains) := by
  induction xs generalizing chains with
  | nil => exact List.Perm.refl _
  | cons x xs ih =>
      have hx : place x.2 ∈ List.range m := List.mem_range.mpr (hplace x List.mem_cons_self)
      refine (ih _ fun y hy => hplace y (List.mem_cons_of_mem _ hy)).trans ?_
      refine ((flatMap_update_more List.nodup_range hx (List.Perm.refl _)).append_left xs).trans ?_
      exact List.perm_middle

/-- Every item is where it belongs. -/
theorem rehash_placed {x : κ × β} {i : Nat} (hx : x ∈ rehash place xs chains i) : x ∈ chains i ∨ x ∈ xs ∧ place x.2 = i := by
  induction xs generalizing chains with
  | nil => exact .inl hx
  | cons y xs ih =>
      rw [rehash_cons] at hx
      obtain hold | ⟨hmem, hi⟩ := ih hx
      · by_cases hi : i = place y.2
        · subst hi
          rw [update_self] at hold
          obtain rfl | hold := List.mem_cons.mp hold
          · exact .inr ⟨List.mem_cons_self, rfl⟩
          · exact .inl hold
        · rw [update_of_ne hi] at hold
          exact .inl hold
      · exact .inr ⟨List.mem_cons_of_mem _ hmem, hi⟩

end Rehash

namespace Layout

variable {ι' : Type} {inTable : ι → Prop} {inNew : ι' → Prop} {h : Heap κ β} {heads : ι → Option κ} {newHeads : ι' → Option κ}
  {chains : ι → List (κ × β)} {newChains : ι' → List (κ × β)}

/-- A new table without items beside a table. -/
theorem beside (hl : Layout inTable h heads chains) (inNew : ι' → Prop) :
    Layout (Sum.elim inTable inNew) h (Sum.elim heads fun _ => none) (Sum.elim chains fun _ => []) where
  heads := by
    rintro (i | i) hi
    · exact hl.heads i hi
    · rfl
  chain := by
    rintro (i | i) hi
    · exact hl.chain i hi
    · trivial
  nodup := by
    rintro (i | i) hi
    · exact hl.nodup i hi
    · exact List.nodup_nil
  apart := by
    rintro (i | i) (j | j) hi hj k hki hkj
    · exact congrArg Sum.inl (hl.apart i j hi hj k hki hkj)
    · exact absurd hkj List.not_mem_nil
    · exact absurd hki List.not_mem_nil
    · exact absurd hki List.not_mem_nil
  only := by
    intro k hk
    obtain ⟨i, hi, hki⟩ := hl.only k hk
    exact ⟨.inl i, hi, hki⟩

/-- The old table is given up when it has no items any more. -/
theorem right (hl : Layout (Sum.elim inTable inNew) h (Sum.elim heads newHeads) (Sum.elim chains newChains))
    (hempty : ∀ i, inTable i → chains i = []) : Layout inNew h newHeads newChains where
  heads := fun i hi => hl.heads (.inr i) hi
  chain := fun i hi => hl.chain (.inr i) hi
  nodup := fun i hi => hl.nodup (.inr i) hi
  apart := fun i j hi hj k hki hkj => Sum.inr.inj (hl.apart (.inr i) (.inr j) hi hj k hki hkj)
  only := by
    intro k hk
    obtain ⟨i | i, hi, hki⟩ := hl.only k hk
    · have hnone : k ∈ keys (chains i) := hki
      rw [hempty i hi] at hnone
      exact absurd hnone List.not_mem_nil
    · exact ⟨i, hi, hki⟩

variable [DecidableEq κ] [DecidableEq ι] [DecidableEq ι']

/-- The first item of a chain of the old table becomes the first one of a chain of the new table. -/
theorem moveFirst (hl : Layout (Sum.elim inTable inNew) h (Sum.elim heads newHeads) (Sum.elim chains newChains)) {i : ι} {j : ι'}
    (hi : inTable i) (hj : inNew j) {k : κ} {b : β} {rest : List (κ × β)} (hchain : chains i = (k, b) :: rest) :
    Layout (Sum.elim inTable inNew) (update h k (some ⟨b, newHeads j⟩))
      (Sum.elim (update heads i (first rest)) (update newHeads j (some k)))
      (Sum.elim (update chains i rest) (update newChains j ((k, b) :: newChains j))) := by
  have hold : Sum.elim inTable inNew (.inl i) := hi
  have hnew : Sum.elim inTable inNew (.inr j) := hj
  have hfirst : Sum.elim chains newChains (.inl i) = (k, b) :: rest := hchain
  have hpush := (hl.pop hold hfirst).push (update_self ..) hnew b
  rwa [update_idem, Sum.update_elim_inl, Sum.update_elim_inr, Sum.update_elim_inl, Sum.update_elim_inr, Sum.elim_inr,
    Sum.elim_inr] at hpush

end Layout

end Chains
