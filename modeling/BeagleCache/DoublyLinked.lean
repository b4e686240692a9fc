import Mathlib.Tactic

/-! Doubly linked lists in a memory of cells. A segment is the cells of a list of items between two pointers; a list is a segment
between two null pointers. Segments with different places stand beside each other, and each is changed by itself. -/

namespace DoublyLinked

open Function

variable {κ β : Type} [DecidableEq κ]

structure Cell (κ β : Type) where
  body : β
  next : Option κ
  prev : Option κ

/-- The cells that are allocated. -/
abbrev Heap (κ β : Type) := κ → Option (Cell κ β)

/-- The places of the items. -/
abbrev keys (xs : List (κ × β)) : List κ := xs.map Prod.fst

def first (xs : List (κ × β)) : Option κ := xs.head?.map Prod.fst

def final (xs : List (κ × β)) : Option κ := xs.getLast?.map Prod.fst

/-- The cells of the items, with a pointer from the last of them and one from the first. -/
def seg (prev next : Option κ) : List (κ × β) → Heap κ β
  | [] => fun _ => none
  | x :: rest => update (seg (some x.1) next rest) x.1 (some ⟨x.2, (first rest).or next, prev⟩)

def beside (f g : Heap κ β) : Heap κ β := fun k => (f k).or (g k)

def free (h : Heap κ β) (k : κ) : Heap κ β := update h k none

/-- A cell is changed, if there is one. -/
def modify (h : Heap κ β) (k : κ) (u : Cell κ β → Cell κ β) : Heap κ β := update h k ((h k).map u)

def setNext (h : Heap κ β) (k : κ) (p : Option κ) : Heap κ β := modify h k fun c => { c with next := p }

def setPrev (h : Heap κ β) (k : κ) (p : Option κ) : Heap κ β := modify h k fun c => { c with prev := p }

/-! ## The ends -/

section Ends

omit [DecidableEq κ]

variable (xs ys : List (κ × β)) (x : κ × β)

@[simp] theorem first_nil : first ([] : List (κ × β)) = none := rfl

@[simp] theorem first_cons : first (x :: xs) = some x.1 := rfl

@[simp] theorem final_nil : final ([] : List (κ × β)) = none := rfl

@[simp] theorem final_singleton : final [x] = some x.1 := rfl

theorem first_append : first (xs ++ ys) = (first xs).or (first ys) := by
  cases xs with
  | nil => rfl
  | cons x xs => rfl

theorem final_append : final (xs ++ ys) = (final ys).or (final xs) := by
  unfold final
  rw [List.getLast?_append, Option.map_or]

theorem final_cons : final (x :: xs) = (final xs).or (some x.1) := final_append [x] xs

@[simp] theorem final_concat : final (xs ++ [x]) = some x.1 := final_append xs [x]

theorem first_append_of_ne {xs : List (κ × β)} (h : xs ≠ []) (ys : List (κ × β)) : first (xs ++ ys) = first xs := by
  obtain ⟨x, rest, rfl⟩ := List.exists_cons_of_ne_nil h
  rfl

theorem final_append_of_ne (xs : List (κ × β)) {ys : List (κ × β)} (h : ys ≠ []) : final (xs ++ ys) = final ys := by
  obtain ⟨before, y, rfl⟩ := List.eq_nil_or_concat' ys |>.resolve_left h
  rw [← List.append_assoc, final_concat, final_concat]

theorem first_mem {xs : List (κ × β)} {k : κ} (h : first xs = some k) : ∃ x rest, xs = x :: rest ∧ x.1 = k := by
  cases xs with
  | nil => cases h
  | cons x rest => exact ⟨x, rest, rfl, Option.some.inj h⟩

theorem final_mem {xs : List (κ × β)} {k : κ} (h : final xs = some k) : ∃ before x, xs = before ++ [x] ∧ x.1 = k := by
  obtain ⟨x, hx, hk⟩ := Option.map_eq_some_iff.mp h
  obtain ⟨before, hxs⟩ := List.getLast?_eq_some_iff.mp hx
  exact ⟨before, x, hxs, hk⟩

theorem mem_of_first {xs : List (κ × β)} {k : κ} (h : first xs = some k) : k ∈ keys xs := by
  obtain ⟨x, rest, rfl, rfl⟩ := first_mem h
  exact List.mem_cons_self

theorem mem_of_final {xs : List (κ × β)} {k : κ} (h : final xs = some k) : k ∈ keys xs := by
  obtain ⟨before, x, rfl, rfl⟩ := final_mem h
  exact List.mem_map_of_mem (List.mem_append_right before List.mem_cons_self)

theorem split_of_mem {seq : List (κ × β)} {k : κ} (hk : k ∈ keys seq) : ∃ xs b ys, seq = xs ++ (k, b) :: ys := by
  obtain ⟨⟨k', b⟩, hmem, rfl⟩ := List.mem_map.mp hk
  obtain ⟨xs, ys, hseq⟩ := List.append_of_mem hmem
  exact ⟨xs, b, ys, hseq⟩

/-- A key stands at one place. -/
theorem split_unique {xs ys : List (κ × β)} {k : κ} {b : β} (hnodup : (keys (xs ++ (k, b) :: ys)).Nodup) : k ∉ keys xs ∧ k ∉ keys ys := by
  have hkeys : (keys xs ++ k :: keys ys).Nodup := by simpa using hnodup
  obtain ⟨-, hkys, hapart⟩ := List.nodup_append'.mp hkeys
  exact ⟨fun hmem => hapart hmem List.mem_cons_self, (List.nodup_cons.mp hkys).1⟩

end Ends

/-! ## One beside the other -/

section Beside

variable {f g h : Heap κ β} {k : κ}

omit [DecidableEq κ] in
theorem beside_assoc (f g h : Heap κ β) : beside (beside f g) h = beside f (beside g h) := by
  funext k
  exact Option.or_assoc

theorem update_beside (f g : Heap κ β) (k : κ) (c : Cell κ β) :
    update (beside f g) k (some c) = beside (update f k (some c)) g := by
  funext i
  unfold beside
  by_cases hi : i = k
  · subst hi
    simp
  · simp [hi]

theorem modify_eq_none {l : κ} (u : Cell κ β → Cell κ β) : modify h k u l = none ↔ h l = none := by
  unfold modify
  by_cases hl : l = k
  · subst hl
    simp
  · rw [update_of_ne hl]

@[simp] theorem setNext_eq_none {l : κ} (p : Option κ) : setNext h k p l = none ↔ h l = none := modify_eq_none _

@[simp] theorem setPrev_eq_none {l : κ} (p : Option κ) : setPrev h k p l = none ↔ h l = none := modify_eq_none _

theorem setNext_of_ne {l : κ} (hne : l ≠ k) (p : Option κ) : setNext h k p l = h l := update_of_ne hne _ _

theorem setPrev_of_ne {l : κ} (hne : l ≠ k) (p : Option κ) : setPrev h k p l = h l := update_of_ne hne _ _

/-- A change of one part of a cell leaves the others. -/
theorem map_modify {γ : Type} (h : Heap κ β) (k l : κ) (u : Cell κ β → Cell κ β) (g : Cell κ β → γ) (hu : ∀ c, g (u c) = g c) :
    (modify h k u l).map g = (h l).map g := by
  unfold modify
  by_cases hl : l = k
  · subst hl
    rw [update_self, Option.map_map]
    exact congrArg (fun g => (h l).map g) (funext hu)
  · rw [update_of_ne hl]

theorem next_setPrev (h : Heap κ β) (k l : κ) (p : Option κ) : (setPrev h k p l).map Cell.next = (h l).map Cell.next :=
  map_modify h k l _ _ fun _ => rfl

theorem body_setNext (h : Heap κ β) (k l : κ) (p : Option κ) : (setNext h k p l).map Cell.body = (h l).map Cell.body :=
  map_modify h k l _ _ fun _ => rfl

theorem body_setPrev (h : Heap κ β) (k l : κ) (p : Option κ) : (setPrev h k p l).map Cell.body = (h l).map Cell.body :=
  map_modify h k l _ _ fun _ => rfl

@[simp] theorem update_some_eq_none {l : κ} (c : Cell κ β) : update h k (some c) l = none ↔ l ≠ k ∧ h l = none := by
  by_cases hl : l = k
  · subst hl
    simp
  · simp [hl]

theorem modify_beside_left (hf : f k ≠ none) (u : Cell κ β → Cell κ β) : modify (beside f g) k u = beside (modify f k u) g := by
  obtain ⟨c, hc⟩ := Option.ne_none_iff_exists'.mp hf
  unfold modify
  have hcell : beside f g k = some c := by rw [beside, hc]; rfl
  rw [hcell, hc]
  exact update_beside f g k (u c)

theorem modify_beside_right (hf : f k = none) (u : Cell κ β → Cell κ β) : modify (beside f g) k u = beside f (modify g k u) := by
  funext i
  unfold modify beside
  by_cases hi : i = k
  · subst hi
    simp [hf]
  · simp [hi]

theorem setNext_beside_left (hf : f k ≠ none) (p : Option κ) : setNext (beside f g) k p = beside (setNext f k p) g :=
  modify_beside_left hf _

theorem setNext_beside_right (hf : f k = none) (p : Option κ) : setNext (beside f g) k p = beside f (setNext g k p) :=
  modify_beside_right hf _

theorem setPrev_beside_left (hf : f k ≠ none) (p : Option κ) : setPrev (beside f g) k p = beside (setPrev f k p) g :=
  modify_beside_left hf _

theorem setPrev_beside_right (hf : f k = none) (p : Option κ) : setPrev (beside f g) k p = beside f (setPrev g k p) :=
  modify_beside_right hf _

theorem free_beside_left (hg : g k = none) : free (beside f g) k = beside (free f k) g := by
  funext i
  unfold free beside
  by_cases hi : i = k
  · subst hi
    simp [hg]
  · simp [hi]

theorem free_beside_right (hf : f k = none) : free (beside f g) k = beside f (free g k) := by
  funext i
  unfold free beside
  by_cases hi : i = k
  · subst hi
    simp [hf]
  · simp [hi]

end Beside

/-! ## Segments -/

section Seg

variable {xs ys : List (κ × β)} {x : κ × β} {k : κ} {prev next : Option κ}

@[simp] theorem seg_nil : seg prev next ([] : List (κ × β)) = fun _ => none := rfl

theorem seg_of_not_mem (h : k ∉ keys xs) : seg prev next xs k = none := by
  induction xs generalizing prev with
  | nil => rfl
  | cons x rest ih =>
      rw [seg, update_of_ne (List.ne_of_not_mem_cons h)]
      exact ih (List.not_mem_of_not_mem_cons h)

theorem seg_cons_of_ne (hk : k ≠ x.1) : seg prev next (x :: xs) k = seg (some x.1) next xs k := update_of_ne hk _ _

/-- A segment is its parts beside each other. -/
theorem seg_append (prev next : Option κ) (xs ys : List (κ × β)) :
    seg prev next (xs ++ ys) = beside (seg prev ((first ys).or next) xs) (seg ((final xs).or prev) next ys) := by
  induction xs generalizing prev with
  | nil => rfl
  | cons x xs ih =>
      have hlast : (final (x :: xs)).or prev = (final xs).or (some x.1) := by
        rw [final_cons, Option.or_assoc]
        rfl
      rw [List.cons_append, seg, seg, ih, update_beside, first_append, Option.or_assoc, hlast]

/-- The cell of an item. -/
theorem seg_middle (h : x.1 ∉ keys xs) :
    seg prev next (xs ++ x :: ys) x.1 = some ⟨x.2, (first ys).or next, (final xs).or prev⟩ := by
  rw [seg_append, beside, seg_of_not_mem h, seg, update_self]
  rfl

theorem seg_mem (h : k ∈ keys xs) : seg prev next xs k ≠ none := by
  induction xs generalizing prev with
  | nil => cases h
  | cons x rest ih =>
      rw [seg]
      by_cases hk : k = x.1
      · subst hk
        rw [update_self]
        exact Option.some_ne_none _
      · rw [update_of_ne hk]
        exact ih ((List.mem_cons.mp h).resolve_left hk)

/-- The pointer from the last cell is set. -/
theorem setNext_seg (hnodup : (keys xs).Nodup) (hk : final xs = some k) (p : Option κ) :
    setNext (seg prev next xs) k p = seg prev p xs := by
  obtain ⟨before, x, rfl, rfl⟩ := final_mem hk
  have hnot : x.1 ∉ keys before := by
    rw [keys, List.map_append] at hnodup
    exact fun hmem => (List.disjoint_of_nodup_append hnodup) hmem List.mem_cons_self
  rw [seg_append, seg_append, setNext, modify_beside_right (seg_of_not_mem hnot)]
  unfold modify seg
  rw [update_self, update_idem]
  rfl

/-- The pointer from the first cell is set. -/
theorem setPrev_seg (hk : first xs = some k) (p : Option κ) : setPrev (seg prev next xs) k p = seg p next xs := by
  obtain ⟨x, rest, rfl, rfl⟩ := first_mem hk
  unfold setPrev modify seg
  rw [update_self, update_idem]
  rfl

/-- The body of a cell is changed. -/
theorem modify_body {b : β} (hk : k ∉ keys xs) (u : β → β) :
    modify (seg prev next (xs ++ (k, b) :: ys)) k (fun c => { c with body := u c.body }) = seg prev next (xs ++ (k, u b) :: ys) := by
  rw [seg_append, seg_append, modify_beside_right (seg_of_not_mem hk)]
  unfold modify seg
  rw [update_self, update_idem]
  rfl

theorem free_singleton : free (seg prev next [x]) x.1 = seg none none [] := by
  unfold free seg
  rw [update_idem]
  exact update_eq_self x.1 _

end Seg

/-! ## Cells are put in and taken out -/

section Link

variable {xs ys : List (κ × β)} {k a c : κ} {b : β} {prev next : Option κ}

theorem modify_comm (h : Heap κ β) {k l : κ} (hne : k ≠ l) (u v : Cell κ β → Cell κ β) :
    modify (modify h k u) l v = modify (modify h l v) k u := by
  unfold modify
  rw [update_of_ne hne.symm, update_of_ne hne, update_comm hne]

theorem setPrev_setNext_comm (h : Heap κ β) (k l : κ) (p q : Option κ) : setPrev (setNext h k p) l q = setNext (setPrev h l q) k p := by
  by_cases hne : k = l
  · subst hne
    unfold setPrev setNext modify
    rw [update_self, update_self, update_idem, update_idem, Option.map_map, Option.map_map]
    rfl
  · exact modify_comm h hne _ _

/-- A new cell stands beside the others. -/
theorem update_eq_beside (h : Heap κ β) (k : κ) (b : β) (next prev : Option κ) :
    update h k (some ⟨b, next, prev⟩) = beside (seg prev next [(k, b)]) h :=
  (update_beside (fun _ => none) h k ⟨b, next, prev⟩)

omit [DecidableEq κ] in
theorem beside_comm {f g : Heap κ β} (h : ∀ k, f k = none ∨ g k = none) : beside f g = beside g f := by
  funext k
  unfold beside
  rcases h k with hf | hg
  · rw [hf, Option.or_none]
    rfl
  · rw [hg, Option.or_none]
    rfl

theorem beside_seg_comm {p n p' n' : Option κ} (h : List.Disjoint (keys xs) (keys ys)) :
    beside (seg p n xs) (seg p' n' ys) = beside (seg p' n' ys) (seg p n xs) := by
  refine beside_comm fun k => ?_
  by_cases hk : k ∈ keys xs
  · exact .inr (seg_of_not_mem fun hy => h hk hy)
  · exact .inl (seg_of_not_mem hk)

theorem seg_cons (prev next : Option κ) (k : κ) (b : β) (xs : List (κ × β)) :
    seg prev next ((k, b) :: xs) = beside (seg prev ((first xs).or next) [(k, b)]) (seg (some k) next xs) :=
  seg_append prev next [(k, b)] xs

theorem seg_concat (prev next : Option κ) (k : κ) (b : β) (xs : List (κ × β)) :
    seg prev next (xs ++ [(k, b)]) = beside (seg prev (some k) xs) (seg ((final xs).or prev) next [(k, b)]) :=
  seg_append prev next xs [(k, b)]

theorem seg_single_ne (hne : a ≠ k) : seg prev next [(k, b)] a = none := seg_of_not_mem (by simpa using hne)

theorem seg_single_self : seg prev next [(k, b)] k ≠ none := seg_mem (by simp)

theorem setNext_single (p : Option κ) : setNext (seg prev next [(k, b)]) k p = seg prev p [(k, b)] := setNext_seg (by simp) rfl p

theorem setPrev_single (p : Option κ) : setPrev (seg prev next [(k, b)]) k p = seg p next [(k, b)] := setPrev_seg rfl p

theorem link_front (hk : k ∉ keys xs) (ha : first xs = some a) :
    setPrev (setNext (update (seg none next xs) k (some ⟨b, none, none⟩)) k (some a)) a (some k) = seg none next ((k, b) :: xs) := by
  have hne : a ≠ k := ne_of_mem_of_not_mem (mem_of_first ha) hk
  calc setPrev (setNext (update (seg none next xs) k (some ⟨b, none, none⟩)) k (some a)) a (some k)
      = setPrev (beside (seg none (some a) [(k, b)]) (seg none next xs)) a (some k) := by
        rw [update_eq_beside, setNext_beside_left seg_single_self, setNext_single]
    _ = beside (seg none (some a) [(k, b)]) (seg (some k) next xs) := by
        rw [setPrev_beside_right (seg_single_ne hne), setPrev_seg ha]
    _ = seg none next ((k, b) :: xs) := by
        rw [seg_cons none next k b xs, ha]
        rfl

theorem link_back (hk : k ∉ keys xs) (hnodup : (keys xs).Nodup) (ha : final xs = some a) :
    setNext (setPrev (update (seg prev none xs) k (some ⟨b, none, none⟩)) k (some a)) a (some k) = seg prev none (xs ++ [(k, b)]) := by
  have hne : a ≠ k := ne_of_mem_of_not_mem (mem_of_final ha) hk
  have hdisjoint : List.Disjoint (keys [(k, b)]) (keys xs) := by simpa using hk
  calc setNext (setPrev (update (seg prev none xs) k (some ⟨b, none, none⟩)) k (some a)) a (some k)
      = setNext (beside (seg (some a) none [(k, b)]) (seg prev none xs)) a (some k) := by
        rw [update_eq_beside, setPrev_beside_left seg_single_self, setPrev_single]
    _ = beside (seg (some a) none [(k, b)]) (seg prev (some k) xs) := by
        rw [setNext_beside_right (seg_single_ne hne), setNext_seg hnodup ha]
    _ = seg prev none (xs ++ [(k, b)]) := by
        rw [beside_seg_comm hdisjoint, seg_concat, ha]
        rfl

theorem link_between (hk : k ∉ keys (xs ++ ys)) (hnodup : (keys (xs ++ ys)).Nodup) (ha : final xs = some a) (hc : first ys = some c) :
    setPrev (setPrev (setNext (setNext (update (seg prev next (xs ++ ys)) k (some ⟨b, none, none⟩)) a (some k)) k (some c)) c (some k))
        k (some a) = seg prev next (xs ++ (k, b) :: ys) := by
  have hkeys : (keys xs ++ keys ys).Nodup := by simpa using hnodup
  obtain ⟨hxs, hys, hapart⟩ := List.nodup_append'.mp hkeys
  obtain ⟨hkx, hky⟩ : k ∉ keys xs ∧ k ∉ keys ys := by simpa using hk
  have hak : a ≠ k := ne_of_mem_of_not_mem (mem_of_final ha) hkx
  have hck : c ≠ k := ne_of_mem_of_not_mem (mem_of_first hc) hky
  have hcx : c ∉ keys xs := fun h => hapart h (mem_of_first hc)
  have hdisjoint : List.Disjoint (keys [(k, b)]) (keys xs) := by simpa using hkx
  calc setPrev (setPrev (setNext (setNext (update (seg prev next (xs ++ ys)) k (some ⟨b, none, none⟩)) a (some k)) k (some c)) c
          (some k)) k (some a)
      = setPrev (setPrev (setNext (beside (seg none none [(k, b)]) (beside (seg prev (some k) xs) (seg (some a) next ys))) k (some c)) c
          (some k)) k (some a) := by
        rw [update_eq_beside, setNext_beside_right (seg_single_ne hak), seg_append, setNext_beside_left (seg_mem (mem_of_final ha)),
          setNext_seg hxs ha, ha]
        rfl
    _ = setPrev (beside (seg none (some c) [(k, b)]) (beside (seg prev (some k) xs) (seg (some k) next ys))) k (some a) := by
        rw [setNext_beside_left seg_single_self, setNext_single, setPrev_beside_right (seg_single_ne hck),
          setPrev_beside_right (seg_of_not_mem hcx), setPrev_seg hc]
    _ = beside (seg (some a) (some c) [(k, b)]) (beside (seg prev (some k) xs) (seg (some k) next ys)) := by
        rw [setPrev_beside_left seg_single_self, setPrev_single]
    _ = seg prev next (xs ++ (k, b) :: ys) := by
        rw [← beside_assoc, beside_seg_comm hdisjoint, beside_assoc, seg_append prev next xs, seg_cons _ next k b ys, ha, hc]
        rfl

theorem unlink_front (hk : k ∉ keys ys) (hc : first ys = some c) :
    free (setPrev (seg prev next ((k, b) :: ys)) c none) k = seg none next ys := by
  have hne : c ≠ k := ne_of_mem_of_not_mem (mem_of_first hc) hk
  calc free (setPrev (seg prev next ((k, b) :: ys)) c none) k
      = free (beside (seg prev (some c) [(k, b)]) (seg none next ys)) k := by
        rw [seg_cons, setPrev_beside_right (seg_single_ne hne), setPrev_seg hc, hc]
        rfl
    _ = beside (seg none none []) (seg none next ys) := by
        rw [free_beside_left (seg_of_not_mem hk), free_singleton (x := (k, b))]
    _ = seg none next ys := rfl

theorem unlink_back (hk : k ∉ keys xs) (hnodup : (keys xs).Nodup) (ha : final xs = some a) :
    free (setNext (seg prev next (xs ++ [(k, b)])) a none) k = seg prev none xs := by
  calc free (setNext (seg prev next (xs ++ [(k, b)])) a none) k
      = free (beside (seg prev none xs) (seg (some a) next [(k, b)])) k := by
        rw [seg_concat, setNext_beside_left (seg_mem (mem_of_final ha)), setNext_seg hnodup ha, ha]
        rfl
    _ = beside (seg prev none xs) (seg none none []) := by
        rw [free_beside_right (seg_of_not_mem hk), free_singleton (x := (k, b))]
    _ = seg prev none xs := beside_comm fun _ => .inr rfl

theorem unlink_between (hnodup : (keys (xs ++ (k, b) :: ys)).Nodup) (ha : final xs = some a) (hc : first ys = some c) :
    free (setPrev (setNext (seg prev next (xs ++ (k, b) :: ys)) a (some c)) c (some a)) k = seg prev next (xs ++ ys) := by
  have hkeys : (keys xs ++ k :: keys ys).Nodup := by simpa using hnodup
  obtain ⟨hxs, hkys, hapart⟩ := List.nodup_append'.mp hkeys
  obtain ⟨hky, hys⟩ := List.nodup_cons.mp hkys
  have hkx : k ∉ keys xs := fun h => hapart h List.mem_cons_self
  have hck : c ≠ k := ne_of_mem_of_not_mem (mem_of_first hc) hky
  have hcx : c ∉ keys xs := fun h => hapart h (List.mem_cons_of_mem k (mem_of_first hc))
  calc free (setPrev (setNext (seg prev next (xs ++ (k, b) :: ys)) a (some c)) c (some a)) k
      = free (setPrev (beside (seg prev (some c) xs) (beside (seg (some a) (some c) [(k, b)]) (seg (some k) next ys))) c (some a)) k := by
        rw [seg_append, setNext_beside_left (seg_mem (mem_of_final ha)), setNext_seg hxs ha, seg_cons, ha, hc]
        rfl
    _ = free (beside (seg prev (some c) xs) (beside (seg (some a) (some c) [(k, b)]) (seg (some a) next ys))) k := by
        rw [setPrev_beside_right (seg_of_not_mem hcx), setPrev_beside_right (seg_single_ne hck), setPrev_seg hc]
    _ = beside (seg prev (some c) xs) (beside (seg none none []) (seg (some a) next ys)) := by
        rw [free_beside_right (seg_of_not_mem hkx), free_beside_left (seg_of_not_mem hky), free_singleton (x := (k, b))]
    _ = seg prev next (xs ++ ys) := by
        rw [seg_append, ha, hc]
        rfl

end Link

/-! ## Cells are linked in another order -/

section Relink

variable {xs : List (κ × β)} {x : κ × β} {h : Heap κ β}

/-- Each cell points to the next one, and that one back. -/
def relink (h : Heap κ β) : List κ → Heap κ β
  | a :: c :: rest => relink (setPrev (setNext h a (some c)) c (some a)) (c :: rest)
  | _ => h

@[simp] theorem relink_eq_none (h : Heap κ β) (ks : List κ) (k : κ) : relink h ks k = none ↔ h k = none := by
  induction h, ks using relink.induct with
  | case1 h a c rest ih =>
      rw [relink, ih, setPrev_eq_none, setNext_eq_none]
  | case2 h ks hks =>
      rw [relink]
      exact hks

theorem setNext_self {p : Option κ} (hbody : (h x.1).map Cell.body = some x.2) (hprev : (h x.1).map Cell.prev = some p) (q : Option κ) :
    setNext h x.1 q x.1 = some ⟨x.2, q, p⟩ := by
  obtain ⟨c, hc, rfl⟩ := Option.map_eq_some_iff.mp hprev
  rw [hc] at hbody
  unfold setNext modify
  rw [update_self, hc, ← Option.some.inj hbody]
  rfl

/-- The cells become a segment; only the pointer before it is that of before. -/
theorem relink_apply (hnodup : (keys (x :: xs)).Nodup) (hbody : ∀ y ∈ x :: xs, (h y.1).map Cell.body = some y.2) {p : Option κ}
    (hprev : (h x.1).map Cell.prev = some p) {last : κ} (hlast : final (x :: xs) = some last) (k : κ) :
    setNext (relink h (keys (x :: xs))) last none k = if k ∈ keys (x :: xs) then seg p none (x :: xs) k else h k := by
  induction xs generalizing x h p with
  | nil =>
      obtain rfl : x.1 = last := Option.some.inj hlast
      by_cases hk : k = x.1
      · subst hk
        have hself : x.1 ∈ keys [x] := List.mem_cons_self
        rw [if_pos hself, seg, update_self]
        exact setNext_self (hbody x List.mem_cons_self) hprev none
      · have hnot : k ∉ keys [x] := by simpa using hk
        rw [if_neg hnot]
        exact setNext_of_ne hk none
  | cons y ys ih =>
      obtain ⟨hx, hrest⟩ := List.nodup_cons.mp hnodup
      have hne : y.1 ≠ x.1 := fun heq => hx (heq ▸ List.mem_cons_self)
      have hlast' : final (y :: ys) = some last := (final_append_of_ne [x] (List.cons_ne_nil y ys)).symm.trans hlast
      have hbody' : ∀ z ∈ y :: ys, (setPrev (setNext h x.1 (some y.1)) y.1 (some x.1) z.1).map Cell.body = some z.2 := by
        intro z hz
        rw [body_setPrev, body_setNext]
        exact hbody z (List.mem_cons_of_mem x hz)
      have hprev' : (setPrev (setNext h x.1 (some y.1)) y.1 (some x.1) y.1).map Cell.prev = some (some x.1) := by
        obtain ⟨c, hc, -⟩ := Option.map_eq_some_iff.mp (hbody y (by simp))
        have hcell : setNext h x.1 (some y.1) y.1 = some c := (setNext_of_ne hne _).trans hc
        unfold setPrev modify
        rw [update_self, hcell]
        rfl
      have hstep : setNext (relink h (keys (x :: y :: ys))) last none k = _ := ih hrest hbody' hprev' hlast'
      rw [hstep]
      by_cases hmem : k ∈ keys (y :: ys)
      · have hkx : k ≠ x.1 := fun heq => hx (heq ▸ hmem)
        have hmem' : k ∈ keys (x :: y :: ys) := List.mem_cons_of_mem x.1 hmem
        rw [if_pos hmem, if_pos hmem', seg_cons_of_ne hkx]
      · have hky : k ≠ y.1 := fun heq => hmem (heq ▸ List.mem_cons_self)
        rw [if_neg hmem, setPrev_of_ne hky]
        by_cases hkx : k = x.1
        · subst hkx
          have hself : x.1 ∈ keys (x :: y :: ys) := List.mem_cons_self
          rw [if_pos hself, seg, update_self]
          exact setNext_self (hbody x List.mem_cons_self) hprev _
        · have hnot : k ∉ keys (x :: y :: ys) := fun hin => (List.mem_cons.mp hin).elim hkx hmem
          rw [if_neg hnot]
          exact setNext_of_ne hkx _

/-- All the cells, linked in the order of the items. -/
theorem relink_seg (hnodup : (keys (x :: xs)).Nodup) (hbody : ∀ y ∈ x :: xs, (h y.1).map Cell.body = some y.2)
    (honly : ∀ k, k ∉ keys (x :: xs) → h k = none) {last : κ} (hlast : final (x :: xs) = some last) :
    setNext (setPrev (relink h (keys (x :: xs))) x.1 none) last none = seg none none (x :: xs) := by
  obtain ⟨c, hc, -⟩ := Option.map_eq_some_iff.mp (hbody x List.mem_cons_self)
  have hprev : (h x.1).map Cell.prev = some c.prev := by rw [hc]; rfl
  have hcells : setNext (relink h (keys (x :: xs))) last none = seg c.prev none (x :: xs) := by
    funext k
    rw [relink_apply hnodup hbody hprev hlast]
    by_cases hk : k ∈ keys (x :: xs)
    · exact if_pos hk
    · rw [if_neg hk, honly k hk, seg_of_not_mem hk]
  rw [← setPrev_setNext_comm, hcells]
  exact setPrev_seg rfl none

end Relink

end DoublyLinked
