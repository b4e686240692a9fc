import Mathlib.Tactic

/-! Ranks by the time of the last use: one element is put to the top or to the bottom, and the others close up behind it. What holds
the elements that were used last is an end of the list of all uses, each taken where it is last. -/

namespace Recency

variable {ι : Type} {n : Nat} {r : ι → Nat} {m : ι}

/-- No two elements have the same rank, and all have one below `n`. -/
structure Ranking (n : Nat) (r : ι → Nat) : Prop where
  injective : Function.Injective r
  lt : ∀ i, r i < n

/-- `m` goes to the top. -/
def touch (n : Nat) (r : ι → Nat) (m i : ι) : Nat := if r m < r i then r i - 1 else if r i = r m then n - 1 else r i

/-- `m` goes to the bottom. -/
def retire (r : ι → Nat) (m i : ι) : Nat := if r i < r m then r i + 1 else if r i = r m then 0 else r i

@[simp] theorem touch_self : touch n r m m = n - 1 := by
  simp [touch]

@[simp] theorem retire_self : retire r m m = 0 := by
  simp [retire]

/-- What is at the top stays there. -/
theorem touch_top (hlt : ∀ i, r i < n) (hm : r m = n - 1) : touch n r m = r := by
  funext i
  have hi := hlt i
  rw [touch, if_neg (by omega)]
  split
  · next heq => rw [heq, hm]
  · rfl

theorem retire_bottom (hm : r m = 0) : retire r m = r := by
  funext i
  rw [retire, if_neg (by omega)]
  split
  · next heq => rw [heq, hm]
  · rfl

theorem touch_lt (hlt : ∀ i, r i < n) (i : ι) : touch n r m i < n := by
  have hi := hlt i
  unfold touch
  split
  · omega
  · split <;> omega

theorem retire_lt (hlt : ∀ i, r i < n) (i : ι) : retire r m i < n := by
  have hi := hlt i
  have hm := hlt m
  unfold retire
  split
  · omega
  · split <;> omega

namespace Ranking

theorem ne (h : Ranking n r) {i : ι} (hi : i ≠ m) : r i ≠ r m := fun heq => hi (h.injective heq)

theorem touch_of_ne (h : Ranking n r) {i : ι} (hi : i ≠ m) : touch n r m i = if r m < r i then r i - 1 else r i := by
  rw [touch, if_neg (h.ne hi)]

theorem retire_of_ne (h : Ranking n r) {i : ι} (hi : i ≠ m) : retire r m i = if r i < r m then r i + 1 else r i := by
  rw [retire, if_neg (h.ne hi)]

/-- The others keep their order. -/
theorem touch_lt_touch (h : Ranking n r) {i j : ι} (hi : i ≠ m) (hj : j ≠ m) : touch n r m i < touch n r m j ↔ r i < r j := by
  have hri := h.ne hi
  have hrj := h.ne hj
  rw [h.touch_of_ne hi, h.touch_of_ne hj]
  split <;> split <;> omega

theorem retire_lt_retire (h : Ranking n r) {i j : ι} (hi : i ≠ m) (hj : j ≠ m) : retire r m i < retire r m j ↔ r i < r j := by
  have hri := h.ne hi
  have hrj := h.ne hj
  rw [h.retire_of_ne hi, h.retire_of_ne hj]
  split <;> split <;> omega

theorem touch_lt_top (h : Ranking n r) {i : ι} (hi : i ≠ m) : touch n r m i < n - 1 := by
  have hri := h.ne hi
  have hlt := h.lt i
  have hm := h.lt m
  rw [h.touch_of_ne hi]
  split <;> omega

theorem retire_pos (h : Ranking n r) {i : ι} (hi : i ≠ m) : 0 < retire r m i := by
  have hri := h.ne hi
  rw [h.retire_of_ne hi]
  split <;> omega

/-- A rank that orders as another does is as injective. -/
theorem injective_of_lt {r' : ι → Nat} (h : ∀ i j, i ≠ j → r' i < r' j ∨ r' j < r' i) : Function.Injective r' := by
  intro i j heq
  by_contra hne
  have := h i j hne
  omega

theorem touch (h : Ranking n r) (m : ι) : Ranking n (touch n r m) where
  lt := touch_lt h.lt
  injective := by
    apply injective_of_lt
    intro i j hne
    by_cases hi : i = m
    · subst hi
      exact .inr (by simpa using h.touch_lt_top hne.symm)
    · by_cases hj : j = m
      · subst hj
        exact .inl (by simpa using h.touch_lt_top hi)
      · rw [h.touch_lt_touch hi hj, h.touch_lt_touch hj hi]
        exact lt_or_gt_of_ne fun heq => hne (h.injective heq)

theorem retire (h : Ranking n r) (m : ι) : Ranking n (retire r m) where
  lt := retire_lt h.lt
  injective := by
    apply injective_of_lt
    intro i j hne
    by_cases hi : i = m
    · subst hi
      exact .inl (by simpa using h.retire_pos hne.symm)
    · by_cases hj : j = m
      · subst hj
        exact .inr (by simpa using h.retire_pos hi)
      · rw [h.retire_lt_retire hi hj, h.retire_lt_retire hj hi]
        exact lt_or_gt_of_ne fun heq => hne (h.injective heq)

/-- As many elements as ranks: every rank is taken once. -/
theorem perm_iff {r : Fin n → Nat} : (List.ofFn r).Perm (List.range n) ↔ Ranking n r := by
  constructor
  · intro h
    have hnodup : (List.ofFn r).Nodup := h.nodup_iff.mpr List.nodup_range
    exact ⟨List.nodup_ofFn.mp hnodup, fun i => List.mem_range.mp (h.subset (List.mem_ofFn.mpr ⟨i, rfl⟩))⟩
  · intro h
    have hnodup : (List.ofFn r).Nodup := List.nodup_ofFn.mpr h.injective
    have hsub : List.ofFn r ⊆ List.range n := by
      intro x hx
      obtain ⟨i, rfl⟩ := List.mem_ofFn.mp hx
      exact List.mem_range.mpr (h.lt i)
    exact (List.subperm_of_subset hnodup hsub).perm_of_length_le (by simp)

end Ranking

/-- A search for the element with the highest rank among those with a property, all of rank 0 or less left out. -/
theorem foldl_best {w : Nat} (p : ι → Prop) [DecidablePred p] (key : ι → BitVec w) (l : List ι) :
    let best := l.foldl (fun (b : Option ι × BitVec w) i => if b.2 < key i ∧ p i then (some i, key i) else b) (none, 0)
    match best.1 with
    | none => best.2 = 0 ∧ ∀ i ∈ l, p i → key i = 0
    | some i => best.2 = key i ∧ p i ∧ 0 < key i ∧ ∀ j ∈ l, p j → key j ≤ key i := by
  induction l using List.reverseRecOn with
  | nil => simp
  | append_singleton l i ih =>
      simp only [List.foldl_append, List.foldl_cons, List.foldl_nil, List.mem_append, List.mem_singleton]
      generalize l.foldl (fun (b : Option ι × BitVec w) i => if b.2 < key i ∧ p i then (some i, key i) else b) (none, 0) = b at ih ⊢
      obtain ⟨found, rank⟩ := b
      cases found with
      | none =>
          obtain ⟨hrank, hall⟩ := ih
          simp only at hrank
          subst hrank
          by_cases hi : 0 < key i ∧ p i
          · rw [if_pos hi]
            refine ⟨rfl, hi.2, hi.1, ?_⟩
            rintro j (hj | rfl) hp
            · rw [hall j hj hp]
              exact BitVec.le_of_lt hi.1
            · exact BitVec.le_refl _
          · rw [if_neg hi]
            refine ⟨rfl, ?_⟩
            rintro j (hj | rfl) hp
            · exact hall j hj hp
            · by_contra hne
              exact hi ⟨(BitVec.pos_iff_ne_zero _).mpr hne, hp⟩
      | some k =>
          obtain ⟨hrank, hp, hpos, hall⟩ := ih
          simp only at hrank
          subst hrank
          by_cases hi : key k < key i ∧ p i
          · rw [if_pos hi]
            refine ⟨rfl, hi.2, BitVec.lt_trans hpos hi.1, ?_⟩
            rintro j (hj | rfl) hpj
            · exact BitVec.le_trans (hall j hj hpj) (BitVec.le_of_lt hi.1)
            · exact BitVec.le_refl _
          · rw [if_neg hi]
            refine ⟨rfl, hp, hpos, ?_⟩
            rintro j (hj | rfl) hpj
            · exact hall j hj hpj
            · by_contra hlt
              exact hi ⟨BitVec.not_le.mp hlt, hpj⟩

/-! ## The order of the last uses

`uses.dedup` has what was used in the order of the last uses. A store that drops what was used longest ago holds an
end of it. -/

section LastUses

variable [DecidableEq ι] [BEq ι] [LawfulBEq ι] {uses held : List ι} {a : ι}

theorem dedup_concat (uses : List ι) (a : ι) : (uses ++ [a]).dedup = uses.dedup.erase a ++ [a] := by
  induction uses with
  | nil => rfl
  | cons b uses ih =>
      rw [List.cons_append]
      by_cases hb : b ∈ uses
      · rw [List.dedup_cons_of_mem (List.mem_append_left _ hb), List.dedup_cons_of_mem hb, ih]
      · rw [List.dedup_cons_of_notMem hb]
        by_cases hab : b = a
        · subst hab
          have hnew : b ∉ uses.dedup := fun h => hb (List.mem_dedup.mp h)
          rw [List.dedup_cons_of_mem (by simp), ih, List.erase_cons_head, List.erase_of_not_mem hnew]
        · have hnew : b ∉ uses ++ [a] := by simp [hb, hab]
          rw [List.dedup_cons_of_notMem hnew, ih, List.erase_cons_tail (by simpa using hab), List.cons_append]

/-- Something held is used again. -/
theorem suffix_use (h : held <:+ uses.dedup) (ha : a ∈ held) : held.erase a ++ [a] <:+ (uses ++ [a]).dedup := by
  obtain ⟨older, hall⟩ := h
  have hnodup : (older ++ held).Nodup := hall ▸ uses.nodup_dedup
  have hold : a ∉ older := fun hmem => (List.nodup_append.mp hnodup).2.2 a hmem a ha rfl
  refine ⟨older, ?_⟩
  rw [dedup_concat, ← hall, List.erase_append_right _ hold, List.append_assoc]

/-- Something new is put behind the rest. -/
theorem suffix_store (h : held <:+ uses.dedup) (ha : a ∉ held) : held ++ [a] <:+ (uses ++ [a]).dedup := by
  obtain ⟨older, hall⟩ := h
  by_cases hold : a ∈ older
  · refine ⟨older.erase a, ?_⟩
    rw [dedup_concat, ← hall, List.erase_append_left _ hold, List.append_assoc]
  · refine ⟨older, ?_⟩
    have hnew : a ∉ older ++ held := by simp [hold, ha]
    rw [dedup_concat, ← hall, List.erase_of_not_mem hnew, List.append_assoc]

/-- All else that is held was used after the last use of the first. -/
theorem least_recent (h : a :: held <:+ uses.dedup) :
    ∃ before after, uses = before ++ a :: after ∧ a ∉ after ∧ ∀ b ∈ held, b ∈ after := by
  induction uses with
  | nil => simp at h
  | cons b uses ih =>
      by_cases hb : b ∈ uses
      · rw [List.dedup_cons_of_mem hb] at h
        obtain ⟨before, after, rfl, hafter, hheld⟩ := ih h
        exact ⟨b :: before, after, rfl, hafter, hheld⟩
      · rw [List.dedup_cons_of_notMem hb, List.suffix_cons_iff] at h
        obtain h | h := h
        · obtain ⟨rfl, rfl⟩ := List.cons.inj h
          exact ⟨[], uses, rfl, hb, fun b hmem => List.mem_dedup.mp hmem⟩
        · obtain ⟨before, after, rfl, hafter, hheld⟩ := ih h
          exact ⟨b :: before, after, rfl, hafter, hheld⟩

end LastUses

end Recency
