import BeagleCache.TreeInit
import BeagleCache.Resolve

/-! The tree `InitChunkTreeInfo` returns, whatever the lengths are. Each level is as long as the root, and
`MakeTree` gives each chunk the run of chunks of the next level whose lengths add up to its own. Chunks may be
empty, so nothing is said of offsets. -/

namespace BeagleCache

open Tiling Run

/-- The bytes of the chunks of `l` with `P`. -/
def bytesOf (names : NameTable) (P : Nat → Prop) [DecidablePred P] (l : List Nat) : Nat :=
  ((l.filter P).map (lenOf names)).sum

/-- Each chunk of `lower` has its parent in `upper`, in order, and a chunk of `upper` is as long as its children. -/
structure Below (names : NameTable) (upper lower : MRCPerLevelInfo) : Prop where
  parented : ∀ k ∈ lower.range, ∃ p ∈ upper.range, (names k).parentIdx = some p
  mono : ∀ k ∈ lower.range, ∀ k' ∈ lower.range, k ≤ k' → parentOf names k ≤ parentOf names k'
  sums : ∀ p ∈ upper.range, bytesOf names (fun k => parentOf names k = p) lower.range = lenOf names p

/-- The entries of a level. -/
def ChunkTreeInfo.level (t : ChunkTreeInfo) (i : Nat) : List Nat := (t.perLevelInfo.getD i default).range

theorem ChunkTreeInfo.nodup_level (t : ChunkTreeInfo) (i : Nat) : (t.level i).Nodup := List.nodup_range'

/-- A chunk tree as a lookup finds it. -/
structure ReceivedTree (cfg : Config) (t : ChunkTreeInfo) : Prop where
  names_le : t.numNames ≤ cfg.maxNames
  levels_eq : t.numLevels = t.perLevelInfo.length
  levels_le : t.numLevels ≤ cfg.maxLevel
  root : t.perLevelInfo.getD 0 default = ⟨1, 0⟩
  first_succ : ∀ i, i + 1 < t.numLevels → (t.perLevelInfo.getD (i + 1) default).firstIndex =
    (t.perLevelInfo.getD i default).firstIndex + (t.perLevelInfo.getD i default).numNames
  bounds : ∀ i, i < t.numLevels →
    (t.perLevelInfo.getD i default).firstIndex + (t.perLevelInfo.getD i default).numNames ≤ t.numNames
  level_eq : ∀ i, i < t.numLevels → ∀ k ∈ t.level i, (t.pNames k).level = i
  below : ∀ i, i + 1 < t.numLevels → Below t.pNames (t.perLevelInfo.getD i default) (t.perLevelInfo.getD (i + 1) default)
  root_pos : 0 < lenOf t.pNames 0

section Bytes

variable {names names' : NameTable} {P Q : Nat → Prop} [DecidablePred P] [DecidablePred Q] {l : List Nat}

@[simp] theorem bytesOf_nil : bytesOf names P [] = 0 := rfl

theorem bytesOf_cons {k : Nat} :
    bytesOf names P (k :: l) = (if P k then lenOf names k else 0) + bytesOf names P l := by
  unfold bytesOf
  by_cases hk : P k
  · rw [List.filter_cons_of_pos (by simpa using hk), if_pos hk, List.map_cons, List.sum_cons]
  · rw [List.filter_cons_of_neg (by simpa using hk), if_neg hk, Nat.zero_add]

theorem bytesOf_append {l' : List Nat} : bytesOf names P (l ++ l') = bytesOf names P l + bytesOf names P l' := by
  unfold bytesOf
  rw [List.filter_append, List.map_append, List.sum_append]

theorem bytesOf_congr (hlen : ∀ k ∈ l, lenOf names' k = lenOf names k) (hP : ∀ k ∈ l, P k ↔ Q k) :
    bytesOf names' P l = bytesOf names Q l := by
  induction l with
  | nil => rfl
  | cons k l ih =>
      have hk := hP k List.mem_cons_self
      rw [bytesOf_cons, bytesOf_cons, hlen k List.mem_cons_self,
        ih (fun j hj => hlen j (List.mem_cons_of_mem k hj)) (fun j hj => hP j (List.mem_cons_of_mem k hj))]
      simp only [hk]

theorem bytesOf_all (h : ∀ k ∈ l, P k) : bytesOf names P l = (l.map (lenOf names)).sum := by
  unfold bytesOf
  rw [List.filter_eq_self.mpr (by simpa using h)]

theorem bytesOf_none (h : ∀ k ∈ l, ¬ P k) : bytesOf names P l = 0 := by
  unfold bytesOf
  rw [List.filter_eq_nil_iff.mpr (by simpa using h)]
  rfl

theorem bytesOf_perm {l' : List Nat} (h : l.Perm l') : bytesOf names P l = bytesOf names P l' :=
  ((h.filter _).map _).sum_eq

theorem bytesOf_le (h : ∀ k ∈ l, P k → Q k) : bytesOf names P l ≤ bytesOf names Q l := by
  induction l with
  | nil => exact le_refl _
  | cons k l ih =>
      obtain ⟨hk, hl⟩ := List.forall_mem_cons.mp h
      have := ih hl
      rw [bytesOf_cons, bytesOf_cons]
      by_cases hP : P k
      · rw [if_pos hP, if_pos (hk hP)]
        omega
      · rw [if_neg hP]
        omega

/-- No chunk of positive length has the property when the bytes are none. -/
theorem bytesOf_eq_zero : bytesOf names P l = 0 ↔ ∀ k ∈ l, P k → lenOf names k = 0 := by
  induction l with
  | nil => simp
  | cons k l ih =>
      rw [bytesOf_cons, Nat.add_eq_zero_iff, ih, List.forall_mem_cons]
      by_cases hk : P k <;> simp [hk]

theorem bytesOf_of_filter : bytesOf names P (l.filter Q) = bytesOf names (fun k => P k ∧ Q k) l := by
  unfold bytesOf
  rw [List.filter_filter]
  simp

theorem bytesOf_filter (names : NameTable) (P Q : Nat → Prop) [DecidablePred P] [DecidablePred Q] (l : List Nat) :
    bytesOf names P l = bytesOf names (fun k => P k ∧ Q k) l + bytesOf names P (l.filter fun k => ¬ Q k) := by
  induction l with
  | nil => rfl
  | cons k l ih =>
      rw [bytesOf_cons, bytesOf_cons, ih]
      by_cases hQ : Q k
      · rw [List.filter_cons_of_neg (by simpa using hQ)]
        by_cases hP : P k
        · simp [hP, hQ]
          omega
        · simp [hP, hQ]
      · rw [List.filter_cons_of_pos (by simpa using hQ), bytesOf_cons]
        by_cases hP : P k
        · simp [hP, hQ]
          omega
        · simp [hP, hQ]

/-- Children summed parent by parent. -/
theorem bytesOf_fiber {upper lower : List Nat} {f : Nat → Nat} (hupper : upper.Nodup) (hf : ∀ k ∈ lower, f k ∈ upper)
    (hsums : ∀ p ∈ upper, bytesOf names (fun k => f k = p) lower = lenOf names p) :
    bytesOf names (fun k => P (f k)) lower = bytesOf names P upper := by
  induction upper generalizing lower with
  | nil =>
      have hlower : lower = [] := List.eq_nil_iff_forall_not_mem.mpr fun k hk => List.not_mem_nil (hf k hk)
      subst hlower
      rfl
  | cons p upper ih =>
      obtain ⟨hp, hnodup⟩ := List.nodup_cons.mp hupper
      have hrest : bytesOf names (fun k => P (f k)) (lower.filter fun k => ¬ f k = p) = bytesOf names P upper := by
        refine ih hnodup ?_ ?_
        · intro k hk
          obtain ⟨hmem, hne⟩ := List.mem_filter.mp hk
          exact (List.mem_cons.mp (hf k hmem)).resolve_left (by simpa using hne)
        · intro q hq
          have hne : ∀ k ∈ lower, ¬ (f k = q ∧ f k = p) := by
            rintro k - ⟨rfl, rfl⟩
            exact hp hq
          have hsplit := bytesOf_filter names (fun k => f k = q) (fun k => f k = p) lower
          rw [bytesOf_none hne, Nat.zero_add] at hsplit
          rw [← hsplit, hsums q (List.mem_cons_of_mem p hq)]
      have hhead : bytesOf names (fun k => P (f k) ∧ f k = p) lower = if P p then lenOf names p else 0 := by
        split
        case isTrue hP =>
          rw [← hsums p List.mem_cons_self]
          refine bytesOf_congr (fun _ _ => rfl) fun k _ => ⟨fun hk => hk.2, fun hk => ⟨?_, hk⟩⟩
          rw [hk]
          exact hP
        case isFalse hP =>
          refine bytesOf_none fun k _ hk => hP ?_
          rw [← hk.2]
          exact hk.1
      rw [bytesOf_filter names (fun k => P (f k)) (fun k => f k = p), hhead, hrest, bytesOf_cons]

end Bytes

/-! ## What `InitChunkTreeInfo` returns -/

/-- The bytes of the entries from `a` to `b`. -/
def span (names : NameTable) (a b : Nat) : Nat := ((List.range' a (b - a)).map (lenOf names)).sum

section Span

variable {names names' : NameTable} {a b c : Nat}

theorem span_self (names : NameTable) (a : Nat) : span names a a = 0 := by
  rw [span, Nat.sub_self]
  rfl

theorem span_add (names : NameTable) (hab : a ≤ b) (hbc : b ≤ c) : span names a b + span names b c = span names a c := by
  have hsplit : List.range' a (c - a) = List.range' a (b - a) ++ List.range' b (c - b) := by
    rw [show c - a = (b - a) + (c - b) by omega, ← List.range'_append_1, show a + (b - a) = b by omega]
  rw [span, span, span, hsplit, List.map_append, List.sum_append]

theorem span_succ (names : NameTable) (a : Nat) : span names a (a + 1) = lenOf names a := by
  rw [span, show a + 1 - a = 1 by omega]
  simp

theorem span_mono (names : NameTable) (hab : a ≤ b) (hbc : b ≤ c) : span names a b ≤ span names a c := by
  rw [← span_add names hab hbc]
  exact Nat.le_add_right _ _

theorem span_congr (h : lenOf names' = lenOf names) : span names' a b = span names a b := by
  rw [span, span, h]

end Span

/-- The entries from `a` to `b` are the first that are `tot` bytes long. -/
structure Fills (names : NameTable) (tot a b : Nat) : Prop where
  lt : a < b
  span_eq : span names a b = tot
  first : ∀ x, a < x → x < b → span names a x ≠ tot

section Init

variable {cfg : Config} {names names' : NameTable} {n tot : Nat}

theorem Fills.unique {a b b' : Nat} (h : Fills names tot a b) (h' : Fills names tot a b') : b = b' := by
  rcases Nat.lt_trichotomy b b' with hlt | heq | hgt
  · exact absurd h.span_eq (h'.first b h.lt hlt)
  · exact heq
  · exact absurd h'.span_eq (h.first b' h'.lt hgt)

theorem Fills.single (names : NameTable) (a : Nat) : Fills names (lenOf names a) a (a + 1) :=
  ⟨Nat.lt_succ_self a, span_succ names a, fun x hax hxa => by omega⟩

/-- Behind entries of `x` bytes, others that complete a total of more. -/
theorem Fills.append {a b c x y : Nat} (h : Fills names x a b) (h' : Fills names y b c) (hy : 0 < y) :
    Fills names (x + y) a c := by
  have hab := h.lt
  have hbc := h'.lt
  refine ⟨by omega, ?_, ?_⟩
  · rw [← span_add _ (show a ≤ b by omega) (by omega), h.span_eq, h'.span_eq]
  · intro z haz hzc heq
    rcases Nat.lt_or_ge b z with hz | hz
    · rw [← span_add _ (show a ≤ b by omega) (show b ≤ z by omega), h.span_eq] at heq
      exact h'.first z hz hzc (by omega)
    · have hmono := span_mono names (show a ≤ z by omega) hz
      rw [heq, h.span_eq] at hmono
      omega

theorem Fills.congr {a b : Nat} (hlen : lenOf names' = lenOf names) (h : Fills names' tot a b) : Fills names tot a b := by
  refine ⟨h.lt, ?_, ?_⟩
  · rw [← h.span_eq, span_congr hlen]
  · intro x hax hxb
    rw [← span_congr hlen]
    exact h.first x hax hxb

/-- `countLevel` counts up to the first entry that completes the level. -/
theorem countLevel_fills {fuel i o c : Nat} (h : countLevel n tot (lenOf names) fuel i o = .ok c) (ho : o ≤ tot) :
    Fills names (tot - o) i (i + c) := by
  induction fuel generalizing i o c with
  | zero => cases h
  | succ fuel ih =>
      rw [countLevel] at h
      obtain ⟨_, -, h⟩ := bind_eq_ok.mp h
      split at h
      case isTrue hend =>
        cases h
        refine ⟨by omega, by rw [span_succ]; omega, fun x hix hxi => by omega⟩
      case isFalse hne =>
        obtain ⟨c', hc', hret⟩ := bind_eq_ok.mp h
        cases hret
        have hsum := (countLevel_sum hc').2.2
        have hrest := ih hc' (by omega)
        rw [show i + 1 + c' = i + (c' + 1) by omega] at hrest
        rw [show tot - o = lenOf names i + (tot - (o + lenOf names i)) by omega]
        exact (Fills.single names i).append hrest (by omega)

/-- The inner loop of `MakeTree` gives the parent to the first run of entries that is as long. -/
theorem adoptChildren_fills {p e fuel c last : Nat} {r : NameTable × Nat × Nat}
    (h : adoptChildren n p e fuel names c last = .ok r) (hlast : last ≤ e) :
    ∃ b, r = (setParents names p c (b - c), b, e) ∧ Fills names (e - last) c b := by
  induction fuel generalizing names c last with
  | zero => cases h
  | succ fuel ih =>
      rw [adoptChildren] at h
      obtain ⟨_, -, h⟩ := bind_eq_ok.mp h
      simp only [update_eq_setParents] at h
      have hlen : (names c).length = lenOf names c := rfl
      rw [hlen] at h
      split at h
      case isTrue hend =>
        cases h
        refine ⟨c + 1, ?_, by omega, by rw [span_succ]; omega, fun x hix hxi => by omega⟩
        rw [hend, Nat.add_sub_cancel_left]
      case isFalse hne =>
        obtain ⟨m, -, hsum⟩ := adoptChildren_sum h
        obtain ⟨b, rfl, hfills⟩ := ih h (by omega)
        have hcb := hfills.lt
        refine ⟨b, ?_, ?_⟩
        · rw [setParents_succ, show b - (c + 1) + 1 = b - c by omega]
        · rw [show e - last = lenOf names c + (e - (last + lenOf names c)) by omega]
          exact (Fills.single names c).append (hfills.congr (lenOf_setParents names p c 1)) (by omega)

/-- The entries from `c` to `b` got parents among the `m` entries from `p` on, each as long as its children. -/
structure Adopted (names names' : NameTable) (p m c b : Nat) : Prop where
  le : c + m ≤ b
  same : SameButParents names names'
  frame : ∀ k, ¬ (c ≤ k ∧ k < b) → names' k = names k
  parented : ∀ k, c ≤ k → k < b → ∃ q, p ≤ q ∧ q < p + m ∧ (names' k).parentIdx = some q
  mono : ∀ k k', c ≤ k → k ≤ k' → k' < b → parentOf names' k ≤ parentOf names' k'
  sums : ∀ q, p ≤ q → q < p + m → bytesOf names' (fun k => parentOf names' k = q) (List.range' c (b - c)) = lenOf names q
  span_eq : span names c b = span names p (p + m)

theorem sameButParents_setParents (names : NameTable) (p c m : Nat) : SameButParents names (setParents names p c m) := by
  intro k
  simp only [setParents]
  split <;> rfl

theorem setParents_parentIdx {p c m k : Nat} (hck : c ≤ k) (hkm : k < c + m) :
    (setParents names p c m k).parentIdx = some p := by
  rw [setParents, if_pos ⟨hck, hkm⟩]

theorem parentOf_eq {k q : Nat} (h : (names k).parentIdx = some q) : parentOf names k = q := by
  rw [parentOf, h, Option.getD_some]

/-- One more parent in front. -/
theorem Adopted.cons {p m c b₁ b : Nat} (hfills : Fills names (lenOf names p) c b₁)
    (h : Adopted (setParents names p c (b₁ - c)) names' (p + 1) m b₁ b) : Adopted names names' p (m + 1) c b := by
  have hcb := hfills.lt
  have hle := h.le
  have hsame := (sameButParents_setParents names p c (b₁ - c)).trans h.same
  have hhead : ∀ k, c ≤ k → k < b₁ → (names' k).parentIdx = some p := by
    intro k hck hkb
    rw [h.frame k (by omega)]
    exact setParents_parentIdx hck (by omega)
  have hparented : ∀ k, c ≤ k → k < b → ∃ q, p ≤ q ∧ q < p + (m + 1) ∧ (names' k).parentIdx = some q := by
    intro k hck hkb
    rcases Nat.lt_or_ge k b₁ with hk | hk
    · exact ⟨p, by omega, by omega, hhead k hck hk⟩
    · obtain ⟨q, hpq, hqm, hq⟩ := h.parented k hk hkb
      exact ⟨q, by omega, by omega, hq⟩
  have hsplit : List.range' c (b - c) = List.range' c (b₁ - c) ++ List.range' b₁ (b - b₁) := by
    rw [show b - c = (b₁ - c) + (b - b₁) by omega, ← List.range'_append_1, show c + (b₁ - c) = b₁ by omega]
  refine ⟨by omega, hsame, ?_, hparented, ?_, ?_, ?_⟩
  · intro k hk
    rw [h.frame k (by omega), setParents, if_neg (by omega)]
  · intro k k' hck hkk hkb
    rcases Nat.lt_or_ge k b₁ with hk | hk
    · obtain ⟨q, hpq, -, hq⟩ := hparented k' (by omega) hkb
      rw [parentOf_eq (hhead k hck hk), parentOf_eq hq]
      exact hpq
    · exact h.mono k k' hk hkk hkb
  · intro q hpq hqm
    rw [hsplit, bytesOf_append]
    rcases Nat.eq_or_lt_of_le hpq with rfl | hlt
    · rw [bytesOf_all, bytesOf_none, Nat.add_zero, hsame.lenOf_eq]
      · exact hfills.span_eq
      · intro k hk
        rw [List.mem_range'_1] at hk
        obtain ⟨q, hpq, -, hq⟩ := h.parented k hk.1 (by omega)
        rw [parentOf_eq hq]
        omega
      · intro k hk
        rw [List.mem_range'_1] at hk
        exact parentOf_eq (hhead k hk.1 (by omega))
    · rw [h.sums q (by omega) (by omega), lenOf_setParents, bytesOf_none, Nat.zero_add]
      intro k hk
      rw [List.mem_range'_1] at hk
      rw [parentOf_eq (hhead k hk.1 (by omega))]
      omega
  · have hrest := h.span_eq
    rw [span_congr (lenOf_setParents ..), span_congr (lenOf_setParents ..), show p + 1 + m = p + (m + 1) by omega] at hrest
    rw [← span_add _ (show c ≤ b₁ by omega) (by omega), hfills.span_eq, hrest, ← span_add _ (show p ≤ p + 1 by omega) (by omega),
      span_succ]

/-- The loop of `MakeTree` over a level. When the last parent is not empty it stops at the first entry that
completes the next level. -/
theorem makeLevel_adopted {m p c s : Nat} (h : makeLevel n m names p c s s = .ok names') :
    ∃ b, Adopted names names' p m c b ∧ (m = 0 → b = c) ∧
      (0 < m → 0 < lenOf names (p + m - 1) → Fills names (span names p (p + m)) c b) := by
  induction m generalizing names p c s with
  | zero =>
      cases h
      refine ⟨c, ⟨le_refl c, fun _ => rfl, fun _ _ => rfl, ?_, ?_, ?_, ?_⟩, fun _ => rfl, fun hzero => by omega⟩
      · intro k _ _
        omega
      · intro k k' _ _ _
        omega
      · intro q _ _
        omega
      · rw [Nat.add_zero, span_self, span_self]
  | succ m ih =>
      rw [makeLevel] at h
      obtain ⟨_, -, h⟩ := bind_eq_ok.mp h
      obtain ⟨r, hr, h⟩ := bind_eq_ok.mp h
      obtain ⟨b₁, rfl, hfills⟩ := adoptChildren_fills hr (Nat.le_add_right _ _)
      rw [Nat.add_sub_cancel_left] at hfills
      obtain ⟨b, hadopted, hnone, hrest⟩ := ih h
      refine ⟨b, hadopted.cons hfills, fun hzero => by omega, ?_⟩
      intro _ hlast
      have htotal : span names p (p + (m + 1)) = lenOf names p + span names (p + 1) (p + 1 + m) := by
        rw [← span_add _ (show p ≤ p + 1 by omega) (by omega), span_succ, show p + 1 + m = p + (m + 1) by omega]
      rw [htotal]
      rcases Nat.eq_zero_or_pos m with hzero | hm
      · rw [hnone hzero, hzero, Nat.add_zero, span_self, Nat.add_zero]
        exact hfills
      · rw [show p + (m + 1) - 1 = p + 1 + m - 1 by omega] at hlast
        rw [lenOf_setParents, span_congr (lenOf_setParents ..)] at hrest
        refine hfills.append ((hrest hm hlast).congr (lenOf_setParents ..)) ?_
        -- the last of the other parents is not empty
        have hmono := span_mono names (show p + 1 ≤ p + 1 + m - 1 by omega) (show p + 1 + m - 1 ≤ p + 1 + m by omega)
        have hsplit := span_add names (show p + 1 ≤ p + 1 + m - 1 by omega) (show p + 1 + m - 1 ≤ p + 1 + m by omega)
        have hone := span_succ names (p + 1 + m - 1)
        rw [show p + 1 + m - 1 + 1 = p + 1 + m by omega] at hone
        omega

theorem Fills.last_pos {a b : Nat} (h : Fills names tot a b) (htot : 0 < tot) : 0 < lenOf names (b - 1) := by
  have hlt := h.lt
  have hsplit := span_add names (show a ≤ b - 1 by omega) (show b - 1 ≤ b by omega)
  have hone := span_succ names (b - 1)
  rw [show b - 1 + 1 = b by omega] at hone
  rw [h.span_eq, hone] at hsplit
  by_contra hzero
  rcases Nat.lt_or_ge a (b - 1) with hab | hab
  · exact h.first (b - 1) hab (by omega) (by omega)
  · rw [show b - 1 = a by omega, span_self] at hsplit
    rw [show b - 1 = a by omega] at hzero
    omega

/-- The bounds of a level. -/
def MRCPerLevelInfo.Fills (names : NameTable) (tot : Nat) (info : MRCPerLevelInfo) : Prop :=
  BeagleCache.Fills names tot info.firstIndex (info.firstIndex + info.numNames)

theorem countLevels_fills {fuel i : Nat} {levels : List MRCPerLevelInfo} (h : countLevels n tot (lenOf names) fuel i = .ok levels) :
    ∀ a ∈ levels, a.Fills names tot := by
  induction fuel generalizing i levels with
  | zero =>
      cases h
      simp
  | succ fuel ih =>
      rw [countLevels] at h
      obtain ⟨c, hc, h⟩ := bind_eq_ok.mp h
      have hfills := countLevel_fills hc (Nat.zero_le tot)
      split at h
      case isTrue =>
        cases h
        intro a ha
        rw [List.mem_singleton.mp ha]
        exact hfills
      case isFalse =>
        obtain ⟨rest, hrest, hret⟩ := bind_eq_ok.mp h
        cases hret
        intro a ha
        rcases List.mem_cons.mp ha with rfl | hmem
        · exact hfills
        · exact ih hrest a hmem

theorem MRCPerLevelInfo.range_eq (info : MRCPerLevelInfo) :
    info.range = List.range' info.firstIndex (info.firstIndex + info.numNames - info.firstIndex) := by
  rw [Nat.add_sub_cancel_left]
  rfl

theorem Adopted.below {upper lower : MRCPerLevelInfo} {b : Nat} (hb : b = lower.firstIndex + lower.numNames)
    (h : Adopted names names' upper.firstIndex upper.numNames lower.firstIndex b) : Below names' upper lower := by
  subst hb
  refine ⟨?_, ?_, ?_⟩
  · intro k hk
    rw [MRCPerLevelInfo.mem_range] at hk
    obtain ⟨q, hpq, hqm, hq⟩ := h.parented k hk.1 hk.2
    exact ⟨q, MRCPerLevelInfo.mem_range.mpr ⟨hpq, hqm⟩, hq⟩
  · intro k hk k' hk' hle
    rw [MRCPerLevelInfo.mem_range] at hk hk'
    exact h.mono k k' hk.1 hle hk'.2
  · intro q hq
    rw [MRCPerLevelInfo.mem_range] at hq
    rw [MRCPerLevelInfo.range_eq, h.sums q hq.1 hq.2, h.same.lenOf_eq]

/-- Only the entries of the lower level matter, and the lengths of the upper one. -/
theorem Below.congr {upper lower : MRCPerLevelInfo} (h : Below names upper lower) (hlen : lenOf names' = lenOf names)
    (hlower : ∀ k ∈ lower.range, (names' k).parentIdx = (names k).parentIdx) : Below names' upper lower := by
  have hparent : ∀ k ∈ lower.range, parentOf names' k = parentOf names k := by
    intro k hk
    rw [parentOf, parentOf, hlower k hk]
  refine ⟨?_, ?_, ?_⟩
  · intro k hk
    rw [hlower k hk]
    exact h.parented k hk
  · intro k hk k' hk' hle
    rw [hparent k hk, hparent k' hk']
    exact h.mono k hk k' hk' hle
  · intro p hp
    rw [hlen, ← h.sums p hp]
    exact bytesOf_congr (fun k _ => congrFun hlen k) fun k hk => by rw [hparent k hk]

/-- `MakeTree` leaves each level below the one above. -/
theorem makeTree_below {levels : List MRCPerLevelInfo} (htot : 0 < tot)
    (hfirst : levels.IsChain fun upper lower => lower.firstIndex = upper.firstIndex + upper.numNames)
    (hfills : ∀ a ∈ levels, a.Fills names tot) (h : makeTree n levels names = .ok names') :
    levels.IsChain (Below names') ∧ SameButParents names names' ∧
      ∀ a ∈ levels.head?, ∀ k, k < a.firstIndex + a.numNames → names' k = names k := by
  induction levels generalizing names with
  | nil =>
      cases h
      exact ⟨List.IsChain.nil, fun _ => rfl, by simp⟩
  | cons upper rest ih =>
      cases rest with
      | nil =>
          cases h
          exact ⟨List.IsChain.singleton _, fun _ => rfl, fun _ _ _ _ => rfl⟩
      | cons lower rest =>
          obtain ⟨hnext, hchain⟩ := List.isChain_cons_cons.mp hfirst
          rw [makeTree] at h
          obtain ⟨t, ht, h⟩ := bind_eq_ok.mp h
          obtain ⟨b, hadopted, -, hstop⟩ := makeLevel_adopted ht
          have hupper : upper.Fills names tot := hfills upper List.mem_cons_self
          have hpos := hupper.lt
          have hb : b = lower.firstIndex + lower.numNames := by
            have hfilled := hstop (by omega) (hupper.last_pos htot)
            rw [hupper.span_eq] at hfilled
            exact hfilled.unique (hfills lower (by simp))
          have hlen := hadopted.same.lenOf_eq
          obtain ⟨hbelow, hsame, hframe⟩ := ih hchain
            (fun a ha => (hfills a (List.mem_cons_of_mem upper ha)).congr hlen.symm) h
          refine ⟨List.isChain_cons_cons.mpr ⟨?_, hbelow⟩, hadopted.same.trans hsame, ?_⟩
          · refine (hadopted.below hb).congr hsame.lenOf_eq ?_
            intro k hk
            rw [MRCPerLevelInfo.mem_range] at hk
            rw [hframe lower rfl k hk.2]
          · intro a ha k hk
            cases ha
            rw [hframe lower rfl k (by omega), hadopted.frame k (by omega)]

theorem setLevels_before {i s e k : Nat} {levels : List MRCPerLevelInfo}
    (hlaid : Tiles MRCPerLevelInfo.firstIndex MRCPerLevelInfo.numNames s e levels) (hk : k < s) :
    setLevels i levels names k = names k := by
  induction levels generalizing i s names with
  | nil => rfl
  | cons info rest ih =>
      obtain ⟨hfirst, -, hrest⟩ := hlaid
      rw [setLevels, ih hrest (by omega)]
      exact if_neg (by omega)

/-- The entries of a level get its number. -/
theorem setLevels_level {i j s e k : Nat} {levels : List MRCPerLevelInfo}
    (hlaid : Tiles MRCPerLevelInfo.firstIndex MRCPerLevelInfo.numNames s e levels) (hj : j < levels.length)
    (hk : k ∈ (levels.getD j default).range) : (setLevels i levels names k).level = i + j := by
  induction levels generalizing i j s names with
  | nil => simp at hj
  | cons info rest ih =>
      obtain ⟨hfirst, -, hrest⟩ := hlaid
      rw [setLevels]
      cases j with
      | zero =>
          rw [List.getD_cons_zero, MRCPerLevelInfo.mem_range] at hk
          rw [setLevels_before hrest (by omega), if_pos hk]
          rfl
      | succ j =>
          rw [List.getD_cons_succ] at hk
          rw [ih hrest (by simpa using hj) hk]
          omega

theorem assignTypes_same {idxs : List Nat} (h : assignTypes n idxs names = .ok names') (k : Nat) :
    (names' k).length = (names k).length ∧ (names' k).parentIdx = (names k).parentIdx ∧ (names' k).level = (names k).level := by
  induction idxs generalizing names with
  | nil =>
      cases h
      exact ⟨rfl, rfl, rfl⟩
  | cons newIdx rest ih =>
      rw [assignTypes] at h
      obtain ⟨_, -, h⟩ := bind_eq_ok.mp h
      obtain ⟨parent, -, h⟩ := bind_eq_ok.mp h
      have hupdate : ∀ name : OneChunkName, name.length = (names newIdx).length →
          name.parentIdx = (names newIdx).parentIdx → name.level = (names newIdx).level →
          (Function.update names newIdx name k).length = (names k).length ∧
            (Function.update names newIdx name k).parentIdx = (names k).parentIdx ∧
            (Function.update names newIdx name k).level = (names k).level := by
        intro name hlen hparent hlevel
        by_cases hk : k = newIdx
        · subst hk
          rw [Function.update_self]
          exact ⟨hlen, hparent, hlevel⟩
        · rw [Function.update_of_ne hk]
          exact ⟨rfl, rfl, rfl⟩
      split at h
      case isTrue =>
        have hrest := ih h
        have hone := hupdate { names newIdx with type := .chunkIndex, rindex := parent } rfl rfl rfl
        exact ⟨hrest.1.trans hone.1, hrest.2.1.trans hone.2.1, hrest.2.2.trans hone.2.2⟩
      case isFalse =>
        split at h
        case isTrue =>
          have hrest := ih h
          have hone := hupdate { names newIdx with type := .chunkRaw } rfl rfl rfl
          exact ⟨hrest.1.trans hone.1, hrest.2.1.trans hone.2.1, hrest.2.2.trans hone.2.2⟩
        case isFalse =>
          obtain ⟨_, -, h⟩ := bind_eq_ok.mp h
          exact ih h

end Init

/-- Every tree that `InitChunkTreeInfo` returns, as long as it has a root. -/
theorem receivedTree_of_init {cfg : Config} {names : NameTable} {n : Nat} {seqNo : Int} {t : ChunkTreeInfo}
    (h : initChunkTreeInfo cfg names n seqNo = .ok t) (hroot : 0 < lenOf t.pNames 0) : ReceivedTree cfg t := by
  unfold initChunkTreeInfo at h
  obtain ⟨_, hmax, h⟩ := bind_eq_ok.mp h
  have hfits := check_eq_ok.mp hmax
  obtain ⟨placed, -, h⟩ := bind_eq_ok.mp h
  obtain ⟨_, hnum, h⟩ := bind_eq_ok.mp h
  have hpos := inBounds_eq_ok.mp hnum
  obtain ⟨levels, hcount, h⟩ := bind_eq_ok.mp h
  obtain ⟨_, -, h⟩ := bind_eq_ok.mp h
  obtain ⟨made, hmake, h⟩ := bind_eq_ok.mp h
  obtain ⟨typed, htype, h⟩ := bind_eq_ok.mp h
  obtain ⟨_, -, hret⟩ := bind_eq_ok.mp h
  cases hret
  dsimp only at hroot hcount
  have hsame := assignTypes_same htype
  have hset := (setLevels_keeps 0 levels placed).lenOf_eq
  have hlenTyped : lenOf typed = lenOf made := funext fun k => (hsame k).1
  have hlenMade := (makeTree_keeps hmake).lenOf_eq
  have htot : 0 < (placed 0).length := by
    rw [hlenTyped, hlenMade, hset] at hroot
    exact hroot
  obtain ⟨e, hlaid, hen, hstop, hlength, -⟩ := countLevels_laid (Nat.zero_le n) hcount
  have hfills : ∀ a ∈ levels, a.Fills placed _ := countLevels_fills hcount
  have hfirst := laid_isChain hlaid
  obtain ⟨hbelow, hparents, -⟩ := makeTree_below htot hfirst (fun a ha => (hfills a ha).congr hset.symm) hmake
  have hrootLevel : levels.getD 0 default = ⟨1, 0⟩ := by
    have he := laid_pos hlaid hpos hstop
    cases levels with
    | nil => exact absurd (show 0 = e from hlaid) (by omega)
    | cons a rest =>
        have ha := hfills a List.mem_cons_self
        unfold MRCPerLevelInfo.Fills at ha
        rw [hlaid.1] at ha
        have hone := (Fills.single placed 0).unique ha
        rw [List.getD_cons_zero, show a = ⟨a.numNames, a.firstIndex⟩ from rfl, hlaid.1, show a.numNames = 1 by omega]
  refine ⟨hfits, rfl, hlength, hrootLevel, ?_, ?_, ?_, ?_, hroot⟩
  · intro i hi
    rw [List.getD_eq_getElem _ _ hi, List.getD_eq_getElem _ _ (Nat.lt_of_succ_lt hi)]
    exact List.isChain_iff_getElem.mp hfirst i hi
  · intro i hi
    rw [List.getD_eq_getElem _ _ hi]
    have := (tiles_mem hlaid (List.getElem_mem hi)).2.1
    dsimp only
    omega
  · intro i hi k hk
    rw [(hsame k).2.2, hparents k]
    have hlevel : (setLevels 0 levels placed k).level = 0 + i := setLevels_level hlaid hi hk
    rwa [Nat.zero_add] at hlevel
  · intro i hi
    rw [List.getD_eq_getElem _ _ hi, List.getD_eq_getElem _ _ (Nat.lt_of_succ_lt hi)]
    exact (List.isChain_iff_getElem.mp hbelow i hi).congr hlenTyped fun k _ => (hsame k).2.1

namespace ReceivedTree

variable {cfg : Config} {t : ChunkTreeInfo} (ht : ReceivedTree cfg t)

include ht

theorem levels_pos : 0 < t.numLevels := by
  by_contra hzero
  have hnil : t.perLevelInfo = [] := List.eq_nil_of_length_eq_zero (by rw [← ht.levels_eq]; omega)
  have hroot := ht.root
  rw [hnil] at hroot
  cases hroot

theorem level_zero : t.level 0 = [0] := by
  rw [ChunkTreeInfo.level, ht.root]
  rfl

theorem lt_of_mem {i k : Nat} (hi : i < t.numLevels) (hk : k ∈ t.level i) : k < t.numNames := by
  have hbound := ht.bounds i hi
  rw [ChunkTreeInfo.level, MRCPerLevelInfo.mem_range] at hk
  omega

/-- Lower levels stand further on in the table. -/
theorem lt_of_level_lt {i j k k' : Nat} (hij : i < j) (hj : j < t.numLevels) (hk : k ∈ t.level i) (hk' : k' ∈ t.level j) : k < k' := by
  obtain ⟨n, rfl⟩ := Nat.exists_eq_add_of_lt hij
  have hfirst : ∀ m, i + m + 1 < t.numLevels → (t.perLevelInfo.getD i default).firstIndex +
      (t.perLevelInfo.getD i default).numNames ≤ (t.perLevelInfo.getD (i + m + 1) default).firstIndex := by
    intro m
    induction m with
    | zero =>
        intro hm
        exact (ht.first_succ i hm).ge
    | succ m ih =>
        intro hm
        have := ih (by omega)
        have := ht.first_succ (i + m + 1) hm
        rw [show i + (m + 1) + 1 = i + m + 1 + 1 by omega]
        omega
  have := hfirst n hj
  rw [ChunkTreeInfo.level, MRCPerLevelInfo.mem_range] at hk hk'
  omega

theorem pos_of_mem {i k : Nat} (hi : i + 1 < t.numLevels) (hk : k ∈ t.level (i + 1)) : 0 < k := by
  have hzero : 0 ∈ t.level 0 := by
    rw [ht.level_zero]
    exact List.mem_cons_self
  exact ht.lt_of_level_lt (Nat.succ_pos i) hi hzero hk

/-- The parent of an entry stands one level up. -/
theorem parent_mem {i k : Nat} (hi : i + 1 < t.numLevels) (hk : k ∈ t.level (i + 1)) :
    (t.pNames k).parentIdx = some (parentOf t.pNames k) ∧ parentOf t.pNames k ∈ t.level i := by
  obtain ⟨p, hp, hidx⟩ := (ht.below i hi).parented k hk
  rw [parentOf_eq hidx]
  exact ⟨hidx, hp⟩

theorem parent_lt {i k : Nat} (hi : i + 1 < t.numLevels) (hk : k ∈ t.level (i + 1)) : parentOf t.pNames k < k :=
  ht.lt_of_level_lt (Nat.lt_succ_self i) hi (ht.parent_mem hi hk).2 hk

theorem getParent2_eq {i k : Nat} (hi : i + 1 < t.numLevels) (hk : k ∈ t.level (i + 1)) :
    getParent2 t.pNames k = .ok (parentOf t.pNames k) := by
  have hpos := ht.pos_of_mem hi hk
  rw [getParent2, if_neg (by omega), (ht.parent_mem hi hk).1]

/-- A level has as many bytes under some parents as these parents have. -/
theorem bytes_below {i : Nat} (hi : i + 1 < t.numLevels) (P : Nat → Prop) [DecidablePred P] :
    bytesOf t.pNames (fun k => P (parentOf t.pNames k)) (t.level (i + 1)) = bytesOf t.pNames P (t.level i) :=
  bytesOf_fiber (t.nodup_level i) (fun _ hk => (ht.parent_mem hi hk).2) (ht.below i hi).sums

/-- A chunk that is not empty has a child that is not. -/
theorem exists_child {i p : Nat} (hi : i + 1 < t.numLevels) (hp : p ∈ t.level i) (hpos : 0 < lenOf t.pNames p) :
    ∃ k ∈ t.level (i + 1), parentOf t.pNames k = p ∧ 0 < lenOf t.pNames k := by
  by_contra hnone
  have hzero : bytesOf t.pNames (fun k => parentOf t.pNames k = p) (t.level (i + 1)) = 0 := by
    rw [bytesOf_eq_zero]
    intro k hk hparent
    by_contra hne
    exact hnone ⟨k, hk, hparent, by omega⟩
  have hsum := (ht.below i hi).sums p hp
  rw [ChunkTreeInfo.level] at hzero
  omega

end ReceivedTree

end BeagleCache
