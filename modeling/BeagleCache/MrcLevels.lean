import BeagleCache.RabinScan
import BeagleCache.Mrc
import BeagleCache.Tiling

/-! The levels of the chunk tree as lists of cuts. `cutLevel` is the loop of `DoPreMRC` over the
boundaries of one level without the tables it writes to; its invariants (a tiling, the marks are the
cuts, cuts are kept by the next level) hold for every content. `DoPreMRC` returns the names of these
levels whenever the boundaries fit their table. -/

namespace BeagleCache

open Tiling

/-- Chunk sizes from the table `chunk_sizes`, the minimum not above the maximum, and a power of two of
ways. -/
structure Config.Sized (cfg : Config) : Prop where
  minChunkSize_mem : cfg.minChunkSize ∈ chunkSizes
  chunkSize_mem : cfg.chunkSize ∈ chunkSizes
  min_le : cfg.minChunkSize ≤ cfg.chunkSize
  ways_pow : ∃ w, cfg.numMRCWays = 2 ^ w

/-! ## Masks -/

theorem mem_chunkSizes {n : Nat} (h : n ∈ chunkSizes) : ∃ k, 5 ≤ k ∧ k ≤ 17 ∧ n = 2 ^ k := by
  have hall : ∀ n ∈ chunkSizes, ∃ k ∈ List.range' 5 13, n = 2 ^ k := by decide
  obtain ⟨k, hk, hn⟩ := hall n h
  rw [List.mem_range'_1] at hk
  exact ⟨k, hk.1, by omega, hn⟩

/-- Every entry of the table but the last has a mask. -/
theorem getMRCMask_pow {k : Nat} (h5 : 5 ≤ k) (h16 : k ≤ 16) :
    getMRCMask (2 ^ k) = .ok (BitVec.ofNat 32 (2 ^ k - 1)) := by
  interval_cases k <;> rfl

theorem getMRCMask_pow_last : getMRCMask (2 ^ 17) = .error .exit := rfl

theorem matchesSize_pow (f : U64) {k : Nat} (hk : k ≤ 64) :
    matchesSize f (2 ^ k) ↔ ∀ i, i < k → f.getLsbD i = true := by
  unfold matchesSize
  rw [beq_iff_eq]
  constructor
  · intro heq i hi
    have := congrArg (fun m => m.getLsbD i) heq
    have h64 : i < 64 := by omega
    simpa [BitVec.getLsbD_ofNat, Nat.testBit_two_pow_sub_one, hi, h64] using this
  · intro hall
    apply BitVec.eq_of_getLsbD_eq
    intro i hi
    by_cases hik : i < k
    · simp [BitVec.getLsbD_ofNat, Nat.testBit_two_pow_sub_one, hik, hall i hik]
    · simp [BitVec.getLsbD_ofNat, Nat.testBit_two_pow_sub_one, hik]

theorem matchesMask_pow (f : U64) {k : Nat} (hk : k ≤ 32) :
    matchesMask f (BitVec.ofNat 32 (2 ^ k - 1)) = matchesSize f (2 ^ k) := by
  have hpow : 2 ^ k ≤ 2 ^ 32 := Nat.pow_le_pow_right (by omega) hk
  have hmask : (BitVec.ofNat 32 (2 ^ k - 1)).setWidth 64 = BitVec.ofNat 64 (2 ^ k - 1) := by
    apply BitVec.eq_of_toNat_eq
    simp only [BitVec.toNat_setWidth, BitVec.toNat_ofNat]
    have := Nat.pos_of_ne_zero (pow_ne_zero k (by omega : (2 : Nat) ≠ 0))
    omega
  unfold matchesMask matchesSize
  rw [hmask]

/-- A match of a large size is a match of every smaller one. -/
theorem matchesSize_mono (f : U64) {j k : Nat} (hjk : j ≤ k) (hk : k ≤ 64) (h : matchesSize f (2 ^ k)) :
    matchesSize f (2 ^ j) := by
  rw [matchesSize_pow f hk] at h
  rw [matchesSize_pow f (by omega)]
  intro i hi
  exact h i (by omega)

/-! ## One level -/

/-- The chunks, as offset and length, that one level cuts out of marked boundaries, and the new
marks. -/
def cutLevel (chunkSize : Nat) : List (RabinBoundary × Bool) → Nat → List (Nat × Nat) × List (RabinBoundary × Bool)
  | [], _ => ([], [])
  | (b, real) :: rest, last =>
      if (matchesSize b.finger chunkSize ∨ rest = []) ∧ (waproxMinChunkSize < b.offset - last ∨ real) then
        let r := cutLevel chunkSize rest b.offset
        ((last, b.offset - last) :: r.1, (b, true) :: r.2)
      else
        let r := cutLevel chunkSize rest last
        (r.1, (b, real) :: r.2)

@[simp] theorem cutLevel_nil (chunkSize last : Nat) : cutLevel chunkSize [] last = ([], []) := rfl

theorem cutLevel_cut {chunkSize last : Nat} {b : RabinBoundary} {real : Bool} {rest : List (RabinBoundary × Bool)}
    (hcut : (matchesSize b.finger chunkSize ∨ rest = []) ∧ (waproxMinChunkSize < b.offset - last ∨ real)) :
    cutLevel chunkSize ((b, real) :: rest) last =
      ((last, b.offset - last) :: (cutLevel chunkSize rest b.offset).1, (b, true) :: (cutLevel chunkSize rest b.offset).2) :=
  if_pos hcut

theorem cutLevel_skip {chunkSize last : Nat} {b : RabinBoundary} {real : Bool} {rest : List (RabinBoundary × Bool)}
    (hskip : ¬ ((matchesSize b.finger chunkSize ∨ rest = []) ∧ (waproxMinChunkSize < b.offset - last ∨ real))) :
    cutLevel chunkSize ((b, real) :: rest) last = ((cutLevel chunkSize rest last).1, (b, real) :: (cutLevel chunkSize rest last).2) :=
  if_neg hskip

/-- Marked boundaries between `last` and the end `e` of the data: in increasing order, and the last one
is `e` and marked. -/
structure Marked (e last : Nat) (m : List (RabinBoundary × Bool)) : Prop where
  sorted : m.Pairwise (fun x y => x.1.offset < y.1.offset)
  above : ∀ x ∈ m, last < x.1.offset
  endpoint : ∀ x, m.getLast? = some x → x.1.offset = e ∧ x.2 = true
  nil : m = [] → last = e

/-- Marks stand only where the mask of a chunk size matches, or at the end. -/
def MarksMatch (e chunkSize : Nat) (m : List (RabinBoundary × Bool)) : Prop :=
  ∀ x ∈ m, x.2 = true → matchesSize x.1.finger chunkSize ∨ x.1.offset = e

abbrev spanEnds (spans : List (Nat × Nat)) : List Nat := ends Prod.fst Prod.snd spans

section Level

variable {e last : Nat} {m rest : List (RabinBoundary × Bool)} {b : RabinBoundary} {real : Bool}

theorem Marked.tail_cut (h : Marked e last ((b, real) :: rest)) : Marked e b.offset rest where
  sorted := (List.pairwise_cons.mp h.sorted).2
  above := fun x hx => (List.pairwise_cons.mp h.sorted).1 x hx
  endpoint := by
    intro x hx
    apply h.endpoint x
    rw [List.getLast?_cons, hx]
    rfl
  nil := by
    intro hnil
    subst hnil
    exact (h.endpoint (b, real) rfl).1

theorem Marked.tail_skip (h : Marked e last ((b, real) :: rest)) (hne : rest ≠ []) : Marked e last rest where
  sorted := (List.pairwise_cons.mp h.sorted).2
  above := fun x hx => h.above x (List.mem_cons_of_mem _ hx)
  endpoint := h.tail_cut.endpoint
  nil := fun hnil => absurd hnil hne

theorem Marked.lt (h : Marked e last ((b, real) :: rest)) : last < b.offset := h.above (b, real) (by simp)

/-- Only the end of the data lies at the end of the boundaries. -/
theorem Marked.ne_end (h : Marked e last ((b, real) :: rest)) (hne : rest ≠ []) : b.offset ≠ e := by
  obtain ⟨x, hx⟩ : ∃ x, rest.getLast? = some x := by
    cases hlast : rest.getLast? with
    | none => exact absurd (List.getLast?_eq_none_iff.mp hlast) hne
    | some x => exact ⟨x, rfl⟩
  have hend := (h.tail_cut.endpoint x hx).1
  have hlt := h.tail_cut.above x (List.mem_of_getLast? hx)
  omega

/-- At the last boundary a chunk is always cut. -/
theorem Marked.skip_ne_nil {chunkSize : Nat} (h : Marked e last ((b, real) :: rest))
    (hskip : ¬ ((matchesSize b.finger chunkSize ∨ rest = []) ∧ (waproxMinChunkSize < b.offset - last ∨ real))) :
    rest ≠ [] := by
  intro hnil
  subst hnil
  have hreal : real = true := (h.endpoint (b, real) rfl).2
  exact hskip ⟨.inr rfl, .inr hreal⟩

/-- An induction over marked boundaries: the end of the data, a boundary where a chunk is cut, and one
that is passed over. -/
theorem Marked.induction {motive : ∀ last m, Marked e last m → Prop} (chunkSize : Nat)
    (nil : ∀ h, motive e [] h)
    (cut : ∀ last b real rest, ∀ h : Marked e last ((b, real) :: rest),
      (matchesSize b.finger chunkSize ∨ rest = []) ∧ (waproxMinChunkSize < b.offset - last ∨ real) →
      motive b.offset rest h.tail_cut → motive last ((b, real) :: rest) h)
    (skip : ∀ last b real rest, ∀ h : Marked e last ((b, real) :: rest), ∀ hne : rest ≠ [],
      ¬ ((matchesSize b.finger chunkSize ∨ rest = []) ∧ (waproxMinChunkSize < b.offset - last ∨ real)) →
      motive last rest (h.tail_skip hne) → motive last ((b, real) :: rest) h)
    (h : Marked e last m) : motive last m h := by
  induction m generalizing last with
  | nil =>
      obtain rfl : last = e := h.nil rfl
      exact nil h
  | cons x rest ih =>
      obtain ⟨b, real⟩ := x
      by_cases hcut : (matchesSize b.finger chunkSize ∨ rest = []) ∧ (waproxMinChunkSize < b.offset - last ∨ real)
      · exact cut last b real rest h hcut (ih h.tail_cut)
      · have hne := h.skip_ne_nil hcut
        exact skip last b real rest h hne hcut (ih (h.tail_skip hne))

/-- The chunks of a level tile the data. -/
theorem cutLevel_tiles (chunkSize : Nat) (h : Marked e last m) : Tiles Prod.fst Prod.snd last e (cutLevel chunkSize m last).1 := by
  induction last, m, h using Marked.induction chunkSize with
  | nil h => rfl
  | cut last b real rest h hcut ih =>
      have hlt := h.lt
      rw [cutLevel_cut hcut]
      refine ⟨rfl, by simp only; omega, ?_⟩
      rwa [show last + (b.offset - last) = b.offset by omega]
  | skip last b real rest h hne hskip ih =>
      rw [cutLevel_skip hskip]
      exact ih

theorem cutLevel_fst (chunkSize : Nat) (m : List (RabinBoundary × Bool)) (last : Nat) :
    (cutLevel chunkSize m last).2.map Prod.fst = m.map Prod.fst := by
  induction m generalizing last with
  | nil => rfl
  | cons x rest ih =>
      obtain ⟨b, real⟩ := x
      by_cases hcut : (matchesSize b.finger chunkSize ∨ rest = []) ∧ (waproxMinChunkSize < b.offset - last ∨ real)
      · rw [cutLevel_cut hcut, List.map_cons, List.map_cons, ih]
      · rw [cutLevel_skip hcut, List.map_cons, List.map_cons, ih]

theorem cutLevel_length_le (chunkSize : Nat) (m : List (RabinBoundary × Bool)) (last : Nat) :
    (cutLevel chunkSize m last).1.length ≤ m.length := by
  induction m generalizing last with
  | nil => simp
  | cons x rest ih =>
      obtain ⟨b, real⟩ := x
      by_cases hcut : (matchesSize b.finger chunkSize ∨ rest = []) ∧ (waproxMinChunkSize < b.offset - last ∨ real)
      · rw [cutLevel_cut hcut, List.length_cons, List.length_cons]
        exact Nat.succ_le_succ (ih b.offset)
      · rw [cutLevel_skip hcut, List.length_cons]
        exact (ih last).trans (Nat.le_succ _)

/-- A chunk ends at a boundary where the mask matches, or at the end; it is longer than the minimum
unless the boundary was marked before. -/
theorem cutLevel_ends (chunkSize : Nat) (h : Marked e last m) : ∀ s ∈ (cutLevel chunkSize m last).1,
    ∃ x ∈ m, x.1.offset = s.1 + s.2 ∧ (matchesSize x.1.finger chunkSize ∨ x.1.offset = e) ∧
      (waproxMinChunkSize < s.2 ∨ x.2 = true) := by
  induction last, m, h using Marked.induction chunkSize with
  | nil h => simp
  | cut last b real rest h hcut ih =>
      have hlt := h.lt
      rw [cutLevel_cut hcut]
      intro s hs
      rcases List.mem_cons.mp hs with rfl | hs
      · refine ⟨(b, real), by simp, by simp only; omega, ?_, hcut.2⟩
        rcases hcut.1 with hmatch | hnil
        · exact .inl hmatch
        · subst hnil
          exact .inr (h.endpoint (b, real) rfl).1
      · obtain ⟨x, hx, hrest⟩ := ih s hs
        exact ⟨x, List.mem_cons_of_mem _ hx, hrest⟩
  | skip last b real rest h hne hskip ih =>
      rw [cutLevel_skip hskip]
      intro s hs
      obtain ⟨x, hx, hrest⟩ := ih s hs
      exact ⟨x, List.mem_cons_of_mem _ hx, hrest⟩

/-- When marks stand only where the mask matches, the new marks are the ends of the chunks. -/
theorem cutLevel_marks (chunkSize : Nat) (h : Marked e last m) (hmarks : MarksMatch e chunkSize m) :
    ∀ x ∈ (cutLevel chunkSize m last).2, x.2 = true ↔ x.1.offset ∈ spanEnds (cutLevel chunkSize m last).1 := by
  induction last, m, h using Marked.induction chunkSize with
  | nil h => simp
  | cut last b real rest h hcut ih =>
      have hlt := h.lt
      have hoff : last + (b.offset - last) = b.offset := by omega
      have hends : spanEnds (cutLevel chunkSize ((b, real) :: rest) last).1 =
          b.offset :: spanEnds (cutLevel chunkSize rest b.offset).1 := by
        rw [cutLevel_cut hcut]
        simp only [spanEnds, ends, List.map_cons, hoff]
      rw [hends, cutLevel_cut hcut]
      intro x hx
      rcases List.mem_cons.mp hx with rfl | hx
      · simp
      · have hiff := ih (fun y hy => hmarks y (List.mem_cons_of_mem _ hy)) x hx
        have hmem : x.1 ∈ rest.map Prod.fst := by
          rw [← cutLevel_fst chunkSize rest b.offset]
          exact List.mem_map_of_mem hx
        obtain ⟨y, hy, hyx⟩ := List.mem_map.mp hmem
        have hgt := h.tail_cut.above y hy
        rw [hiff, List.mem_cons]
        constructor
        · exact .inr
        · rintro (heq | hin)
          · rw [← hyx] at heq
            omega
          · exact hin
  | skip last b real rest h hne hskip ih =>
      rw [cutLevel_skip hskip]
      intro x hx
      rcases List.mem_cons.mp hx with rfl | hx
      · -- a mark would have cut a chunk here
        have hreal : real = false := by
          by_contra htrue
          have htrue : real = true := by simpa using htrue
          rcases hmarks (b, real) (by simp) htrue with hmatch | hend
          · exact hskip ⟨.inl hmatch, .inr htrue⟩
          · exact h.ne_end hne hend
        simp only [hreal, Bool.false_eq_true, false_iff]
        intro hin
        obtain ⟨s, hs, hsend⟩ := mem_ends.mp hin
        obtain ⟨y, hy, hyoff, -⟩ := cutLevel_ends chunkSize (h.tail_skip hne) s hs
        have hgt := h.tail_cut.above y hy
        omega
      · exact ih (fun y hy => hmarks y (List.mem_cons_of_mem _ hy)) x hx

/-- Every mark that was there is the end of a chunk. -/
theorem cutLevel_keeps (chunkSize : Nat) (h : Marked e last m) (hmarks : MarksMatch e chunkSize m) :
    ∀ x ∈ m, x.2 = true → x.1.offset ∈ spanEnds (cutLevel chunkSize m last).1 := by
  induction last, m, h using Marked.induction chunkSize with
  | nil h => simp
  | cut last b real rest h hcut ih =>
      have hlt := h.lt
      rw [cutLevel_cut hcut]
      intro x hx hreal
      rcases List.mem_cons.mp hx with rfl | hx
      · exact mem_ends.mpr ⟨_, List.mem_cons_self, by simp only; omega⟩
      · obtain ⟨s, hs, hend⟩ := mem_ends.mp (ih (fun y hy => hmarks y (List.mem_cons_of_mem _ hy)) x hx hreal)
        exact mem_ends.mpr ⟨s, List.mem_cons_of_mem _ hs, hend⟩
  | skip last b real rest h hne hskip ih =>
      rw [cutLevel_skip hskip]
      intro x hx hreal
      rcases List.mem_cons.mp hx with rfl | hx
      · rcases hmarks _ (by simp) hreal with hmatch | hend
        · exact absurd ⟨.inl hmatch, .inr hreal⟩ hskip
        · exact absurd hend (h.ne_end hne)
      · exact ih (fun y hy => hmarks y (List.mem_cons_of_mem _ hy)) x hx hreal

/-- The new marks are marks of the same boundaries, up to the same end. -/
theorem cutLevel_marked (chunkSize : Nat) (h : Marked e last m) : Marked e last (cutLevel chunkSize m last).2 := by
  induction last, m, h using Marked.induction chunkSize with
  | nil h => exact ⟨List.Pairwise.nil, by simp, by simp, fun _ => rfl⟩
  | cut last b real rest h hcut ih =>
      rw [cutLevel_cut hcut]
      have hlt := h.lt
      refine ⟨List.pairwise_cons.mpr ⟨ih.above, ih.sorted⟩, ?_, ?_, by simp⟩
      · intro x hx
        rcases List.mem_cons.mp hx with rfl | hx
        · exact hlt
        · have := ih.above x hx
          omega
      · intro x hx
        rw [List.getLast?_cons] at hx
        cases hlast : (cutLevel chunkSize rest b.offset).2.getLast? with
        | none =>
            rw [hlast] at hx
            cases hx
            exact ⟨ih.nil (List.getLast?_eq_none_iff.mp hlast), rfl⟩
        | some y =>
            rw [hlast] at hx
            cases hx
            exact ih.endpoint _ hlast
  | skip last b real rest h hne hskip ih =>
      rw [cutLevel_skip hskip]
      have hfst := cutLevel_fst chunkSize rest last
      have hne' : (cutLevel chunkSize rest last).2 ≠ [] := by
        intro hnil
        rw [hnil] at hfst
        exact hne (List.map_eq_nil_iff.mp hfst.symm)
      refine ⟨List.pairwise_cons.mpr ⟨?_, ih.sorted⟩, ?_, ?_, by simp⟩
      · intro x hx
        have hmem : x.1 ∈ rest.map Prod.fst := by
          rw [← hfst]
          exact List.mem_map_of_mem hx
        obtain ⟨y, hy, hyx⟩ := List.mem_map.mp hmem
        rw [← hyx]
        exact h.tail_cut.above y hy
      · intro x hx
        rcases List.mem_cons.mp hx with rfl | hx
        · exact h.lt
        · exact ih.above x hx
      · intro x hx
        cases hlast : (cutLevel chunkSize rest last).2.getLast? with
        | none => exact absurd (List.getLast?_eq_none_iff.mp hlast) hne'
        | some y =>
            rw [List.getLast?_cons, hlast] at hx
            cases hx
            exact ih.endpoint _ hlast

/-- The new marks stand where the mask matches. -/
theorem cutLevel_marksMatch (chunkSize : Nat) (h : Marked e last m) (hmarks : MarksMatch e chunkSize m) :
    MarksMatch e chunkSize (cutLevel chunkSize m last).2 := by
  induction last, m, h using Marked.induction chunkSize with
  | nil h => simp [MarksMatch]
  | cut last b real rest h hcut ih =>
      rw [cutLevel_cut hcut]
      intro x hx hreal
      rcases List.mem_cons.mp hx with rfl | hx
      · rcases hcut.1 with hmatch | hnil
        · exact .inl hmatch
        · subst hnil
          exact .inr (h.endpoint (b, real) rfl).1
      · exact ih (fun y hy => hmarks y (List.mem_cons_of_mem _ hy)) x hx hreal
  | skip last b real rest h hne hskip ih =>
      rw [cutLevel_skip hskip]
      intro x hx hreal
      rcases List.mem_cons.mp hx with rfl | hx
      · exact hmarks _ (by simp) hreal
      · exact ih (fun y hy => hmarks y (List.mem_cons_of_mem _ hy)) x hx hreal

/-- The new marks also stand where a weaker mask matches. -/
theorem cutLevel_marksMatch_head (chunkSize : Nat) (h : Marked e last m) (hmarks : MarksMatch e chunkSize m)
    {sizes : List Nat} (hsizes : (chunkSize :: sizes).IsChain (fun a b => ∀ f, matchesSize f a → matchesSize f b)) :
    ∀ size ∈ sizes.head?, MarksMatch e size (cutLevel chunkSize m last).2 := by
  intro size hsize x hx hreal
  have hweaker := (List.isChain_cons.mp hsizes).1 size hsize
  rcases cutLevel_marksMatch chunkSize h hmarks x hx hreal with hthis | hend
  · exact .inl (hweaker _ hthis)
  · exact .inr hend

/-- The cuts of a level are its marks. -/
theorem cutLevel_cuts (chunkSize : Nat) (h : Marked e last m) (hmarks : MarksMatch e chunkSize m) :
    (∀ o ∈ spanEnds (cutLevel chunkSize m last).1,
        ∃ x ∈ (cutLevel chunkSize m last).2, x.2 = true ∧ x.1.offset = o) ∧
      ∀ x ∈ (cutLevel chunkSize m last).2, x.2 = true → x.1.offset ∈ spanEnds (cutLevel chunkSize m last).1 := by
  refine ⟨?_, fun x hx => (cutLevel_marks chunkSize h hmarks x hx).mp⟩
  intro o ho
  obtain ⟨s, hs, hsend⟩ := mem_ends.mp ho
  obtain ⟨x, hx, hoff, -⟩ := cutLevel_ends chunkSize h s hs
  have hmem : x.1 ∈ (cutLevel chunkSize m last).2.map Prod.fst := by
    rw [cutLevel_fst]
    exact List.mem_map_of_mem hx
  obtain ⟨y, hy, hyx⟩ := List.mem_map.mp hmem
  have hyo : y.1.offset = o := by rw [hyx, hoff, hsend]
  exact ⟨y, hy, (cutLevel_marks chunkSize h hmarks y hy).mpr (hyo ▸ ho), hyo⟩

end Level

/-! ## All levels -/

/-- The chunk sizes of the levels from a given one down. -/
def levelSizes (minChunkSize numMRCWays : Nat) : Nat → Nat → List Nat
  | 0, _ => []
  | fuel + 1, chunkSize =>
      if chunkSize < minChunkSize then []
      else if numMRCWays = 1 then [chunkSize]
      else chunkSize :: levelSizes minChunkSize numMRCWays fuel (chunkSize / numMRCWays)

/-- The chunks of all levels. -/
def cutLevels : List Nat → List (RabinBoundary × Bool) → List (List (Nat × Nat))
  | [], _ => []
  | chunkSize :: sizes, m => (cutLevel chunkSize m 0).1 :: cutLevels sizes (cutLevel chunkSize m 0).2

/-- A level keeps the cuts of the level above, and a chunk that ends at none of them is longer than the
minimum. -/
def Refines (upper lower : List (Nat × Nat)) : Prop :=
  (∀ x ∈ spanEnds upper, x ∈ spanEnds lower) ∧
    ∀ s ∈ lower, s.1 + s.2 ∉ spanEnds upper → waproxMinChunkSize < s.2

@[simp] theorem cutLevels_length (sizes : List Nat) (m : List (RabinBoundary × Bool)) :
    (cutLevels sizes m).length = sizes.length := by
  induction sizes generalizing m with
  | nil => rfl
  | cons chunkSize sizes ih => simp [cutLevels, ih]

theorem cutLevels_tiles {e : Nat} {sizes : List Nat} {m : List (RabinBoundary × Bool)} (h : Marked e 0 m) :
    ∀ L ∈ cutLevels sizes m, Tiles Prod.fst Prod.snd 0 e L := by
  induction sizes generalizing m with
  | nil => simp [cutLevels]
  | cons chunkSize sizes ih =>
      intro L hL
      rcases List.mem_cons.mp hL with rfl | hL
      · exact cutLevel_tiles chunkSize h
      · exact ih (cutLevel_marked chunkSize h) L hL

theorem cutLevels_length_le {sizes : List Nat} {m : List (RabinBoundary × Bool)} :
    ∀ L ∈ cutLevels sizes m, L.length ≤ m.length := by
  induction sizes generalizing m with
  | nil => simp [cutLevels]
  | cons chunkSize sizes ih =>
      intro L hL
      rcases List.mem_cons.mp hL with rfl | hL
      · exact cutLevel_length_le chunkSize m 0
      · have hlen := congrArg List.length (cutLevel_fst chunkSize m 0)
        simp only [List.length_map] at hlen
        rw [← hlen]
        exact ih L hL

/-- Levels whose masks get weaker refine each other, below a level whose cuts are the marks. -/
theorem cutLevels_chain {e : Nat} {sizes : List Nat} {m : List (RabinBoundary × Bool)} {upper : List (Nat × Nat)}
    (h : Marked e 0 m) (hmarks : ∀ chunkSize ∈ sizes.head?, MarksMatch e chunkSize m)
    (hsizes : sizes.IsChain (fun a b => ∀ f, matchesSize f a → matchesSize f b))
    (hcut : ∀ o ∈ spanEnds upper, ∃ x ∈ m, x.2 = true ∧ x.1.offset = o)
    (hmark : ∀ x ∈ m, x.2 = true → x.1.offset ∈ spanEnds upper) :
    (upper :: cutLevels sizes m).IsChain Refines := by
  induction sizes generalizing m upper with
  | nil => simp [cutLevels]
  | cons chunkSize sizes ih =>
      have hmatch : MarksMatch e chunkSize m := hmarks chunkSize rfl
      rw [cutLevels, List.isChain_cons_cons]
      refine ⟨⟨?_, ?_⟩, ih (cutLevel_marked chunkSize h) ?_ hsizes.tail ?_ ?_⟩
      · intro o ho
        obtain ⟨x, hx, hreal, rfl⟩ := hcut o ho
        exact cutLevel_keeps chunkSize h hmatch x hx hreal
      · intro s hs hnew
        obtain ⟨x, hx, hoff, -, hlong | hreal⟩ := cutLevel_ends chunkSize h s hs
        · exact hlong
        · exact absurd (hoff ▸ hmark x hx hreal) hnew
      · exact cutLevel_marksMatch_head chunkSize h hmatch hsizes
      · exact (cutLevel_cuts chunkSize h hmatch).1
      · exact (cutLevel_cuts chunkSize h hmatch).2

/-- Levels whose masks get weaker refine each other. -/
theorem cutLevels_isChain {e chunkSize : Nat} {sizes : List Nat} {m : List (RabinBoundary × Bool)}
    (h : Marked e 0 m) (hmarks : MarksMatch e chunkSize m)
    (hsizes : (chunkSize :: sizes).IsChain (fun a b => ∀ f, matchesSize f a → matchesSize f b)) :
    (cutLevels (chunkSize :: sizes) m).IsChain Refines := by
  rw [cutLevels]
  refine cutLevels_chain (cutLevel_marked chunkSize h) ?_ hsizes.tail (cutLevel_cuts chunkSize h hmarks).1
    (cutLevel_cuts chunkSize h hmarks).2
  exact cutLevel_marksMatch_head chunkSize h hmarks hsizes

/-! ## The names of the levels -/

/-- The entries for the chunks of one level, written from `index` on. -/
def namesOf (table : NameTable) (psrc : Bytes) (level : Nat) : Nat → List (Nat × Nat) → List OneChunkName
  | _, [] => []
  | index, s :: spans =>
      freshChunk (table index) index level s.1 s.2 (psrc.drop s.1) :: namesOf table psrc level (index + 1) spans

/-- The entries of `pli` and the names of all levels. -/
def levelNames (table : NameTable) (psrc : Bytes) :
    Nat → Nat → List (List (Nat × Nat)) → List (MRCPerLevelInfo × List OneChunkName)
  | _, _, [] => []
  | level, index, L :: levels =>
      (⟨L.length, index⟩, namesOf table psrc level index L) ::
        levelNames table psrc (level + 1) (index + L.length) levels

@[simp] theorem namesOf_length (table : NameTable) (psrc : Bytes) (level index : Nat) (spans : List (Nat × Nat)) :
    (namesOf table psrc level index spans).length = spans.length := by
  induction spans generalizing index with
  | nil => rfl
  | cons s spans ih => simp [namesOf, ih]

@[simp] theorem levelNames_length (table : NameTable) (psrc : Bytes) (level index : Nat)
    (levels : List (List (Nat × Nat))) : (levelNames table psrc level index levels).length = levels.length := by
  induction levels generalizing level index with
  | nil => rfl
  | cons L levels ih => simp [levelNames, ih]

section Fill

variable {table : NameTable} {rbSize chunkSize level index e last : Nat} {psrc : Bytes}
  {m : List (RabinBoundary × Bool)}

/-- The loop over one level writes the names of its cuts when they fit the table; at level 0 each cut
has to span the whole block. -/
theorem fillLevel_eq (table : NameTable) (maxNames rbSize chunkSize level index : Nat) (psrc : Bytes) (h : Marked e last m)
    (hlevel : level = 0 → ∀ s ∈ (cutLevel chunkSize m last).1, s.2 = rbSize)
    (hfit : index + (cutLevel chunkSize m last).1.length ≤ maxNames) :
    fillLevel table maxNames rbSize chunkSize level m index last (psrc.drop last) =
      .ok (namesOf table psrc level index (cutLevel chunkSize m last).1,
        (cutLevel chunkSize m last).2.map Prod.snd) := by
  induction last, m, h using Marked.induction chunkSize generalizing index with
  | nil h => rfl
  | cut last b real rest h hcut ih =>
      have hlt := h.lt
      have hlong : ¬ (b.offset - last ≤ waproxMinChunkSize ∧ real = false) := by
        rintro ⟨hshort, hfalse⟩
        rcases hcut.2 with hl | hr
        · omega
        · simp [hfalse] at hr
      rw [cutLevel_cut hcut] at hlevel hfit ⊢
      simp only [List.length_cons] at hfit
      have hdrop : (psrc.drop last).drop (b.offset - last) = psrc.drop b.offset := by
        rw [List.drop_drop]
        congr 1
        omega
      rw [fillLevel, if_pos hcut.1]
      simp only [if_neg hlong, hdrop]
      rw [check_of (fun h0 => hlevel h0 _ List.mem_cons_self), inBounds_of (by omega), check_of (by omega),
        Run.ok_bind, Run.ok_bind, Run.ok_bind,
        ih (index + 1) (fun h0 s hs => hlevel h0 s (List.mem_cons_of_mem _ hs)) (by omega)]
      rfl
  | skip last b real rest h hne hskip ih =>
      rw [cutLevel_skip hskip] at hlevel hfit ⊢
      rw [fillLevel]
      by_cases hmatch : matchesSize b.finger chunkSize ∨ rest = []
      · have hshort : b.offset - last ≤ waproxMinChunkSize ∧ real = false := by
          have hneither := fun hc => hskip ⟨hmatch, hc⟩
          simpa [not_or] using hneither
        rw [if_pos hmatch]
        simp only [if_pos hshort]
        rw [ih index hlevel hfit]
        rfl
      · rw [if_neg hmatch, ih index hlevel hfit]
        rfl

/-- The loop over the levels writes the names of all of them. -/
theorem levelLoop_eq {cfg : Config} {bs : List RabinBoundary} {fuel : Nat} (hmin : 0 < cfg.minChunkSize)
    (hways : 0 < cfg.numMRCWays) (hfuel : chunkSize < fuel) (h : Marked e 0 m) (hbs : m.map Prod.fst = bs)
    (hroot : level = 0 → ∀ L ∈ (cutLevels (levelSizes cfg.minChunkSize cfg.numMRCWays fuel chunkSize) m).head?,
      ∀ s ∈ L, s.2 = rbSize)
    (hlevels : level + (levelSizes cfg.minChunkSize cfg.numMRCWays fuel chunkSize).length ≤ cfg.maxLevel)
    (hindex : index ≤ cfg.chunkSize * level) (hfit : bs.length ≤ cfg.chunkSize) :
    levelLoop cfg table rbSize psrc bs fuel chunkSize level index (m.map Prod.snd) =
      .ok (levelNames table psrc level index
        (cutLevels (levelSizes cfg.minChunkSize cfg.numMRCWays fuel chunkSize) m)) := by
  induction fuel generalizing chunkSize level index m with
  | zero => omega
  | succ fuel ih =>
      rw [levelLoop, levelSizes]
      rw [levelSizes] at hroot hlevels
      by_cases hsmall : chunkSize < cfg.minChunkSize
      · simp only [if_pos hsmall]
        rfl
      · simp only [if_neg hsmall] at hroot hlevels ⊢
        have hzip : bs.zip (m.map Prod.snd) = m := (List.zip_of_prod hbs rfl).symm
        have hlen : (cutLevel chunkSize m 0).1.length ≤ cfg.chunkSize := by
          have hle := cutLevel_length_le chunkSize m 0
          have hmlen : m.length = bs.length := by rw [← hbs, List.length_map]
          omega
        -- the levels so far hold at most `g_ChunkSize` names each
        have hroom : level < cfg.maxLevel → index + (cutLevel chunkSize m 0).1.length ≤ cfg.maxNames := by
          intro hlt
          have hmul : cfg.chunkSize * (level + 1) ≤ cfg.chunkSize * cfg.maxLevel := Nat.mul_le_mul_left _ hlt
          rw [Nat.mul_succ] at hmul
          unfold Config.maxNames
          omega
        by_cases hsingle : cfg.numMRCWays = 1
        · simp only [if_pos hsingle, List.length_singleton] at hroot hlevels ⊢
          have hlt : level < cfg.maxLevel := by omega
          have hfill := fillLevel_eq table cfg.maxNames rbSize chunkSize level index psrc h
            (fun h0 => hroot h0 _ rfl) (hroom hlt)
          rw [List.drop_zero] at hfill
          rw [inBounds_of hlt, Run.ok_bind, hzip, hfill, Run.ok_bind]
          simp [cutLevels, levelNames]
        · simp only [if_neg hsingle, List.length_cons] at hroot hlevels ⊢
          have hlt : level < cfg.maxLevel := by omega
          have hfill := fillLevel_eq table cfg.maxNames rbSize chunkSize level index psrc h
            (fun h0 => hroot h0 _ rfl) (hroom hlt)
          rw [List.drop_zero] at hfill
          have hdiv : chunkSize / cfg.numMRCWays < chunkSize := Nat.div_lt_self (by omega) (by omega)
          rw [inBounds_of hlt, Run.ok_bind, hzip, hfill, Run.ok_bind]
          simp only [namesOf_length, cutLevels, levelNames]
          rw [ih (by omega) (cutLevel_marked chunkSize h) (by rw [cutLevel_fst, hbs]) (by omega) (by omega)
            (by rw [Nat.mul_succ]; omega)]
          rfl

end Fill

end BeagleCache
