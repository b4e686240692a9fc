import BeagleCache.Collapse
import BeagleCache.Resolve

/-! `GetCandidateList2` on a resolved tree. The loop over a level flushes one group of siblings after the
other; `MidMarks` says which entries are marked when the groups before a position were flushed. When all
levels are done the marks are the chosen nodes of the tree, so the candidates tile the block. -/

namespace BeagleCache

open Tiling Collapse Run

/-- The tree down to level `low`. -/
def ChunkTree.levelTree {psrc : Bytes} {rbSize numNames : Nat} {pli : List MRCPerLevelInfo} {names : NameTable}
    (ht : ChunkTree psrc rbSize numNames pli names) {low : Nat} (hlow : low < pli.length) : LevelTree Nat where
  node := fun k => k < numNames ∧ (names k).level ≤ low
  level := fun k => (names k).level
  parent := parentOf names
  off := offOf names
  len := lenOf names
  low := low
  size := rbSize
  level_le := fun hk => hk.2
  parent_node := by
    intro k hk hpos
    obtain ⟨-, hlt, hlevel, -⟩ := ht.parent_spec hk.1 ((ht.level_pos_iff hk.1).mp hpos)
    exact ⟨by have := hk.1; omega, by have := hk.2; omega⟩
  parent_level := fun hk hpos => (ht.parent_spec hk.1 ((ht.level_pos_iff hk.1).mp hpos)).2.2.1
  inside := fun hk hpos => (ht.parent_spec hk.1 ((ht.level_pos_iff hk.1).mp hpos)).2.2.2
  within := fun hk => ⟨(ht.chunk_bounds hk.1).2, (ht.chunk_bounds hk.1).1⟩
  cover := by
    intro i hi x hx
    obtain ⟨k, hk, hkx⟩ := tiles_cover (ht.tiles i (by omega)) (Nat.zero_le x) hx
    obtain ⟨hnum, hlevel⟩ := (ht.mem_range_iff (by omega)).mp hk
    exact ⟨k, ⟨hnum, by omega⟩, hlevel, hkx⟩
  unique := by
    intro k k' x hk hk' hlevel hkx hkx'
    obtain ⟨hi, hmem⟩ := ht.mem_level hk.1
    have hmem' := (ht.mem_level hk'.1).2
    rw [← hlevel] at hmem'
    exact tiles_unique (ht.tiles _ hi) hmem hmem' hkx hkx'

/-- The entry `k` is a hit. -/
def HitIn (names : NameTable) (k : Nat) : Prop := (names k).isHit = true

/-- Two tables that differ in marks at most. -/
def SameButMarks (names names' : NameTable) : Prop :=
  ∀ k, names' k = { names k with isCandidate := (names' k).isCandidate }

namespace SameButMarks

variable {names names' names'' : NameTable}

theorem refl (names : NameTable) : SameButMarks names names := fun _ => rfl

theorem trans (h : SameButMarks names names') (h' : SameButMarks names' names'') : SameButMarks names names'' := by
  intro k
  rw [h' k, h k]

theorem sameTree (h : SameButMarks names names') : SameTree names names' := by
  intro k
  rw [h k]
  rfl

theorem isHit_eq (h : SameButMarks names names') (k : Nat) : (names' k).isHit = (names k).isHit := by rw [h k]

theorem isSha1Ready_eq (h : SameButMarks names names') (k : Nat) :
    (names' k).isSha1Ready = (names k).isSha1Ready := by rw [h k]

theorem sha1name_eq (h : SameButMarks names names') (k : Nat) : (names' k).sha1name = (names k).sha1name := by rw [h k]

theorem parentOf_eq (h : SameButMarks names names') (k : Nat) : parentOf names' k = parentOf names k := by
  rw [parentOf, h.sameTree.parentIdx_eq, parentOf]

end SameButMarks

theorem sameButMarks_setCandidates (names : NameTable) (idxs : List Nat) (b : Bool) :
    SameButMarks names (setCandidates names idxs b) := by
  intro k
  simp only [setCandidates]
  split <;> rfl

theorem setCandidates_mark (names : NameTable) (idxs : List Nat) (b : Bool) (k : Nat) :
    (setCandidates names idxs b k).isCandidate = if k ∈ idxs then b else (names k).isCandidate := by
  simp only [setCandidates]
  split <;> rfl

section Marks

variable (T : LevelTree Nat) (hit : Nat → Prop)

/-- Which entries are marked when level `i` was flushed up to the position `s`: entries further down and
those of level `i` before `s` are marked when they collapse and their parent does not, the others of
level `i` when they collapse, and entries of the level above when they collapse and all their children lie
before `s`. -/
def MidMarks (numNames i s : Nat) (names : NameTable) : Prop :=
  ∀ k, k < numNames → ((names k).isCandidate = true ↔ Collapsed T hit k ∧
    ((i < T.level k ∧ ¬ Collapsed T hit (T.parent k)) ∨
      (T.level k = i ∧ (s ≤ k ∨ ¬ Collapsed T hit (T.parent k))) ∨
      (T.level k + 1 = i ∧ ∀ c, T.Child c k → c < s)))

end Marks

section Flush

variable {psrc : Bytes} {rbSize numNames : Nat} {pli : List MRCPerLevelInfo} {base names : NameTable}
  (ht : ChunkTree psrc rbSize numNames pli base) {low : Nat} (hlow : low < pli.length)

theorem checkSiblings_eq (ht : ChunkTree psrc rbSize numNames pli names) {p : Nat} {stack : List Nat}
    (hstack : ∀ k ∈ stack, k < numNames ∧ k ≠ 0 ∧ parentOf names k = p) : checkSiblings names p stack = .ok () := by
  induction stack with
  | nil => rfl
  | cons k rest ih =>
      obtain ⟨hk, hne, hp⟩ := hstack k (by simp)
      rw [checkSiblings, ht.getParent2_eq hk, ok_bind, if_neg hne, hp, check_of rfl, ok_bind]
      exact ih fun j hj => hstack j (List.mem_cons_of_mem k hj)

theorem flushChildren_eq (ht : ChunkTree psrc rbSize numNames pli names) {p : Nat} {stack : List Nat} (hne : stack ≠ [])
    (hstack : ∀ k ∈ stack, k < numNames ∧ k ≠ 0 ∧ parentOf names k = p) :
    flushChildren names stack = .ok (
      if ∀ k ∈ stack, (names k).isCandidate = true then
        if (∀ k ∈ stack, ¬ (names k).isHit = true) ∨ ∀ k ∈ stack, (names k).isHit = true then
          setCandidates (setCandidates names stack false) [p] true
        else setCandidates (setCandidates names stack true) [p] false
      else names) := by
  have hlen : 1 ≤ stack.length := List.length_pos_of_ne_nil hne
  obtain ⟨first, rest, hcons⟩ := List.exists_cons_of_ne_nil hne
  obtain ⟨hfirst, hfirst0, hfirstp⟩ := hstack first (by simp [hcons])
  have hhead : getParent2 names (stack.headD 0) = .ok p := by
    rw [hcons, List.headD_cons, ht.getParent2_eq hfirst, if_neg hfirst0, hfirstp]
  unfold flushChildren
  rw [check_of hlen, ok_bind, hhead, ok_bind, checkSiblings_eq ht hstack, ok_bind]
  simp only
  by_cases hall : ∀ k ∈ stack, (names k).isCandidate = true
  · have hcount : stack.countP (fun k => (names k).isCandidate) = stack.length := List.countP_eq_length.mpr hall
    rw [if_neg (by omega), check_of hcount, ok_bind, if_pos hall]
    have hhits : (stack.countP (fun k => (names k).isHit) = 0 ∨ stack.countP (fun k => (names k).isHit) = stack.length) ↔
        (∀ k ∈ stack, ¬ (names k).isHit = true) ∨ ∀ k ∈ stack, (names k).isHit = true := by
      rw [List.countP_eq_zero, List.countP_eq_length]
    simp only [hhits]
    split <;> rfl
  · have hcount : stack.countP (fun k => (names k).isCandidate) < stack.length := by
      apply lt_of_le_of_ne (List.countP_le_length ..)
      intro heq
      exact hall (List.countP_eq_length.mp heq)
    rw [if_pos hcount, if_neg hall]
    rfl

/-- The marks after a group of siblings was flushed: the group's marks are gone where the parent
collapses, and the parent is marked then. -/
theorem flushChildren_marks (hnames : SameButMarks base names) {p : Nat} {stack : List Nat} (hne : stack ≠ [])
    (hp : (ht.levelTree hlow).node p) (hplow : (base p).level < low)
    (hstack : ∀ k, k ∈ stack ↔ (ht.levelTree hlow).Child k p)
    (hmarked : ∀ k ∈ stack, (names k).isCandidate = true ↔ Collapsed (ht.levelTree hlow) (HitIn base) k)
    (hparent : (names p).isCandidate = false) :
    ∃ names', flushChildren names stack = .ok names' ∧ SameButMarks base names' ∧
      ∀ k, (names' k).isCandidate = true ↔
        if k ∈ stack then Collapsed (ht.levelTree hlow) (HitIn base) k ∧ ¬ Collapsed (ht.levelTree hlow) (HitIn base) p
        else if k = p then Collapsed (ht.levelTree hlow) (HitIn base) p
        else (names k).isCandidate = true := by
  have htree := hnames.sameTree.tree ht
  have hsiblings : ∀ k ∈ stack, k < numNames ∧ k ≠ 0 ∧ parentOf names k = p := by
    intro k hk
    obtain ⟨hnode, hpos, hkp⟩ := (hstack k).mp hk
    exact ⟨hnode.1, (ht.level_pos_iff hnode.1).mp hpos, (hnames.parentOf_eq k).trans hkp⟩
  have hpnot : p ∉ stack := by
    intro hmem
    have := ((hstack p).mp hmem).level_eq
    omega
  have hcollapse := collapsed_iff (HitIn base) hp hplow
  refine ⟨_, flushChildren_eq htree hne hsiblings, ?_, ?_⟩
  · split
    · split
      · exact (hnames.trans (sameButMarks_setCandidates _ _ _)).trans (sameButMarks_setCandidates _ _ _)
      · exact (hnames.trans (sameButMarks_setCandidates _ _ _)).trans (sameButMarks_setCandidates _ _ _)
    · exact hnames
  · by_cases hall : ∀ k ∈ stack, (names k).isCandidate = true
    · have hchildren : ∀ c, (ht.levelTree hlow).Child c p → Collapsed (ht.levelTree hlow) (HitIn base) c :=
        fun c hc => (hmarked c ((hstack c).mpr hc)).mp (hall c ((hstack c).mpr hc))
      rw [if_pos hall]
      by_cases huniform : (∀ k ∈ stack, ¬ (names k).isHit = true) ∨ ∀ k ∈ stack, (names k).isHit = true
      · have hcol : Collapsed (ht.levelTree hlow) (HitIn base) p := by
          refine hcollapse.mpr ⟨hchildren, ?_⟩
          rcases huniform with hmiss | hhit
          · refine .inr fun c hc => ?_
            rw [HitIn, ← hnames.isHit_eq]
            exact hmiss c ((hstack c).mpr hc)
          · refine .inl fun c hc => ?_
            rw [HitIn, ← hnames.isHit_eq]
            exact hhit c ((hstack c).mpr hc)
        intro k
        rw [if_pos huniform, setCandidates_mark, setCandidates_mark]
        simp only [List.mem_singleton]
        by_cases hkp : k = p
        · simp [hkp, hpnot, hcol]
        · by_cases hks : k ∈ stack <;> simp [hkp, hks, hcol]
      · have hcol : ¬ Collapsed (ht.levelTree hlow) (HitIn base) p := by
          intro hcol
          rcases hcol.uniform with hhit | hmiss
          · refine huniform (.inr fun k hk => ?_)
            rw [hnames.isHit_eq]
            exact hhit k ((hstack k).mp hk)
          · refine huniform (.inl fun k hk => ?_)
            rw [hnames.isHit_eq]
            exact hmiss k ((hstack k).mp hk)
        intro k
        rw [if_neg huniform, setCandidates_mark, setCandidates_mark]
        simp only [List.mem_singleton]
        by_cases hkp : k = p
        · simp [hkp, hpnot, hcol]
        · by_cases hks : k ∈ stack
          · simp [hkp, hks, hcol, hchildren k ((hstack k).mp hks)]
          · simp [hkp, hks]
    · have hcol : ¬ Collapsed (ht.levelTree hlow) (HitIn base) p := by
        intro hcol
        exact hall fun k hk => (hmarked k hk).mpr (hcol.child ((hstack k).mp hk))
      intro k
      rw [if_neg hall]
      by_cases hks : k ∈ stack
      · simp [hks, hmarked k hks, hcol]
      · by_cases hkp : k = p
        · simp [hkp, hpnot, hcol, hparent]
        · simp [hks, hkp]

theorem flushGroup (hnames : SameButMarks base names) {i s m p : Nat} (hm : 0 < m)
    (hp : (ht.levelTree hlow).node p) (hlevel : (base p).level + 1 = i) (hi : i ≤ low)
    (hgroup : ∀ k, s ≤ k ∧ k < s + m ↔ (ht.levelTree hlow).Child k p)
    (hmid : MidMarks (ht.levelTree hlow) (HitIn base) numNames i s names) :
    ∃ names', flushChildren names (List.range' s m) = .ok names' ∧ SameButMarks base names' ∧
      MidMarks (ht.levelTree hlow) (HitIn base) numNames i (s + m) names' := by
  have hstack : ∀ k, k ∈ List.range' s m ↔ (ht.levelTree hlow).Child k p := by
    intro k
    rw [List.mem_range'_1]
    exact hgroup k
  have hne : List.range' s m ≠ [] := by
    intro hnil
    have := congrArg List.length hnil
    simp only [List.length_range', List.length_nil] at this
    omega
  have hchildlevel : ∀ k, (ht.levelTree hlow).Child k p → (base k).level = i := by
    intro k hk
    have : (base k).level = (base p).level + 1 := hk.level_eq
    omega
  have hmarked : ∀ k ∈ List.range' s m,
      (names k).isCandidate = true ↔ Collapsed (ht.levelTree hlow) (HitIn base) k := by
    intro k hk
    have hchild := (hstack k).mp hk
    rw [hmid k hchild.1.1]
    have hk1 := (List.mem_range'_1.mp hk).1
    have hklevel : (ht.levelTree hlow).level k = i := hchildlevel k hchild
    simp [hklevel, hk1]
  have hparent : (names p).isCandidate = false := by
    by_contra hmark
    have hmark : (names p).isCandidate = true := by simpa using hmark
    have hpl : (ht.levelTree hlow).level p + 1 = i := hlevel
    obtain ⟨-, hlt | ⟨heq, -⟩ | ⟨-, hall⟩⟩ := (hmid p hp.1).mp hmark
    · omega
    · omega
    · have := hall s ((hgroup s).mp ⟨le_refl s, by omega⟩)
      omega
  obtain ⟨names', hrun, hsame, hmarks⟩ := flushChildren_marks ht hlow hnames hne hp (by omega) hstack hmarked hparent
  refine ⟨names', hrun, hsame, ?_⟩
  intro k hk
  rw [hmarks k]
  by_cases hks : k ∈ List.range' s m
  · rw [if_pos hks]
    have hchild := (hstack k).mp hks
    have hklevel : (ht.levelTree hlow).level k = i := hchildlevel k hchild
    have hkp : (ht.levelTree hlow).parent k = p := hchild.2.2
    have hk2 : ¬ s + m ≤ k := by have := (List.mem_range'_1.mp hks).2; omega
    simp [hklevel, hkp, hk2]
  · rw [if_neg hks]
    by_cases hkp : k = p
    · rw [if_pos hkp, hkp]
      have hpl : (ht.levelTree hlow).level p + 1 = i := hlevel
      have hbefore : ∀ c, (ht.levelTree hlow).Child c p → c < s + m := fun c hc => ((hgroup c).mpr hc).2
      constructor
      · intro hcol
        exact ⟨hcol, .inr (.inr ⟨hpl, hbefore⟩)⟩
      · exact fun h => h.1
    · rw [if_neg hkp, hmid k hk]
      -- nothing else lies between `s` and `s + m`
      have hpos : s ≤ k ↔ s + m ≤ k := by
        rw [List.mem_range'_1] at hks
        omega
      have hchildren : (∀ c, (ht.levelTree hlow).Child c k → c < s) ↔ ∀ c, (ht.levelTree hlow).Child c k → c < s + m := by
        constructor
        · intro h c hc
          have := h c hc
          omega
        · intro h c hc
          by_contra hge
          have hcp := (hgroup c).mp ⟨by omega, h c hc⟩
          exact hkp (hc.2.2.symm.trans hcp.2.2)
      rw [hpos, hchildren]

include ht in
theorem parent_mono {i x y : Nat} (hi : i + 1 < pli.length) (hx : x ∈ (pli.getD (i + 1) default).range)
    (hy : y ∈ (pli.getD (i + 1) default).range) (hxy : x < y) : parentOf base x ≤ parentOf base y := by
  obtain ⟨p, hp, hpx, hxin⟩ := ht.parented i hi x hx
  obtain ⟨q, hq, hqy, hyin⟩ := ht.parented i hi y hy
  have hxp : parentOf base x = p := by rw [parentOf, hpx, Option.getD_some]
  have hyq : parentOf base y = q := by rw [parentOf, hqy, Option.getD_some]
  rw [hxp, hyq]
  by_contra hlt
  have hylen := (tiles_mem (ht.tiles (i + 1) hi) hy).2.2
  rw [MRCPerLevelInfo.mem_range] at hx hy hp hq
  have hchildren := tiles_range'_lt (ht.tiles (i + 1) hi) hx.1 hxy hy.2
  have hparents := tiles_range'_lt (ht.tiles i (by omega)) hq.1 (show q < p by omega) hp.2
  obtain ⟨h1, h2⟩ := hxin
  obtain ⟨h3, h4⟩ := hyin
  omega

/-- The entries of level `i` before `s` have other parents than those from `s` on. -/
def GroupStart (base : NameTable) (level : MRCPerLevelInfo) (s : Nat) : Prop :=
  ∀ x ∈ level.range, ∀ y ∈ level.range, x < s → s ≤ y → parentOf base x ≠ parentOf base y

include ht in
theorem groupStart_succ {i c : Nat} (hi : i + 1 < pli.length) (hc : c ∈ (pli.getD (i + 1) default).range)
    (hnext : c + 1 ∈ (pli.getD (i + 1) default).range → parentOf base (c + 1) ≠ parentOf base c) :
    GroupStart base (pli.getD (i + 1) default) (c + 1) := by
  intro x hx y hy hxc hcy heq
  have hcy' := hy
  have hc' := hc
  rw [MRCPerLevelInfo.mem_range] at hcy' hc'
  have hmem : c + 1 ∈ (pli.getD (i + 1) default).range := MRCPerLevelInfo.mem_range.mpr ⟨by omega, by omega⟩
  have hxle : parentOf base x ≤ parentOf base c := by
    rcases Nat.lt_or_eq_of_le (Nat.le_of_lt_succ hxc) with hlt | rfl
    · exact parent_mono ht hi hx hc hlt
    · exact le_refl _
  have hcle := parent_mono ht hi hc hmem (by omega)
  have hyle : parentOf base (c + 1) ≤ parentOf base y := by
    rcases Nat.lt_or_eq_of_le hcy with hlt | rfl
    · exact parent_mono ht hi hmem hy hlt
    · exact le_refl _
  have := hnext hmem
  omega

include ht in
/-- The assertions of the loop body hold at `c`, and the child is pushed. -/
theorem flushLevel_checks (hnames : SameButMarks base names) {i maxNames : Nat} (hi : i + 1 < pli.length)
    (hmax : (pli.getD (i + 1) default).numNames < maxNames) {c s : Nat}
    (hc : c ∈ (pli.getD (i + 1) default).range) (hs : (pli.getD (i + 1) default).firstIndex ≤ s) (hsc : s ≤ c) :
    getParent2 names c = .ok (parentOf base c) ∧ c < numNames ∧ parentOf base c < numNames ∧ parentOf base c ≤ c ∧
      List.range' s (c - s) ++ [c] = List.range' s (c + 1 - s) ∧ (List.range' s (c - s)).length < maxNames ∧
      (List.range' s (c + 1 - s)).length < maxNames := by
  obtain ⟨hnum, hlevel⟩ := (ht.mem_range_iff hi).mp hc
  have hne : c ≠ 0 := (ht.level_pos_iff hnum).mp (by omega)
  have hplt := (ht.parent_spec hnum hne).2.1
  rw [MRCPerLevelInfo.mem_range] at hc
  refine ⟨?_, hnum, by omega, by omega, ?_, ?_, ?_⟩
  · rw [(hnames.sameTree.tree ht).getParent2_eq hnum, if_neg hne, hnames.parentOf_eq]
  · rw [show c + 1 - s = c - s + 1 by omega, List.range'_concat, Nat.one_mul, show s + (c - s) = c by omega]
  · rw [List.length_range']
    omega
  · rw [List.length_range']
    omega

/-- The group from `s` to `c` is flushed when the next group starts behind `c`. -/
theorem flushGroup_to (hnames : SameButMarks base names) {i c s : Nat} (hi : i + 1 ≤ low)
    (hc : c ∈ (pli.getD (i + 1) default).range) (hs : (pli.getD (i + 1) default).firstIndex ≤ s) (hsc : s ≤ c)
    (hstart : GroupStart base (pli.getD (i + 1) default) s)
    (hnext : GroupStart base (pli.getD (i + 1) default) (c + 1))
    (hstack : ∀ x, s ≤ x → x < c → parentOf base x = parentOf base c)
    (hmid : MidMarks (ht.levelTree hlow) (HitIn base) numNames (i + 1) s names) :
    ∃ names', flushChildren names (List.range' s (c + 1 - s)) = .ok names' ∧ SameButMarks base names' ∧
      MidMarks (ht.levelTree hlow) (HitIn base) numNames (i + 1) (c + 1) names' := by
  have hi' : i + 1 < pli.length := by omega
  obtain ⟨hnum, hlevel⟩ := (ht.mem_range_iff hi').mp hc
  have hne : c ≠ 0 := (ht.level_pos_iff hnum).mp (by omega)
  obtain ⟨-, hplt, hplevel, -⟩ := ht.parent_spec hnum hne
  have hp : (ht.levelTree hlow).node (parentOf base c) := ⟨by omega, by omega⟩
  have hgroup : ∀ k, s ≤ k ∧ k < s + (c + 1 - s) ↔ (ht.levelTree hlow).Child k (parentOf base c) := by
    intro k
    constructor
    · rintro ⟨hsk, hkc⟩
      have hrange := MRCPerLevelInfo.mem_range.mp hc
      have hk : k ∈ (pli.getD (i + 1) default).range := MRCPerLevelInfo.mem_range.mpr ⟨by omega, by omega⟩
      obtain ⟨hknum, hklevel⟩ := (ht.mem_range_iff hi').mp hk
      refine ⟨⟨hknum, by omega⟩, show 0 < (base k).level by omega, ?_⟩
      rcases Nat.lt_or_eq_of_le (show k ≤ c by omega) with hlt | rfl
      · exact hstack k hsk hlt
      · rfl
    · intro hchild
      have hklevel : (base k).level = (base (parentOf base c)).level + 1 := hchild.level_eq
      have hk : k ∈ (pli.getD (i + 1) default).range := (ht.mem_range_iff hi').mpr ⟨hchild.1.1, by omega⟩
      have hkp : parentOf base k = parentOf base c := hchild.2.2
      constructor
      · by_contra hlt
        exact hstart k hk c hc (by omega) hsc hkp
      · by_contra hge
        exact hnext c hc k hk (by omega) (by omega) hkp.symm
  obtain ⟨names', hrun, hsame, hmid'⟩ := flushGroup ht hlow hnames (show 0 < c + 1 - s by omega) hp (by omega) hi hgroup hmid
  rw [show s + (c + 1 - s) = c + 1 by omega] at hmid'
  exact ⟨names', hrun, hsame, hmid'⟩

/-- The loop over a level below the root flushes all its groups. -/
theorem flushLevel_eq (hnames : SameButMarks base names) {i maxNames : Nat} (hi : i + 1 ≤ low)
    (hmax : (pli.getD (i + 1) default).numNames < maxNames) {n c s : Nat}
    (hend : c + (n + 1) = (pli.getD (i + 1) default).firstIndex + (pli.getD (i + 1) default).numNames)
    (hs : (pli.getD (i + 1) default).firstIndex ≤ s) (hsc : s ≤ c)
    (hstart : GroupStart base (pli.getD (i + 1) default) s)
    (hstack : ∀ x, s ≤ x → x < c → parentOf base x = parentOf base c)
    (hmid : MidMarks (ht.levelTree hlow) (HitIn base) numNames (i + 1) s names) :
    ∃ names', flushLevel numNames maxNames (List.range' c (n + 1)) (List.range' s (c - s)) names = .ok names' ∧
      SameButMarks base names' ∧ MidMarks (ht.levelTree hlow) (HitIn base) numNames (i + 1)
        ((pli.getD (i + 1) default).firstIndex + (pli.getD (i + 1) default).numNames) names' := by
  have hi' : i + 1 < pli.length := by omega
  induction n generalizing c s names with
  | zero =>
      have hc : c ∈ (pli.getD (i + 1) default).range := MRCPerLevelInfo.mem_range.mpr ⟨by omega, by omega⟩
      have hnext : GroupStart base (pli.getD (i + 1) default) (c + 1) := by
        apply groupStart_succ ht hi' hc
        intro hmem
        rw [MRCPerLevelInfo.mem_range] at hmem
        omega
      obtain ⟨hp, hcnum, hpnum, hple, hpush, hroom, hlen⟩ := flushLevel_checks ht hnames hi' hmax hc hs hsc
      rw [List.range'_one, flushLevel, hp, ok_bind, check_of hcnum, check_of hpnum, check_of hple, inBounds_of hroom]
      simp only [ok_bind, hpush]
      rw [check_of hlen, ok_bind, ← hend]
      exact flushGroup_to ht hlow hnames hi hc hs hsc hstart hnext hstack hmid
  | succ n ih =>
      have hc : c ∈ (pli.getD (i + 1) default).range := MRCPerLevelInfo.mem_range.mpr ⟨by omega, by omega⟩
      have hc' : c + 1 ∈ (pli.getD (i + 1) default).range := MRCPerLevelInfo.mem_range.mpr ⟨by omega, by omega⟩
      obtain ⟨hnum, hlevel⟩ := (ht.mem_range_iff hi').mp hc'
      have hparent : getParent2 names (c + 1) = .ok (parentOf base (c + 1)) := by
        rw [(hnames.sameTree.tree ht).getParent2_eq hnum, if_neg (by omega), hnames.parentOf_eq]
      obtain ⟨hp, hcnum, hpnum, hple, hpush, hroom, hlen⟩ := flushLevel_checks ht hnames hi' hmax hc hs hsc
      rw [List.range'_succ, List.range'_succ, flushLevel, hp, ok_bind, check_of hcnum, check_of hpnum, check_of hple,
        inBounds_of hroom]
      simp only [ok_bind, hpush]
      rw [check_of hlen, ok_bind, hparent, ok_bind, ← List.range'_succ]
      by_cases hchange : parentOf base (c + 1) ≠ parentOf base c
      · have hnext := groupStart_succ ht hi' hc (fun _ => hchange)
        obtain ⟨names₁, hrun, hsame, hmid₁⟩ := flushGroup_to ht hlow hnames hi hc hs hsc hstart hnext hstack hmid
        obtain ⟨names', hrest, hsame', hmid'⟩ := ih hsame (by omega) (by omega) (le_refl (c + 1)) hnext
          (fun x h1 h2 => by omega) hmid₁
        refine ⟨names', ?_, hsame', hmid'⟩
        rw [if_pos hchange, hrun, ok_bind]
        rwa [Nat.sub_self] at hrest
      · obtain ⟨names', hrest, hsame', hmid'⟩ := ih hnames (c := c + 1) (s := s) (by omega) hs (by omega) hstart
          (by
            intro x h1 h2
            rcases Nat.lt_or_eq_of_le (Nat.le_of_lt_succ h2) with hlt | rfl
            · rw [hstack x h1 hlt]
              omega
            · omega) hmid
        refine ⟨names', ?_, hsame', hmid'⟩
        rw [if_neg hchange]
        exact hrest

/-! ## All levels -/

include ht in
theorem level_num_pos {i : Nat} (hi : i < pli.length) : 0 < (pli.getD i default).numNames := by
  by_contra hzero
  have htiles := ht.tiles i hi
  rw [MRCPerLevelInfo.range, show (pli.getD i default).numNames = 0 by omega] at htiles
  have : 0 = rbSize := htiles
  have := ht.size_pos
  omega

theorem exists_child {k : Nat} (hk : (ht.levelTree hlow).node k) (hlevel : (base k).level < low) :
    ∃ c, (ht.levelTree hlow).Child c k := by
  obtain ⟨hend, hpos⟩ := ht.chunk_bounds hk.1
  have hkx : Holds (offOf base) (lenOf base) k (offOf base k) := ⟨le_refl _, by omega⟩
  obtain ⟨c, hc, hclevel, hcx⟩ := (ht.levelTree hlow).cover ((base k).level + 1) hlevel (offOf base k)
    (show offOf base k < rbSize by omega)
  have hcpos : 0 < (ht.levelTree hlow).level c := by omega
  have hplevel := (ht.levelTree hlow).parent_level hc hcpos
  refine ⟨c, hc, hcpos, ?_⟩
  exact (ht.levelTree hlow).unique ((ht.levelTree hlow).parent_node hc hcpos) hk
    (show (ht.levelTree hlow).level _ = (base k).level by omega) ((ht.levelTree hlow).parent_holds hc hcpos hcx) hkx

/-- No entry above level `i` has all its children before level `i` starts. -/
theorem not_children_lt {i k : Nat} (hi : i ≤ low) (hk : (ht.levelTree hlow).node k)
    (hlevel : (ht.levelTree hlow).level k + 1 = i) :
    ¬ ∀ c, (ht.levelTree hlow).Child c k → c < (pli.getD i default).firstIndex := by
  intro hall
  have hlevel' : (base k).level + 1 = i := hlevel
  obtain ⟨c, hc⟩ := exists_child ht hlow hk (by omega)
  have hclevel : (base c).level = (base k).level + 1 := hc.level_eq
  have hmem := (ht.mem_range_iff (show i < pli.length by omega)).mpr ⟨hc.1.1, by omega⟩
  have := hall c hc
  rw [MRCPerLevelInfo.mem_range] at hmem
  omega

/-- When a level is done the next one up can start. -/
theorem midMarks_up {i : Nat} (hi : i + 1 ≤ low)
    (hmid : MidMarks (ht.levelTree hlow) (HitIn base) numNames (i + 1)
      ((pli.getD (i + 1) default).firstIndex + (pli.getD (i + 1) default).numNames) names) :
    MidMarks (ht.levelTree hlow) (HitIn base) numNames i (pli.getD i default).firstIndex names := by
  intro k hk
  rw [hmid k hk]
  apply and_congr_right
  intro hcol
  have hmem := (ht.mem_level hk).2
  rw [MRCPerLevelInfo.mem_range] at hmem
  by_cases h1 : (ht.levelTree hlow).level k = i + 1
  · have hlevel : (base k).level = i + 1 := h1
    rw [hlevel] at hmem
    constructor
    · rintro (⟨hlt, -⟩ | ⟨-, hge | hnc⟩ | ⟨heq, -⟩)
      · omega
      · omega
      · exact .inl ⟨by omega, hnc⟩
      · omega
    · rintro (⟨-, hnc⟩ | ⟨heq, -⟩ | ⟨heq, -⟩)
      · exact .inr (.inl ⟨h1, .inr hnc⟩)
      · omega
      · omega
  · by_cases h2 : (ht.levelTree hlow).level k = i
    · have hlevel : (base k).level = i := h2
      rw [hlevel] at hmem
      have hchildren : ∀ c, (ht.levelTree hlow).Child c k →
          c < (pli.getD (i + 1) default).firstIndex + (pli.getD (i + 1) default).numNames := by
        intro c hc
        have hclevel : (base c).level = (base k).level + 1 := hc.level_eq
        have hcmem := (ht.mem_range_iff (show i + 1 < pli.length by omega)).mpr ⟨hc.1.1, by omega⟩
        exact (MRCPerLevelInfo.mem_range.mp hcmem).2
      constructor
      · intro _
        exact .inr (.inl ⟨h2, .inl hmem.1⟩)
      · intro _
        exact .inr (.inr ⟨by omega, hchildren⟩)
    · have hnot := fun hl => not_children_lt ht hlow (show i ≤ low by omega) hcol.node hl
      constructor
      · rintro (⟨hlt, hnc⟩ | ⟨heq, -⟩ | ⟨heq, -⟩)
        · exact .inl ⟨by omega, hnc⟩
        · omega
        · omega
      · rintro (⟨hlt, hnc⟩ | ⟨heq, -⟩ | ⟨heq, hall⟩)
        · exact .inl ⟨by omega, hnc⟩
        · omega
        · exact absurd hall (hnot heq)

theorem midMarks_leaves (hunmarked : Unmarked base numNames) :
    MidMarks (ht.levelTree hlow) (HitIn base) numNames low (pli.getD low default).firstIndex
      (setCandidates base (pli.getD low default).range true) := by
  intro k hk
  rw [setCandidates_mark, hunmarked k hk]
  by_cases hlevel : (base k).level = low
  · have hmem := (ht.mem_range_iff hlow).mpr ⟨hk, hlevel⟩
    have hcol : Collapsed (ht.levelTree hlow) (HitIn base) k := .leaf ⟨hk, by omega⟩ hlevel
    rw [if_pos hmem]
    exact ⟨fun _ => ⟨hcol, .inr (.inl ⟨hlevel, .inl (MRCPerLevelInfo.mem_range.mp hmem).1⟩)⟩, fun _ => rfl⟩
  · have hmem : k ∉ (pli.getD low default).range := fun hmem => hlevel ((ht.mem_range_iff hlow).mp hmem).2
    rw [if_neg hmem]
    simp only [Bool.false_eq_true, false_iff, not_and]
    intro hcol
    have hle := (ht.levelTree hlow).level_le hcol.node
    have hlevel' : (ht.levelTree hlow).level k ≠ low := hlevel
    have hle' : (ht.levelTree hlow).level k ≤ low := hle
    rintro (⟨hlt, -⟩ | ⟨heq, -⟩ | ⟨heq, hall⟩)
    · omega
    · omega
    · exact not_children_lt ht hlow (le_refl low) hcol.node heq hall

include ht in
/-- The root is its own parent, so flushing it changes no mark. -/
theorem flushRoot_eq (hnames : SameButMarks base names) {maxNames : Nat} (hmax : 1 < maxNames) :
    ∃ names', flushLevel numNames maxNames [0] [] names = .ok names' ∧ SameButMarks base names' ∧
      ∀ k, (names' k).isCandidate = (names k).isCandidate := by
  have htree := hnames.sameTree.tree ht
  have hparent : getParent2 names 0 = .ok 0 := rfl
  have hrun : flushLevel numNames maxNames [0] [] names = flushChildren names [0] := by
    rw [flushLevel, hparent, ok_bind, check_of ht.num_pos, check_of (le_refl 0), inBounds_of (by simp; omega)]
    simp only [ok_bind, List.nil_append]
    rw [check_of (by simpa using hmax), ok_bind]
  have hsiblings : checkSiblings names 0 [0] = .ok () := rfl
  rw [hrun]
  unfold flushChildren
  simp only [List.headD_cons]
  rw [check_of (by simp), ok_bind, hparent, ok_bind, hsiblings, ok_bind]
  by_cases hmark : (names 0).isCandidate = true
  · refine ⟨setCandidates (setCandidates names [0] false) [0] true, ?_, ?_, ?_⟩
    · rw [if_neg (by simp [hmark]), check_of (by simp [hmark]), ok_bind, if_pos]
      · rfl
      · cases hhit : (names 0).isHit <;> simp [hhit]
    · exact (hnames.trans (sameButMarks_setCandidates _ _ _)).trans (sameButMarks_setCandidates _ _ _)
    · intro k
      rw [setCandidates_mark, setCandidates_mark]
      by_cases hk : k = 0 <;> simp [hk, hmark]
  · refine ⟨names, ?_, hnames, fun _ => rfl⟩
    rw [if_pos (by simp [hmark])]
    rfl

/-- The loop over the levels. -/
theorem flushLevels_eq (hnames : SameButMarks base names) {i maxNames : Nat} (hmax : 1 < maxNames) (hnum : numNames ≤ maxNames)
    (hi : i ≤ low) (hmid : MidMarks (ht.levelTree hlow) (HitIn base) numNames i (pli.getD i default).firstIndex names) :
    ∃ names', flushLevels numNames maxNames pli (i + 1) names = .ok names' ∧ SameButMarks base names' ∧
      MidMarks (ht.levelTree hlow) (HitIn base) numNames 0 0 names' := by
  induction i generalizing names with
  | zero =>
      rw [ht.root] at hmid
      obtain ⟨names', hrun, hsame, hmarks⟩ := flushRoot_eq ht hnames hmax
      refine ⟨names', ?_, hsame, ?_⟩
      · rw [flushLevels, ht.root]
        simp only [List.range'_one]
        rw [hrun]
        rfl
      · intro k hk
        rw [hmarks k]
        exact hmid k hk
  | succ i ih =>
      have hlen : i + 1 < pli.length := by omega
      have hpos := level_num_pos ht hlen
      obtain ⟨n, hn⟩ := Nat.exists_eq_succ_of_ne_zero (show (pli.getD (i + 1) default).numNames ≠ 0 by omega)
      have hfirst : 1 ≤ (pli.getD (i + 1) default).firstIndex := by
        have hmono := ht.first_mono (Nat.zero_le i) (show i < pli.length by omega)
        have hsucc := ht.first_succ i hlen
        rw [ht.root] at hmono
        simp only at hmono
        omega
      have hbound := ht.bounds (i + 1) hlen
      have hstart : GroupStart base (pli.getD (i + 1) default) (pli.getD (i + 1) default).firstIndex := by
        intro x hx y _ hlt
        rw [MRCPerLevelInfo.mem_range] at hx
        omega
      obtain ⟨names₁, hrun, hsame, hmid₁⟩ := flushLevel_eq ht hlow hnames hi (show _ < maxNames by omega)
        (show _ + (n + 1) = _ by rw [hn]) (le_refl _) (le_refl _) hstart (fun x h1 h2 => by omega) hmid
      obtain ⟨names', hrest, hsame', hmid'⟩ := ih hsame (by omega) (midMarks_up ht hlow hi hmid₁)
      refine ⟨names', ?_, hsame', hmid'⟩
      rw [flushLevels]
      simp only [hn]
      rw [Nat.sub_self] at hrun
      rw [show List.range' (pli.getD (i + 1) default).firstIndex n.succ =
        List.range' (pli.getD (i + 1) default).firstIndex (n + 1) from rfl]
      rw [show ([] : List Nat) = List.range' (pli.getD (i + 1) default).firstIndex 0 from rfl, hrun, ok_bind, hrest]

/-- When all levels are done the marks are the chosen nodes. -/
theorem midMarks_chosen (hmid : MidMarks (ht.levelTree hlow) (HitIn base) numNames 0 0 names) {k : Nat} (hk : k < numNames) :
    (names k).isCandidate = true ↔ Chosen (ht.levelTree hlow) (HitIn base) k := by
  rw [hmid k hk, Chosen]
  apply and_congr_right
  intro _
  by_cases hzero : (ht.levelTree hlow).level k = 0
  · simp [hzero]
  · simp [hzero, Nat.pos_of_ne_zero hzero]

theorem mergeCandidates_eq {cfg : Config} (hunmarked : Unmarked base numNames) (hmax : 1 < cfg.maxNames)
    (hnum : numNames ≤ cfg.maxNames) (hways : cfg.numMRCWays = 1 → pli.length = 1) :
    ∃ names', mergeCandidates cfg numNames pli low (setCandidates base (pli.getD low default).range true) = .ok names' ∧
      SameButMarks base names' ∧
      ∀ k, k < numNames → ((names' k).isCandidate = true ↔ Chosen (ht.levelTree hlow) (HitIn base) k) := by
  have hsame := sameButMarks_setCandidates base (pli.getD low default).range true
  have hleaves := midMarks_leaves ht hlow hunmarked
  unfold mergeCandidates
  by_cases hsingle : cfg.numMRCWays = 1
  · have hzero : low = 0 := by
      have := hways hsingle
      omega
    subst hzero
    refine ⟨_, ?_, hsame, fun k hk => midMarks_chosen ht hlow ?_ hk⟩
    · rw [if_pos hsingle, check_of rfl]
      rfl
    · rw [ht.root] at hleaves
      rw [ht.root]
      exact hleaves
  · obtain ⟨names', hrun, hsame', hmid⟩ := flushLevels_eq ht hlow hsame hmax hnum (le_refl low) hleaves
    refine ⟨names', ?_, hsame', fun k hk => midMarks_chosen ht hlow hmid hk⟩
    rw [if_neg hsingle, hrun]

end Flush

end BeagleCache
