import BeagleCache.Tiling

/-! Bottom-up merging in a tree of levels. Each level of nodes covers every position once, and each node
lies inside its parent. Some nodes are hits. A node collapses when it is on the lowest level, or when its
children all collapse and are all hits or all misses; the chosen nodes are the topmost collapsed ones.
They cover every position exactly once. When hits are inherited downwards every hit collapses, and a
miss is chosen over a hit exactly when all children of some miss are hits. -/

namespace BeagleCache.Collapse

open Tiling

/-- A tree of levels `0` to `low` over the positions below `size`. -/
structure LevelTree (α : Type) where
  node : α → Prop
  level : α → Nat
  parent : α → α
  off : α → Nat
  len : α → Nat
  low : Nat
  size : Nat
  level_le : ∀ {k}, node k → level k ≤ low
  parent_node : ∀ {k}, node k → 0 < level k → node (parent k)
  parent_level : ∀ {k}, node k → 0 < level k → level (parent k) + 1 = level k
  inside : ∀ {k}, node k → 0 < level k → off (parent k) ≤ off k ∧ off k + len k ≤ off (parent k) + len (parent k)
  within : ∀ {k}, node k → 0 < len k ∧ off k + len k ≤ size
  cover : ∀ i, i ≤ low → ∀ x, x < size → ∃ k, node k ∧ level k = i ∧ Holds off len k x
  unique : ∀ {k k' x}, node k → node k' → level k = level k' → Holds off len k x → Holds off len k' x → k = k'

variable {α : Type} (T : LevelTree α) (hit : α → Prop)

/-- The node `c` is a child of `k`. -/
def LevelTree.Child (c k : α) : Prop := T.node c ∧ 0 < T.level c ∧ T.parent c = k

/-- All nodes of a set are hits, or none is. -/
def Uniform (children : α → Prop) : Prop := (∀ c, children c → hit c) ∨ ∀ c, children c → ¬ hit c

inductive Collapsed : α → Prop
  | leaf {k : α} : T.node k → T.level k = T.low → Collapsed k
  | merge {k : α} : T.node k → T.level k < T.low → (∀ c, T.Child c k → Collapsed c) →
      Uniform hit (fun c => T.Child c k) → Collapsed k

/-- The nodes that are left after merging. -/
def Chosen (k : α) : Prop := Collapsed T hit k ∧ (T.level k = 0 ∨ ¬ Collapsed T hit (T.parent k))

variable {T} {hit} {k k' c h p : α} {x : Nat}

theorem LevelTree.Child.level_eq (hc : T.Child c k) : T.level c = T.level k + 1 := by
  obtain ⟨hnode, hpos, rfl⟩ := hc
  exact (T.parent_level hnode hpos).symm

theorem LevelTree.parent_holds (hk : T.node k) (hpos : 0 < T.level k) (hx : Holds T.off T.len k x) :
    Holds T.off T.len (T.parent k) x := by
  obtain ⟨h1, h2⟩ := T.inside hk hpos
  obtain ⟨hx1, hx2⟩ := hx
  exact ⟨by omega, by omega⟩

theorem Collapsed.node (hk : Collapsed T hit k) : T.node k := by
  cases hk with
  | leaf hnode _ => exact hnode
  | merge hnode _ _ _ => exact hnode

theorem Collapsed.child (hk : Collapsed T hit k) (hc : T.Child c k) : Collapsed T hit c := by
  cases hk with
  | leaf _ hlow =>
      have := T.level_le hc.1
      have := hc.level_eq
      omega
  | merge _ _ hchildren _ => exact hchildren c hc

theorem Collapsed.uniform (hk : Collapsed T hit k) : Uniform hit (fun c => T.Child c k) := by
  cases hk with
  | leaf _ hlow =>
      refine .inl fun c hc => ?_
      have := T.level_le hc.1
      have := hc.level_eq
      omega
  | merge _ _ _ huniform => exact huniform

/-- Above the lowest level a node collapses exactly when its children do and agree. -/
theorem collapsed_iff (hit : α → Prop) (hk : T.node k) (hlow : T.level k < T.low) :
    Collapsed T hit k ↔ (∀ c, T.Child c k → Collapsed T hit c) ∧ Uniform hit (fun c => T.Child c k) :=
  ⟨fun h => ⟨fun _ hc => h.child hc, h.uniform⟩, fun h => .merge hk hlow h.1 h.2⟩

/-- A property that passes from a node to its children passes down along a position. -/
theorem LevelTree.descend {P : α → Prop} (hstep : ∀ c k, T.Child c k → P k → P c) (hk : T.node k) (hk' : T.node k')
    (hx : Holds T.off T.len k x) (hx' : Holds T.off T.len k' x) (hle : T.level k ≤ T.level k') (hP : P k) : P k' := by
  obtain ⟨n, hn⟩ := Nat.exists_eq_add_of_le hle
  induction n generalizing k' with
  | zero =>
      rw [← T.unique hk hk' (by omega) hx hx']
      exact hP
  | succ n ih =>
      have hpos : 0 < T.level k' := by omega
      have hlevel := T.parent_level hk' hpos
      apply hstep k' (T.parent k') ⟨hk', hpos, rfl⟩
      exact ih (T.parent_node hk' hpos) (T.parent_holds hk' hpos hx') (by omega) (by omega)

/-- A property that passes from a node to its parent passes up along a position. -/
theorem LevelTree.ascend {P : α → Prop} (hstep : ∀ c k, T.Child c k → P c → P k) (hk : T.node k) (hk' : T.node k')
    (hx : Holds T.off T.len k x) (hx' : Holds T.off T.len k' x) (hle : T.level k ≤ T.level k') (hP : P k') : P k := by
  by_contra hnot
  have hstep' : ∀ c k, T.Child c k → ¬ P k → ¬ P c := fun c k hc hn hPc => hn (hstep c k hc hPc)
  exact T.descend hstep' hk hk' hx hx' hle hnot hP

/-- A node lies inside every node above that shares a position with it. -/
theorem LevelTree.holds_of_below (hk : T.node k) (hk' : T.node k') (hx : Holds T.off T.len k x) (hx' : Holds T.off T.len k' x)
    (hle : T.level k ≤ T.level k') {y : Nat} (hy : Holds T.off T.len k' y) : Holds T.off T.len k y := by
  let holdsY (c : α) : Prop := Holds T.off T.len c y
  refine LevelTree.ascend (P := holdsY) ?_ hk hk' hx hx' hle hy
  rintro c _ ⟨hnode, hpos, rfl⟩ hc
  exact T.parent_holds hnode hpos hc

theorem Collapsed.descend (hk : Collapsed T hit k) (hk' : T.node k') (hx : Holds T.off T.len k x)
    (hx' : Holds T.off T.len k' x) (hle : T.level k ≤ T.level k') : Collapsed T hit k' :=
  T.descend (fun _ _ hc h => h.child hc) hk.node hk' hx hx' hle hk

/-- A chosen node lies at or above every collapsed node that shares a position with it. -/
theorem Chosen.level_le (hk : Chosen T hit k) (hp : Collapsed T hit p) (hx : Holds T.off T.len k x)
    (hxp : Holds T.off T.len p x) : T.level k ≤ T.level p := by
  by_contra hlt
  have hpos : 0 < T.level k := by omega
  have hnode := hk.1.node
  have hlevel := T.parent_level hnode hpos
  rcases hk.2 with hroot | hparent
  · omega
  · exact hparent (hp.descend (T.parent_node hnode hpos) hxp (T.parent_holds hnode hpos hx) (by omega))

theorem chosen_unique (hk : Chosen T hit k) (hk' : Chosen T hit k') (hx : Holds T.off T.len k x)
    (hx' : Holds T.off T.len k' x) : k = k' :=
  T.unique hk.1.node hk'.1.node (le_antisymm (hk.level_le hk'.1 hx hx') (hk'.level_le hk.1 hx' hx)) hx hx'

/-- Every position lies in a chosen node. -/
theorem exists_chosen (hit : α → Prop) (hx : x < T.size) : ∃ k, Chosen T hit k ∧ Holds T.off T.len k x := by
  -- go up from the leaf that holds `x` for as long as the parent collapses
  have hup : ∀ n k, T.level k = n → Collapsed T hit k → Holds T.off T.len k x →
      ∃ k', Chosen T hit k' ∧ Holds T.off T.len k' x := by
    intro n
    induction n with
    | zero => exact fun k hlevel hk hkx => ⟨k, ⟨hk, .inl hlevel⟩, hkx⟩
    | succ n ih =>
        intro k hlevel hk hkx
        have hpos : 0 < T.level k := by omega
        by_cases hparent : Collapsed T hit (T.parent k)
        · have := T.parent_level hk.node hpos
          exact ih (T.parent k) (by omega) hparent (T.parent_holds hk.node hpos hkx)
        · exact ⟨k, ⟨hk, .inr hparent⟩, hkx⟩
  obtain ⟨k, hk, hlevel, hkx⟩ := T.cover T.low (le_refl _) x hx
  exact hup _ k rfl (.leaf hk hlevel) hkx

section Inherited

variable (hclosed : ∀ c k, T.Child c k → hit k → hit c)

include hclosed

theorem collapsed_of_hit (hk : T.node k) (hhit : hit k) : Collapsed T hit k := by
  obtain ⟨n, hn⟩ := Nat.exists_eq_add_of_le (T.level_le hk)
  induction n generalizing k with
  | zero => exact .leaf hk (by omega)
  | succ n ih =>
      have hchild : ∀ c, T.Child c k → hit c := fun c hc => hclosed c k hc hhit
      refine .merge hk (by omega) ?_ (.inl hchild)
      intro c hc
      have := hc.level_eq
      exact ih hc.1 (hchild c hc) (by omega)

/-- The parent of a chosen node is no hit. -/
theorem Chosen.parent_miss (hk : Chosen T hit k) (hpos : 0 < T.level k) : ¬ hit (T.parent k) := by
  intro hhit
  rcases hk.2 with hroot | hparent
  · omega
  · exact hparent (collapsed_of_hit hclosed (T.parent_node hk.1.node hpos) hhit)

/-- Hits that are large, a property that passes to parents, are covered by chosen hits exactly when every
miss with a large hit among its children has a miss among them too. -/
theorem hits_covered_iff {large : α → Prop} (hlarge : ∀ c k, T.Child c k → large c → large k) :
    (∀ h x, T.node h → hit h → large h → Holds T.off T.len h x →
        ∃ k, Chosen T hit k ∧ Holds T.off T.len k x ∧ hit k) ↔
      ∀ p, T.node p → ¬ hit p → (∃ c, T.Child c p ∧ hit c ∧ large c) → ∃ c, T.Child c p ∧ ¬ hit c := by
  constructor
  · intro hcovered p hp hmiss hsome
    obtain ⟨c, hc, hhit, hlc⟩ := hsome
    by_contra hall
    have hall : ∀ c', T.Child c' p → hit c' := by
      intro c' hc'
      by_contra hmiss'
      exact hall ⟨c', hc', hmiss'⟩
    have hlevel := hc.level_eq
    have hcp : Collapsed T hit p := by
      refine .merge hp ?_ (fun c' hc' => collapsed_of_hit hclosed hc'.1 (hall c' hc')) (.inl hall)
      have := T.level_le hc.1
      omega
    have hcx : Holds T.off T.len c (T.off c) := ⟨le_refl _, by have := (T.within hc.1).1; omega⟩
    have hpx : Holds T.off T.len p (T.off c) := by
      have := T.parent_holds hc.1 hc.2.1 hcx
      rwa [hc.2.2] at this
    obtain ⟨k, hk, hkx, hkhit⟩ := hcovered c (T.off c) hc.1 hhit hlc hcx
    exact hmiss (T.descend hclosed hk.1.node hp hkx hpx (hk.level_le hcp hkx hpx) hkhit)
  · intro hcond h x hh hhit hlh hx
    obtain ⟨k, hk, hkx⟩ := exists_chosen hit
      (show x < T.size by have := (T.within hh).2; have := hx.2; omega)
    refine ⟨k, hk, hkx, ?_⟩
    have hle := hk.level_le (collapsed_of_hit hclosed hh hhit) hkx hx
    by_contra hmiss
    -- misses reach from `k` down to `h`, since a miss with a hit below it would not have collapsed
    have hdown : ∀ n p, T.node p → Holds T.off T.len p x → ¬ hit p → Collapsed T hit p →
        T.level p + n = T.level h → False := by
      intro n
      induction n with
      | zero =>
          intro p hp hpx hpmiss _ hlevel
          exact hpmiss (T.unique hh hp (by omega) hx hpx ▸ hhit)
      | succ n ih =>
          intro p hp hpx hpmiss hpcol hlevel
          obtain ⟨c, hcnode, hclevel, hcx⟩ := T.cover (T.level p + 1) (by have := T.level_le hh; omega) x
            (by have := (T.within hh).2; have := hx.2; omega)
          have hcpos : 0 < T.level c := by omega
          have hparent : T.parent c = p :=
            T.unique (T.parent_node hcnode hcpos) hp (by have := T.parent_level hcnode hcpos; omega)
              (T.parent_holds hcnode hcpos hcx) hpx
          have hchild : T.Child c p := ⟨hcnode, hcpos, hparent⟩
          by_cases hchit : hit c
          · have hclarge : large c := T.ascend hlarge hcnode hh hcx hx (by omega) hlh
            obtain ⟨c', hc', hmiss'⟩ := hcond p hp hpmiss ⟨c, hchild, hchit, hclarge⟩
            rcases hpcol.uniform with hallhit | hallmiss
            · exact hmiss' (hallhit c' hc')
            · exact hallmiss c hchild hchit
          · exact ih c hcnode hcx hchit (hpcol.child hchild) (by omega)
    obtain ⟨n, hn⟩ := Nat.exists_eq_add_of_le hle
    exact hdown n k hk.1.node hkx hmiss hk.1 hn.symm

end Inherited

end BeagleCache.Collapse
