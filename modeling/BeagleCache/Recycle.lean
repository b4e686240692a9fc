import BeagleCache.Chains
import BeagleCache.Outcome
import BeagleCache.Transition

/-! The nodes of recycle.c, from which the items of hashtab.c are taken. They are cut off blocks that get larger, from the end of a block
to its start; a node that is deleted is put on a heap of trash, and used again when the block has no more nodes. -/

namespace BeagleCache.Recycle

open Chains Transition

/-- `RESTART` and `REMAX`, and the size of the header of a block. -/
def restart : Nat := 0
def remax : Nat := 32000
def header : Nat := 4

/-- A block of nodes: its address, and its bytes behind the header. Addresses are numbers. -/
structure Block where
  base : Nat
  bytes : Nat

/-- `reroot`, with the nodes on the heap of trash. -/
structure Reroot where
  list : List Block
  trash : Option Nat
  nodes : Heap Nat Unit
  size : Nat
  logsize : Nat
  numleft : Nat

/-! ## The functions -/

/-- The next multiple of the size of a pointer. -/
def align (a : Nat) : Nat := (a + 3) / 4 * 4

def remkroot (size : Nat) : Reroot := ⟨[], none, fun _ => none, align size, restart, 0⟩

/-- The bytes of the next block. -/
def blockBytes (r : Reroot) : Nat := r.size * 2 ^ r.logsize

/-- `renewx`; `block` is what `malloc` returns. -/
def renewx (r : Reroot) (block : Nat) : Run (Nat × Reroot) :=
  match r.trash with
  | some temp =>
      match r.nodes temp with
      | none => .error .overrun
      | some c => .ok (temp, { r with trash := c.next, nodes := Function.update r.nodes temp none })
  | none => do
      inBounds (r.size ≤ blockBytes r)
      return (block + header + (blockBytes r - r.size), { r with
        list := ⟨block, blockBytes r⟩ :: r.list
        logsize := if blockBytes r < remax then r.logsize + 1 else r.logsize
        numleft := blockBytes r - r.size })

/-- The macro `renew`. A node in front of its block would be outside of it. -/
def renew (r : Reroot) (block : Nat) : Run (Nat × Reroot) :=
  if r.numleft ≠ 0 then
    match r.list with
    | [] => .error .overrun
    | b :: _ => do
        inBounds (r.size ≤ r.numleft)
        return (b.base + header + (r.numleft - r.size), { r with numleft := r.numleft - r.size })
  else renewx r block

/-- The macro `redel`. -/
def redel (r : Reroot) (item : Nat) : Reroot :=
  { r with nodes := Function.update r.nodes item (some ⟨(), r.trash⟩), trash := some item }

/-! ## Nodes beside each other -/

/-- The nodes of a block from the `k`-th on. -/
def slots (size : Nat) (b : Block) (k : Nat) : List Nat := (List.range' k (b.bytes / size - k)).map fun i => b.base + header + i * size

/-- The nodes that were cut off the blocks. -/
def handed (r : Reroot) : List Nat :=
  match r.list with
  | [] => []
  | b :: rest => slots r.size b (r.numleft / r.size) ++ rest.flatMap fun b => slots r.size b 0

/-- The bytes of the blocks. -/
def total (blocks : List Block) : Nat := (blocks.map Block.bytes).sum

/-- Two nodes do not overlap. -/
def Apart (size : Nat) (p q : Nat) : Prop := p + size ≤ q ∨ q + size ≤ p

/-- Two blocks do not overlap. -/
def Block.Apart (b c : Block) : Prop := b.base + header + b.bytes ≤ c.base ∨ c.base + header + c.bytes ≤ b.base

instance (b c : Block) : Decidable (b.Apart c) := inferInstanceAs (Decidable (_ ∨ _))

/-- A node is inside of a block. -/
def Inside (size : Nat) (b : Block) (p : Nat) : Prop := b.base + header ≤ p ∧ p + size ≤ b.base + header + b.bytes

/-- No block gets larger than that, so that its bytes fit into a `word`. -/
def limit (r : Reroot) : Nat := max r.size (2 * remax)

/-- The nodes in use and the ones on the heap of trash are the ones that were cut off the blocks. -/
structure Good (r : Reroot) (live : List Nat) : Prop where
  size : 0 < r.size
  blocks : r.list.Pairwise Block.Apart
  whole : ∀ b ∈ r.list, r.size ∣ b.bytes
  left : r.size ∣ r.numleft
  fits : ∀ b ∈ r.list.head?, r.numleft ≤ b.bytes
  small : ∀ b ∈ r.list, b.bytes ≤ limit r
  next_small : blockBytes r ≤ limit r
  none_left : r.list = [] → r.numleft = 0
  trash : ∃ xs : List (Nat × Unit), Chain r.nodes xs ∧ r.trash = first xs ∧ (live ++ Chains.keys xs).Perm (handed r)

section Good

variable {r r' : Reroot} {live : List Nat} {size k : Nat} {b : Block} {p q : Nat}

theorem apart_symm (h : Apart size p q) : Apart size q p := Or.symm h

instance (size : Nat) : Std.Symm (Apart size) := ⟨fun _ _ => apart_symm⟩

theorem slots_cons (hk : k < b.bytes / size) : slots size b k = (b.base + header + k * size) :: slots size b (k + 1) := by
  have hlength : b.bytes / size - k = (b.bytes / size - (k + 1)) + 1 := by omega
  rw [slots, hlength, List.range'_succ, List.map_cons, slots]

theorem slots_of_le (hk : b.bytes / size ≤ k) : slots size b k = [] := by
  rw [slots, Nat.sub_eq_zero_of_le hk]
  rfl

theorem slots_length (size : Nat) (b : Block) (k : Nat) : (slots size b k).length = b.bytes / size - k := by
  rw [slots, List.length_map, List.length_range']

theorem flatMap_length {blocks : List Block} (hwhole : ∀ b ∈ blocks, size ∣ b.bytes) :
    (blocks.flatMap fun b => slots size b 0).length * size = total blocks := by
  induction blocks with
  | nil =>
      rw [List.flatMap_nil, List.length_nil, Nat.zero_mul]
      rfl
  | cons b rest ih =>
      have hrest := ih fun c hc => hwhole c (List.mem_cons_of_mem _ hc)
      have hfirst : b.bytes / size * size = b.bytes := Nat.div_mul_cancel (hwhole b List.mem_cons_self)
      rw [List.flatMap_cons, List.length_append, slots_length, Nat.sub_zero, Nat.add_mul, hfirst, hrest]
      rfl

theorem inside_of_mem (hp : p ∈ slots size b k) : Inside size b p := by
  obtain ⟨i, hi, rfl⟩ := List.mem_map.mp hp
  rw [List.mem_range'_1] at hi
  have hlt : i + 1 ≤ b.bytes / size := by omega
  have hmul : (i + 1) * size ≤ b.bytes := (Nat.mul_le_mul_right size hlt).trans (Nat.div_mul_le_self ..)
  rw [Nat.add_mul, Nat.one_mul] at hmul
  exact ⟨Nat.le_add_right _ _, by omega⟩

theorem slots_apart (size : Nat) (b : Block) (k : Nat) : (slots size b k).Pairwise (Apart size) := by
  rw [slots, List.pairwise_map]
  apply (List.pairwise_lt_range' (s := k) (n := b.bytes / size - k)).imp
  intro i j hij
  left
  have hmul : (i + 1) * size ≤ j * size := Nat.mul_le_mul_right size hij
  rw [Nat.add_mul, Nat.one_mul] at hmul
  omega

theorem apart_of_blocks {c : Block} (hapart : b.Apart c) (hp : Inside size b p) (hq : Inside size c q) : Apart size p q := by
  obtain ⟨hp₁, hp₂⟩ := hp
  obtain ⟨hq₁, hq₂⟩ := hq
  obtain hle | hle := hapart
  · left
    omega
  · right
    omega

theorem flatMap_apart (size : Nat) {blocks : List Block} (hblocks : blocks.Pairwise Block.Apart) :
    (blocks.flatMap fun b => slots size b 0).Pairwise (Apart size) := by
  rw [List.pairwise_flatMap]
  refine ⟨fun b _ => slots_apart size b 0, hblocks.imp fun {b c} hapart p hp q hq => ?_⟩
  exact apart_of_blocks hapart (inside_of_mem hp) (inside_of_mem hq)

/-- The nodes that were cut off do not overlap. -/
theorem Good.handed_apart (h : Good r live) : (handed r).Pairwise (Apart r.size) := by
  have hblocks := h.blocks
  unfold handed
  split
  · exact List.Pairwise.nil
  · rename_i b rest hlist
    rw [hlist] at hblocks
    obtain ⟨hfirst, hrest⟩ := List.pairwise_cons.mp hblocks
    refine List.pairwise_append.mpr ⟨slots_apart _ _ _, flatMap_apart r.size hrest, fun p hp q hq => ?_⟩
    obtain ⟨c, hc, hq⟩ := List.mem_flatMap.mp hq
    exact apart_of_blocks (hfirst c hc) (inside_of_mem hp) (inside_of_mem hq)

theorem handed_inside (hp : p ∈ handed r) : ∃ b ∈ r.list, Inside r.size b p := by
  unfold handed at hp
  split at hp
  · cases hp
  · rename_i b rest hlist
    rw [hlist]
    obtain hp | hp := List.mem_append.mp hp
    · exact ⟨b, List.mem_cons_self, inside_of_mem hp⟩
    · obtain ⟨c, hc, hp⟩ := List.mem_flatMap.mp hp
      exact ⟨c, List.mem_cons_of_mem _ hc, inside_of_mem hp⟩

/-- The nodes in use do not overlap each other, nor the ones on the heap of trash. -/
theorem Good.live_apart (h : Good r live) : live.Pairwise (Apart r.size) := by
  obtain ⟨xs, -, -, hperm⟩ := h.trash
  have hall := (hperm.pairwise_iff apart_symm).mpr h.handed_apart
  exact (List.pairwise_append.mp hall).1

theorem Good.live_inside (h : Good r live) (hp : p ∈ live) : ∃ b ∈ r.list, Inside r.size b p := by
  obtain ⟨xs, -, -, hperm⟩ := h.trash
  exact handed_inside (hperm.mem_iff.mp (List.mem_append_left _ hp))

theorem nodup_of_apart (hsize : 0 < size) {l : List Nat} (h : l.Pairwise (Apart size)) : l.Nodup := by
  refine h.imp fun {p q} hpq heq => ?_
  subst heq
  obtain hle | hle := hpq <;> omega

theorem Good.nodup (h : Good r live) {xs : List (Nat × Unit)} (hperm : (live ++ Chains.keys xs).Perm (handed r)) :
    (live ++ Chains.keys xs).Nodup := hperm.nodup_iff.mpr (nodup_of_apart h.size h.handed_apart)

/-- Where the space has no node to give, all of it is in use. -/
theorem Good.full (h : Good r live) (hleft : r.numleft = 0) (hnone : r.trash = none) : live.length * r.size = total r.list := by
  obtain ⟨xs, -, htrash, hperm⟩ := h.trash
  have hnil : xs = [] := List.head?_eq_none_iff.mp (Option.map_eq_none_iff.mp (htrash.symm.trans hnone))
  have hhanded : handed r = r.list.flatMap fun b => slots r.size b 0 := by
    unfold handed
    rw [hleft, Nat.zero_div]
    cases r.list with
    | nil => rfl
    | cons b rest => rfl
  have hlength := hperm.length_eq
  rw [hnil, Chains.keys, List.map_nil, List.append_nil, hhanded] at hlength
  rw [hlength]
  exact flatMap_length h.whole

theorem good_remkroot {size : Nat} (hsize : 0 < size) : Good (remkroot size) [] where
  size := by
    show 0 < (size + 3) / 4 * 4
    omega
  blocks := List.Pairwise.nil
  whole := fun b hb => absurd hb List.not_mem_nil
  left := Nat.dvd_zero _
  fits := fun b hb => by cases hb
  small := fun b hb => absurd hb List.not_mem_nil
  next_small := by
    show align size * 2 ^ 0 ≤ _
    rw [pow_zero, Nat.mul_one]
    exact le_max_left _ _
  none_left := fun _ => rfl
  trash := ⟨[], trivial, rfl, .refl _⟩

/-! ## A node is taken, or given back -/

/-- `malloc` returns a block that is beside the others. -/
def Fresh (r : Reroot) (block : Nat) : Prop := ∀ b ∈ r.list, Block.Apart ⟨block, blockBytes r⟩ b

instance (r : Reroot) (block : Nat) : Decidable (Fresh r block) :=
  inferInstanceAs (Decidable (∀ b ∈ r.list, _ ∨ _))

/-- The next node of a block. -/
theorem Good.cut (h : Good r live) {rest : List Block} (hlist : r.list = b :: rest) (hleft : r.numleft ≠ 0) :
    r.size ≤ r.numleft ∧ Good { r with numleft := r.numleft - r.size } ((b.base + header + (r.numleft - r.size)) :: live) := by
  obtain ⟨k, hk⟩ := h.left
  obtain ⟨k, rfl⟩ := Nat.exists_eq_succ_of_ne_zero (fun hzero : k = 0 => hleft (by rw [hk, hzero, Nat.mul_zero]))
  have hle : r.size ≤ r.numleft := by
    rw [hk]
    exact Nat.le_mul_of_pos_right _ (Nat.succ_pos k)
  have hless : r.numleft - r.size = r.size * k := by
    rw [hk, Nat.mul_succ, Nat.add_sub_cancel]
  obtain ⟨xs, hchain, htrash, hperm⟩ := h.trash
  have hfits : r.numleft ≤ b.bytes := h.fits b (by rw [hlist]; rfl)
  have hbound : k < b.bytes / r.size := by
    rw [Nat.lt_iff_add_one_le, Nat.le_div_iff_mul_le h.size, Nat.mul_comm]
    exact hk ▸ hfits
  have hhanded : handed { r with numleft := r.numleft - r.size } = (b.base + header + (r.numleft - r.size)) :: handed r := by
    have hnow : (r.numleft - r.size) / r.size = k := by rw [hless, Nat.mul_div_cancel_left _ h.size]
    have hwas : r.numleft / r.size = k + 1 := by rw [hk, Nat.mul_div_cancel_left _ h.size]
    simp only [handed, hlist, hnow, hwas]
    rw [slots_cons hbound, hless, Nat.mul_comm]
    rfl
  refine ⟨hle, h.size, h.blocks, h.whole, ⟨k, hless⟩, fun c hc => ?_, h.small, h.next_small, fun hnil => ?_, xs, hchain,
    htrash, ?_⟩
  · exact (Nat.sub_le _ _).trans (h.fits c hc)
  · rw [hlist] at hnil
    cases hnil
  · rw [hhanded]
    exact hperm.cons _

/-- The next block is within the limit, too. -/
theorem Good.next_limit (h : Good r live) : r.size * 2 ^ (if blockBytes r < remax then r.logsize + 1 else r.logsize) ≤ limit r := by
  split
  · rename_i hlt
    calc
      r.size * 2 ^ (r.logsize + 1) = 2 * blockBytes r := by
        rw [blockBytes, pow_succ]
        ring
      _ ≤ 2 * remax := Nat.mul_le_mul_left 2 hlt.le
      _ ≤ limit r := le_max_right _ _
  · exact h.next_small

/-- A new block. -/
theorem Good.grow (h : Good r live) (hleft : r.numleft = 0) {block : Nat} (hfresh : Fresh r block) {logsize : Nat}
    (hlimit : r.size * 2 ^ logsize ≤ limit r) :
    Good { r with list := ⟨block, blockBytes r⟩ :: r.list, logsize := logsize, numleft := blockBytes r } live := by
  have hpos : 0 < blockBytes r := Nat.mul_pos h.size (Nat.two_pow_pos _)
  obtain ⟨xs, hchain, htrash, hperm⟩ := h.trash
  have hhanded : handed { r with list := ⟨block, blockBytes r⟩ :: r.list, logsize := logsize, numleft := blockBytes r } = handed r := by
    have hnone : slots r.size ⟨block, blockBytes r⟩ (blockBytes r / r.size) = [] := slots_of_le (le_refl _)
    simp only [handed, hnone, List.nil_append]
    cases hlist : r.list with
    | nil => rfl
    | cons b rest =>
        simp only [hleft, Nat.zero_div, List.flatMap_cons]
  refine ⟨h.size, List.pairwise_cons.mpr ⟨hfresh, h.blocks⟩, fun c hc => ?_, ⟨2 ^ r.logsize, rfl⟩, fun c hc => ?_, fun c hc => ?_,
    hlimit, fun hnil => ?_, xs, hchain, htrash, hhanded ▸ hperm⟩
  · obtain rfl | hc := List.mem_cons.mp hc
    · exact ⟨2 ^ r.logsize, rfl⟩
    · exact h.whole c hc
  · cases hc
    exact le_refl _
  · obtain rfl | hc := List.mem_cons.mp hc
    · exact h.next_small
    · exact h.small c hc
  · cases hnil

/-- `renew` gives a node that is not in use. -/
theorem renew_spec (h : Good r live) {block : Nat} (hfresh : Fresh r block) :
    ∃ p r', renew r block = .ok (p, r') ∧ Good r' (p :: live) ∧ r'.size = r.size := by
  unfold renew
  by_cases hleft : r.numleft = 0
  · rw [if_neg (not_not.mpr hleft)]
    unfold renewx
    obtain ⟨xs, hchain, htrash, hperm⟩ := h.trash
    cases xs with
    | nil =>
        have hnone : r.trash = none := htrash
        have hpos : blockBytes r ≠ 0 := (Nat.mul_pos h.size (Nat.two_pow_pos _)).ne'
        have hle : r.size ≤ blockBytes r := Nat.le_mul_of_pos_right _ (Nat.two_pow_pos _)
        have hgrown := h.grow hleft hfresh h.next_limit
        obtain ⟨-, hgood⟩ := hgrown.cut (b := ⟨block, blockBytes r⟩) rfl hpos
        refine ⟨_, _, ?_, hgood, rfl⟩
        simp only [hnone, inBounds_of hle, Run.ok_bind]
        rfl
    | cons x xs =>
        have hsome : r.trash = some x.1 := htrash
        have hcell : r.nodes x.1 = some ⟨(), first xs⟩ := hchain.1
        have hnodup := h.nodup hperm
        have hx : x.1 ∉ Chains.keys xs := (List.nodup_cons.mp (List.nodup_append.mp hnodup).2.1).1
        refine ⟨x.1, { r with trash := first xs, nodes := Function.update r.nodes x.1 none }, ?_, ?_, rfl⟩
        · simp only [hsome, hcell]
        · refine ⟨h.size, h.blocks, h.whole, h.left, h.fits, h.small, h.next_small, h.none_left, xs, hchain.2.update hx _, rfl, ?_⟩
          exact List.perm_middle.symm.trans hperm
  · rw [if_pos hleft]
    cases hlist : r.list with
    | nil => exact absurd (h.none_left hlist) hleft
    | cons b rest =>
        obtain ⟨hle, hgood⟩ := h.cut hlist hleft
        refine ⟨_, _, ?_, hgood, rfl⟩
        simp only [inBounds_of hle, Run.ok_bind, hlist]
        rfl

/-- `renew` gets a block from `malloc` only if there is no other node. -/
theorem renew_cases {block : Nat} (hcall : renew r block = .ok (p, r')) :
    r'.size = r.size ∧ (r'.list = r.list ∨ r.numleft = 0 ∧ r.trash = none ∧ r'.list = ⟨block, blockBytes r⟩ :: r.list) := by
  unfold renew at hcall
  by_cases hleft : r.numleft = 0
  · rw [if_neg (not_not.mpr hleft)] at hcall
    unfold renewx at hcall
    cases htrash : r.trash with
    | none =>
        simp only [htrash] at hcall
        obtain ⟨_, -, hcall⟩ := Run.bind_eq_ok.mp hcall
        cases hcall
        exact ⟨rfl, .inr ⟨hleft, rfl, rfl⟩⟩
    | some temp =>
        simp only [htrash] at hcall
        cases hcell : r.nodes temp with
        | none =>
            rw [hcell] at hcall
            cases hcall
        | some c =>
            rw [hcell] at hcall
            cases hcall
            exact ⟨rfl, .inl rfl⟩
  · rw [if_pos hleft] at hcall
    cases hlist : r.list with
    | nil =>
        rw [hlist] at hcall
        cases hcall
    | cons b rest =>
        rw [hlist] at hcall
        obtain ⟨_, -, hcall⟩ := Run.bind_eq_ok.mp hcall
        cases hcall
        exact ⟨rfl, .inl rfl⟩

/-- A node in use that is deleted. -/
theorem redel_spec (h : Good r live) (hp : p ∈ live) : Good (redel r p) (live.erase p) := by
  obtain ⟨xs, hchain, htrash, hperm⟩ := h.trash
  have hnodup := h.nodup hperm
  have hnot : p ∉ Chains.keys xs := fun hmem => (List.nodup_append.mp hnodup).2.2 p hp p hmem rfl
  refine ⟨h.size, h.blocks, h.whole, h.left, h.fits, h.small, h.next_small, h.none_left, (p, ()) :: xs,
    ⟨?_, hchain.update hnot _⟩, rfl, ?_⟩
  · show Function.update r.nodes p (some ⟨(), r.trash⟩) p = _
    rw [Function.update_self, htrash]
  · refine List.Perm.trans ?_ hperm
    exact List.perm_middle.trans ((List.perm_cons_erase hp).symm.append_right _)

end Good

/-! ## Any calls -/

section Runs

inductive NodeEvent
  | renewed (p : Nat)
  | deleted (p : Nat)

/-- A root with the nodes that are in use. -/
structure Pool where
  root : Reroot
  live : List Nat

inductive NodeStep (s : Pool) : NodeEvent → Pool → Prop
  | renewed {block p : Nat} {r : Reroot} : Fresh s.root block → renew s.root block = .ok (p, r) →
      NodeStep s (.renewed p) ⟨r, p :: s.live⟩
  | deleted {p : Nat} : p ∈ s.live → NodeStep s (.deleted p) ⟨redel s.root p, s.live.erase p⟩

/-- A root for nodes with a size that fits an `int` with the header. -/
def nodeSystem : System Pool NodeEvent where
  init := fun s => ∃ size, 0 < size ∧ align size + header < 2 ^ 31 ∧ s = ⟨remkroot size, []⟩
  step := NodeStep

theorem good_invariant : nodeSystem.Invariant fun s => Good s.root s.live where
  init := by
    rintro s ⟨size, hsize, -, rfl⟩
    exact good_remkroot hsize
  step := by
    rintro s e s' h (⟨hfresh, hcall⟩ | hp)
    · obtain ⟨p, r', hcall', hgood, -⟩ := renew_spec h hfresh
      cases hcall.symm.trans hcall'
      exact hgood
    · exact redel_spec h hp

/-- After any calls, the nodes in use are inside of the blocks and do not overlap, and no block is larger than the limit. `renew` returns a
node beside all of them, whether it is cut off a block or comes from the heap of trash. -/
theorem recycle_nodes {s : Pool} {events : List NodeEvent} (hrun : nodeSystem.Runs events s) :
    s.live.Pairwise (Apart s.root.size) ∧ (∀ p ∈ s.live, ∃ b ∈ s.root.list, Inside s.root.size b p) ∧
      (∀ b ∈ s.root.list, b.bytes ≤ max s.root.size (2 * remax)) ∧
        ∀ block, Fresh s.root block → ∃ p r, renew s.root block = .ok (p, r) ∧ (∀ q ∈ s.live, Apart s.root.size p q) ∧
          ∃ b ∈ r.list, Inside s.root.size b p := by
  have hgood : Good s.root s.live := good_invariant.holds hrun
  refine ⟨hgood.live_apart, fun p hp => hgood.live_inside hp, hgood.small, fun block hfresh => ?_⟩
  obtain ⟨p, r, hcall, hgood', hsize⟩ := renew_spec hgood hfresh
  rw [← hsize]
  exact ⟨p, r, hcall, (List.pairwise_cons.mp hgood'.live_apart).1, hgood'.live_inside List.mem_cons_self⟩

/-- A node of the first block is deleted, and taken again when the second block has no more nodes. -/
def reuses : List NodeEvent := [.renewed 104, .renewed 1112, .deleted 104, .renewed 1096, .renewed 104]

theorem runs_reuses : ∃ s : Pool, nodeSystem.Runs reuses s ∧ s.live = [104, 1096, 1112] ∧ s.root.list.length = 2 ∧ s.root.size = 16 := by
  have hstart : nodeSystem.Runs [] ⟨remkroot 16, []⟩ := .start ⟨16, by decide, by decide, rfl⟩
  have hone := hstart.step (@NodeStep.renewed ⟨remkroot 16, []⟩ 100 104 _ (by decide) rfl)
  have htwo := hone.step (@NodeStep.renewed _ 1092 1112 _ (by decide) rfl)
  have hthree := htwo.step (@NodeStep.deleted _ 104 (by decide))
  have hfour := hthree.step (@NodeStep.renewed _ 2000 1096 _ (by decide) rfl)
  have hfive := hfour.step (@NodeStep.renewed _ 2000 104 _ (by decide) rfl)
  exact ⟨_, hfive, rfl, rfl, rfl⟩

/-- Three nodes are in use, one of them from the trash. -/
theorem recycle_nodes_reused : ∃ s : Pool, nodeSystem.Runs reuses s ∧ s.live = [104, 1096, 1112] ∧ s.live.Pairwise (Apart s.root.size) := by
  obtain ⟨s, hrun, hlive, -⟩ := runs_reuses
  exact ⟨s, hrun, hlive, (recycle_nodes hrun).1⟩

/-- The nodes in use behind a call. -/
def NodeEvent.use (live : List Nat) : NodeEvent → List Nat
  | .renewed p => p :: live
  | .deleted p => live.erase p

/-- The nodes that are in use after some calls. -/
def inUse (events : List NodeEvent) : List Nat := events.foldl NodeEvent.use []

theorem live_inUse {s : Pool} {events : List NodeEvent} (hrun : nodeSystem.Runs events s) : s.live = inUse events := by
  induction hrun with
  | start hinit =>
      obtain ⟨size, -, -, rfl⟩ := hinit
      rfl
  | step _ hstep ih =>
      rw [inUse, List.foldl_append, List.foldl_cons, List.foldl_nil, ← inUse, ← ih]
      cases hstep <;> rfl

/-- All blocks but the last one were in use at a time. -/
theorem total_tail {s : Pool} {events : List NodeEvent} (hrun : nodeSystem.Runs events s) :
    s.root.list = [] ∨ ∃ before, before <+: events ∧ total s.root.list.tail ≤ (inUse before).length * s.root.size := by
  induction hrun with
  | start hinit =>
      obtain ⟨size, -, -, rfl⟩ := hinit
      exact .inl rfl
  | @step events s s' e hbefore hstep ih =>
      have hkept : s'.root.list = s.root.list → s'.root.size = s.root.size →
          s'.root.list = [] ∨ ∃ before, before <+: events ++ [e] ∧ total s'.root.list.tail ≤ (inUse before).length * s'.root.size := by
        intro hlist hsize
        rw [hlist, hsize]
        obtain hnil | ⟨before, hle, htotal⟩ := ih
        · exact .inl hnil
        · exact .inr ⟨before, hle.trans (List.prefix_append _ _), htotal⟩
      cases hstep with
      | @renewed block p r hfresh hcall =>
          obtain ⟨hsize, hlist | ⟨hleft, hnone, hlist⟩⟩ := renew_cases hcall
          · exact hkept hlist hsize
          · have hgood : Good s.root s.live := good_invariant.holds hbefore
            refine .inr ⟨events, List.prefix_append _ _, ?_⟩
            show total r.list.tail ≤ (inUse events).length * r.size
            rw [hlist, hsize, List.tail_cons, ← live_inUse hbefore, hgood.full hleft hnone]
      | deleted hp => exact hkept rfl rfl

/-- The blocks have no more bytes than the nodes had that were in use at a time, and one block: deleted nodes do not make the space grow. -/
theorem recycle_space {s : Pool} {events : List NodeEvent} (hrun : nodeSystem.Runs events s) :
    ∃ before, before <+: events ∧ total s.root.list ≤ (inUse before).length * s.root.size + max s.root.size (2 * remax) := by
  have hgood : Good s.root s.live := good_invariant.holds hrun
  obtain hnil | ⟨before, hle, htotal⟩ := total_tail hrun
  · refine ⟨events, List.prefix_refl _, ?_⟩
    rw [hnil]
    exact Nat.zero_le _
  · refine ⟨before, hle, ?_⟩
    cases hlist : s.root.list with
    | nil => exact Nat.zero_le _
    | cons b rest =>
        rw [hlist, List.tail_cons] at htotal
        have hfirst : b.bytes ≤ max s.root.size (2 * remax) := hgood.small b (by rw [hlist]; exact List.mem_cons_self)
        calc
          total (b :: rest) = b.bytes + total rest := List.sum_cons
          _ ≤ max s.root.size (2 * remax) + (inUse before).length * s.root.size := Nat.add_le_add hfirst htotal
          _ = (inUse before).length * s.root.size + max s.root.size (2 * remax) := Nat.add_comm _ _

/-- Three nodes in two blocks. -/
theorem recycle_space_reused : ∃ s : Pool, nodeSystem.Runs reuses s ∧ s.root.list.length = 2 ∧
    ∃ before, before <+: reuses ∧ total s.root.list ≤ (inUse before).length * 16 + 64000 := by
  obtain ⟨s, hrun, -, hlist, hsize⟩ := runs_reuses
  obtain ⟨before, hle, htotal⟩ := recycle_space hrun
  rw [hsize] at htotal
  exact ⟨s, hrun, hlist, before, hle, htotal⟩

end Runs

end BeagleCache.Recycle
