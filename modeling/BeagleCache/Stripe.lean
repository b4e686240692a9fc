import Mathlib.Tactic

/-! Blocks that lie `width` apart, as a striped log gives them to one of its `width` lanes. -/

namespace Stripe

variable {width start start' count count' b : Nat}

/-- `count` blocks from `start` on, `width` apart. -/
def blocks (width start count : Nat) : List Nat := (List.range count).map fun j => start + j * width

@[simp] theorem blocks_length : (blocks width start count).length = count := by
  rw [blocks, List.length_map, List.length_range]

theorem blocks_succ : blocks width start (count + 1) = start :: blocks width (start + width) count := by
  rw [blocks, List.range_succ_eq_map, List.map_cons, List.map_map, Nat.zero_mul, Nat.add_zero]
  congr 1
  apply List.map_congr_left
  intro j _
  show start + (j + 1) * width = start + width + j * width
  ring

theorem blocks_add : blocks width start (count + count') = blocks width start count ++ blocks width (start + count * width) count' := by
  induction count generalizing start with
  | zero => simp [blocks]
  | succ count ih =>
      have hstart : start + width + count * width = start + (count + 1) * width := by ring
      rw [show count + 1 + count' = count + count' + 1 by omega, blocks_succ, blocks_succ, ih, hstart, List.cons_append]

theorem mem_blocks : b ∈ blocks width start count ↔ ∃ j < count, b = start + j * width := by
  constructor
  · intro h
    obtain ⟨j, hj, hb⟩ := List.mem_map.mp h
    exact ⟨j, List.mem_range.mp hj, hb.symm⟩
  · rintro ⟨j, hj, hb⟩
    exact List.mem_map.mpr ⟨j, List.mem_range.mpr hj, hb.symm⟩

theorem le_of_mem (h : b ∈ blocks width start count) : start ≤ b := by
  obtain ⟨j, _, rfl⟩ := mem_blocks.mp h
  exact Nat.le_add_right _ _

theorem lt_of_mem (hwidth : 0 < width) (h : b ∈ blocks width start count) : b < start + count * width := by
  obtain ⟨j, hj, rfl⟩ := mem_blocks.mp h
  have hmul : j * width < count * width := Nat.mul_lt_mul_of_pos_right hj hwidth
  omega

/-- All blocks are in the lane of the first. -/
theorem mod_of_mem (h : b ∈ blocks width start count) : b % width = start % width := by
  obtain ⟨j, _, rfl⟩ := mem_blocks.mp h
  exact Nat.add_mul_mod_self_right start j width

theorem nodup_blocks (hwidth : 0 < width) : (blocks width start count).Nodup := by
  refine List.Nodup.map (fun j j' hj => ?_) List.nodup_range
  exact Nat.eq_of_mul_eq_mul_right hwidth (Nat.add_left_cancel hj)

/-- Blocks of different lanes are different. -/
theorem disjoint_of_lane (hlane : start % width ≠ start' % width) : (blocks width start count).Disjoint (blocks width start' count') := by
  intro b hb hb'
  exact hlane ((mod_of_mem hb).symm.trans (mod_of_mem hb'))

/-- Blocks from the end of others on are different from those. -/
theorem disjoint_of_le (hwidth : 0 < width) (hle : start + count * width ≤ start') :
    (blocks width start count).Disjoint (blocks width start' count') := by
  intro b hb hb'
  have hbelow := lt_of_mem hwidth hb
  have habove := le_of_mem hb'
  omega

/-- A block is given by its lane and its row. -/
theorem eq_of_lane_row {x y : Nat} (hlane : x % width = y % width) (hrow : (x - x % width) / width = (y - y % width) / width) :
    x = y := by
  have hdiv (z : Nat) : (z - z % width) / width = z / width := by
    rw [Nat.div_eq_sub_mod_div (m := z)]
  rw [hdiv, hdiv] at hrow
  rw [← Nat.div_add_mod x width, ← Nat.div_add_mod y width, hlane, hrow]

end Stripe
