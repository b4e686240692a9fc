import BeagleCache.Transition

/-! What a table of keys and values is for: a bag of pairs, to which a pair is added, in which the value of a key is looked up, and from
which a pair of a key is taken. While no key is added that is there already, the bag is a map. -/

namespace Dictionary

open Transition

variable {K V : Type}

/-- A call with its answer. -/
inductive Event (K V : Type)
  | inserted (k : K) (v : V)
  /-- Nothing was added. -/
  | refused (k : K) (v : V)
  | searched (k : K) (answer : Option V)
  | removed (k : K) (answer : Option V)
  | counted (n : Nat)

/-- The pairs, each as often as it was added. Any pair of the key is an answer. -/
def BagStep (m : Multiset (K × V)) : Event K V → Multiset (K × V) → Prop
  | .inserted k v, m' => m' = (k, v) ::ₘ m
  | .refused _ _, m' => m' = m
  | .searched k none, m' => (∀ v, (k, v) ∉ m) ∧ m' = m
  | .searched k (some v), m' => (k, v) ∈ m ∧ m' = m
  | .removed k none, m' => (∀ v, (k, v) ∉ m) ∧ m' = m
  | .removed k (some v), m' => m = (k, v) ::ₘ m'
  | .counted n, m' => n = m.card ∧ m' = m

def bag : System (Multiset (K × V)) (Event K V) where
  init := fun m => m = 0
  step := BagStep

/-- The bag of a map. -/
structure BagOf (m : Multiset (K × V)) (f : K → Option V) : Prop where
  mem : ∀ k v, (k, v) ∈ m ↔ f k = some v
  nodup : (m.map Prod.fst).Nodup

namespace BagOf

variable {m m' : Multiset (K × V)} {f : K → Option V} {k : K} {v : V}

theorem none_iff (h : BagOf m f) : (∀ v, (k, v) ∉ m) ↔ f k = none := by
  rw [Option.eq_none_iff_forall_ne_some]
  exact forall_congr' fun v => not_congr (h.mem k v)

theorem empty : BagOf (0 : Multiset (K × V)) fun _ => none where
  mem := fun k v => by simp
  nodup := by simp

theorem card (h : BagOf m f) : m.card = {k | f k ≠ none}.ncard := by
  classical
  have hset : {k | f k ≠ none} = ↑(m.map Prod.fst).toFinset := by
    ext k
    rw [Set.mem_ofPred_eq, Finset.mem_coe, Multiset.mem_toFinset, Multiset.mem_map, Option.ne_none_iff_exists']
    constructor
    · rintro ⟨v, hv⟩
      exact ⟨(k, v), (h.mem k v).mpr hv, rfl⟩
    · rintro ⟨⟨k, v⟩, hmem, rfl⟩
      exact ⟨v, (h.mem k v).mp hmem⟩
  rw [hset, Set.ncard_coe_finset, Multiset.toFinset_card_of_nodup h.nodup, Multiset.card_map]

variable [DecidableEq K]

theorem insert (h : BagOf m f) (hnone : f k = none) (v : V) : BagOf ((k, v) ::ₘ m) (Function.update f k (some v)) where
  mem := by
    intro j w
    rw [Multiset.mem_cons]
    by_cases hj : j = k
    · subst hj
      have habsent := h.none_iff.mpr hnone w
      rw [Function.update_self]
      simp [habsent, eq_comm]
    · rw [Function.update_of_ne hj, h.mem]
      simp [hj]
  nodup := by
    rw [Multiset.map_cons, Multiset.nodup_cons]
    refine ⟨fun hmem => ?_, h.nodup⟩
    obtain ⟨⟨j, w⟩, hjw, rfl⟩ := Multiset.mem_map.mp hmem
    exact h.none_iff.mpr hnone w hjw

theorem remove (h : BagOf ((k, v) ::ₘ m) f) : f k = some v ∧ BagOf m (Function.update f k none) := by
  have hnodup := h.nodup
  rw [Multiset.map_cons, Multiset.nodup_cons] at hnodup
  refine ⟨(h.mem k v).mp (Multiset.mem_cons_self _ _), ⟨fun j w => ?_, hnodup.2⟩⟩
  by_cases hj : j = k
  · subst hj
    rw [Function.update_self]
    refine iff_of_false (fun hmem => hnodup.1 ?_) (Option.some_ne_none w).symm
    exact Multiset.mem_map.mpr ⟨(j, w), hmem, rfl⟩
  · rw [Function.update_of_ne hj, ← h.mem, Multiset.mem_cons]
    simp [hj]

end BagOf

end Dictionary
