import BeagleCache.HashTab

/-! A hash table of hashtab.c over any calls: it is a map with a current item. What its items refer to does not matter to the table, as
long as the bytes of a key stay as they are. -/

namespace BeagleCache.HashTab

open CursorTable Transition

variable {κ α : Type} (lookup : Bytes → Nat) (mem : κ → Bytes)

/-- The calls on a table. -/
inductive Call (κ α : Type)
  | hfind (key : Bytes)
  | hadd (key : κ) (stuff : α) (h : Ptr)
  | hdel
  | hfirst
  | hnext

def call (t : HTab κ α) : Call κ α → Run (Bool × HTab κ α)
  | .hfind key => hfind lookup mem t key
  | .hadd key stuff h => hadd lookup mem t key stuff h
  | .hdel => hdel t
  | .hfirst => hfirst t
  | .hnext => hnext t

/-- `renew` gives a node that is not in the table. -/
def Allowed (t : HTab κ α) : Call κ α → Prop
  | .hadd _ _ h => t.nodes h = none
  | _ => True

/-- A call as one on a map with a current item. -/
def event : Call κ α → Bool → Event Bytes α
  | .hfind key, answer => .found key answer
  | .hadd key stuff _, answer => .added (mem key) stuff answer
  | .hdel, answer => .deleted answer
  | .hfirst, answer => .first answer
  | .hnext, answer => .next answer

/-- A table from `hcreate` on, with as many places as there are pointers in the memory at most. -/
def tabSystem : System (HTab κ α) (Event Bytes α) where
  init := fun t => ∃ logsize, logsize < 30 ∧ t = hcreate logsize
  step := fun t e t' => ∃ c answer, Allowed t c ∧ call lookup mem t c = .ok (answer, t') ∧ event mem c answer = e

/-! ## The map of a table -/

/-- What `hadd` writes besides the key. -/
structure Hashed (item : HItem κ α) : Prop where
  hval : item.hval = lookup (mem item.key)
  keyl : item.keyl = (mem item.key).length

/-- The key of an item, and its value. -/
def pairOf (x : Ptr × HItem κ α) : Bytes × α := (mem x.2.key, x.2.stuff)

/-- A table has the pairs of a map, and its position is at the current one. -/
def Keeps (t : HTab κ α) (d : Cursor (Bytes × α)) : Prop :=
  ∃ c, Placed t c ∧ (∀ x ∈ c.items, Hashed lookup mem x.2) ∧ c.map (pairOf mem) = d

section Keeps

variable {lookup : Bytes → Nat} {mem : κ → Bytes} {t t' : HTab κ α} {c c' : Cursor (Ptr × HItem κ α)} {d : Cursor (Bytes × α)}

theorem Hashed.matches_iff {item : HItem κ α} (h : Hashed lookup mem item) {key : Bytes} :
    item.Matches lookup mem key ↔ mem item.key = key := by
  unfold HItem.Matches
  rw [h.hval, h.keyl, List.take_length]
  constructor
  · rintro ⟨-, -, heq⟩
    exact heq
  · rintro rfl
    exact ⟨rfl, rfl, rfl⟩

theorem keys_map (c : Cursor (Ptr × HItem κ α)) : keys (c.map (pairOf mem)) = c.items.map fun x => mem x.2.key := by
  rw [keys, Cursor.items_map, List.map_map]
  rfl

theorem not_mem_keys (hhashed : ∀ x ∈ c.items, Hashed lookup mem x.2) {key : Bytes} (hnone : ∀ x ∈ c.items, ¬x.2.Matches lookup mem key) :
    key ∉ keys (c.map (pairOf mem)) := by
  rw [keys_map]
  rintro hmem
  obtain ⟨x, hx, rfl⟩ := List.mem_map.mp hmem
  exact hnone x hx ((hhashed x hx).matches_iff.mpr rfl)

theorem movedTo_of (hhashed : ∀ x ∈ c.items, Hashed lookup mem x.2) {key : Bytes} {x : Ptr × HItem κ α} (hx : x ∈ c.items)
    (hmatch : x.2.Matches lookup mem key) (hitems : c'.items = c.items) (hcurrent : c'.current = some x) :
    MovedTo (c.map (pairOf mem)) (c'.map (pairOf mem)) key := by
  refine ⟨?_, x.2.stuff, ?_⟩
  · rw [Cursor.items_map, Cursor.items_map, hitems]
  · rw [Cursor.current_map, hcurrent, ← (hhashed x hx).matches_iff.mp hmatch]
    rfl

/-- Every call returns, and is one on the map. -/
theorem Keeps.call (hk : Keeps lookup mem t d) {c : Call κ α} (hallowed : Allowed t c) :
    ∃ answer t' d', call lookup mem t c = .ok (answer, t') ∧ Step d (event mem c answer) d' ∧ Keeps lookup mem t' d' := by
  obtain ⟨c₀, hp, hhashed, rfl⟩ := hk
  cases c with
  | hfind key =>
      obtain ⟨hnone, hcall⟩ | ⟨x, t', c', hx, hmatch, hcall, hp', hitems, hcurrent⟩ := hfind_spec lookup mem hp key
      · exact ⟨false, t, _, hcall, ⟨not_mem_keys hhashed hnone, rfl⟩, c₀, hp, hhashed, rfl⟩
      · refine ⟨true, t', _, hcall, movedTo_of hhashed hx hmatch hitems hcurrent, c', hp', ?_, rfl⟩
        rwa [hitems]
  | hadd key stuff h =>
      obtain ⟨hnone, t', c', hcall, hp', hperm, hcurrent⟩ | ⟨x, t', c', hx, hmatch, hcall, hp', hitems, hcurrent⟩ :=
        hadd_spec lookup mem hp key hallowed stuff
      · refine ⟨true, t', _, hcall, ⟨not_mem_keys hhashed hnone, ?_, ?_⟩, c', hp', fun x hx => ?_, rfl⟩
        · rw [Cursor.current_map, hcurrent]
          rfl
        · rw [Cursor.items_map, Cursor.items_map]
          exact hperm.map (pairOf mem)
        · obtain rfl | hx := List.mem_cons.mp (hperm.mem_iff.mp hx)
          · exact ⟨rfl, rfl⟩
          · exact hhashed x hx
      · refine ⟨false, t', _, hcall, movedTo_of hhashed hx hmatch hitems hcurrent, c', hp', ?_, rfl⟩
        rwa [hitems]
  | hdel =>
      obtain ⟨hnil, hcall⟩ | ⟨x, t', hcurrent, hcall, hp'⟩ := hdel_spec hp
      · refine ⟨false, t, _, hcall, ⟨?_, rfl⟩, c₀, hp, hhashed, rfl⟩
        rw [Cursor.items_map, hnil, List.map_nil]
      · obtain ⟨rest, hrest⟩ := List.head?_eq_some_iff.mp hcurrent
        refine ⟨true, t', _, hcall, ⟨?_, rfl⟩, c₀.delete, hp', fun y hy => ?_, Cursor.map_delete _ c₀⟩
        · rw [Cursor.items_map]
          exact fun hnil => List.ne_nil_of_mem (Cursor.mem_of_current hcurrent) (List.map_eq_nil_iff.mp hnil)
        · rw [Cursor.items_delete hrest] at hy
          refine hhashed y ?_
          rw [Cursor.items, hrest]
          exact ((List.Sublist.refl _).append (List.sublist_cons_self x rest)).subset hy
  | hfirst =>
      obtain ⟨t', hcall, hp', -⟩ := hfirst_spec hp
      refine ⟨_, t', _, hcall, ⟨?_, rfl⟩, c₀.first, hp', ?_, Cursor.map_first _ c₀⟩
      · rw [decide_eq_true_iff, Cursor.items_map, ne_eq, ne_eq, List.map_eq_nil_iff]
      · rwa [Cursor.items_first]
  | hnext =>
      obtain ⟨t', hcall, hp', -⟩ := hnext_spec hp
      refine ⟨c₀.next.1, t', _, hcall, (Cursor.map_next _ c₀).symm, c₀.next.2, hp', ?_, rfl⟩
      rwa [Cursor.items_next]

theorem tab_simulates_table : System.Simulation (tabSystem lookup mem : System (HTab κ α) _) table (Keeps lookup mem) where
  init := by
    rintro t ⟨logsize, -, rfl⟩
    exact ⟨.start [], rfl, .start [], placed_hcreate logsize, fun x hx => absurd hx List.not_mem_nil, rfl⟩
  step := by
    rintro t d e t' hk ⟨c, answer, hallowed, hcall, rfl⟩
    obtain ⟨answer', t'', d', hcall', hstep, hk'⟩ := hk.call hallowed
    cases hcall.symm.trans hcall'
    exact ⟨d', hstep, hk'⟩

theorem Keeps.current (hk : Keeps lookup mem t d) {k : Bytes} {v : α} (hcurrent : d.current = some (k, v)) :
    ∃ item, current t = .ok item ∧ mem item.key = k ∧ item.stuff = v := by
  obtain ⟨c, hp, -, rfl⟩ := hk
  rw [Cursor.current_map] at hcurrent
  obtain ⟨x, hx, hpair⟩ := Option.map_eq_some_iff.mp hcurrent
  cases hpair
  exact ⟨x.2, current_spec hp hx, rfl, rfl⟩

theorem Keeps.count (hk : Keeps lookup mem t d) : t.count = d.items.length := by
  obtain ⟨c, hp, -, rfl⟩ := hk
  rw [Cursor.items_map, List.length_map]
  exact hp.count

theorem visit_spec {fuel : Nat} (hp : Placed t c) (hne : c.items ≠ []) (hfuel : c.rest.length ≤ fuel) :
    ∃ visited t', visit fuel t = .ok (visited, t') ∧ visited = c.rest.map Prod.snd ∧ Placed t' c.first := by
  induction fuel generalizing t c with
  | zero =>
      have hnil : c.rest = [] := List.length_eq_zero_iff.mp (Nat.le_zero.mp hfuel)
      rw [Cursor.eq_start_nil hnil] at hne
      exact absurd rfl hne
  | succ fuel ih =>
      obtain ⟨t', hcall, hp', -⟩ := hnext_spec hp
      match hrest : c.rest with
      | [] =>
          rw [Cursor.eq_start_nil hrest] at hne
          exact absurd rfl hne
      | [x] =>
          have hread : current t = .ok x.2 := current_spec hp (by rw [Cursor.current, hrest, List.head?_cons])
          have hnext : c.next = (false, c.first) := by rw [Cursor.next, hrest]
          rw [hnext] at hcall hp'
          refine ⟨[x.2], t', ?_, rfl, hp'⟩
          simp only [visit, hread, hcall, Run.ok_bind]
          rfl
      | x :: y :: rest =>
          have hread : current t = .ok x.2 := current_spec hp (by rw [Cursor.current, hrest, List.head?_cons])
          have hnext : c.next = (true, .at_ (c.before ++ [x]) y rest) := by rw [Cursor.next, hrest]
          have hitems : (Cursor.at_ (c.before ++ [x]) y rest).items = c.items := by
            have hsame := Cursor.items_next c
            rwa [hnext] at hsame
          rw [hnext] at hcall hp'
          rw [hrest] at hfuel
          obtain ⟨visited, t'', hthen, rfl, hp''⟩ := ih hp' (hitems ▸ hne) (Nat.le_of_succ_le_succ hfuel)
          refine ⟨x.2 :: (y :: rest).map Prod.snd, t'', ?_, rfl, ?_⟩
          · simp only [visit, hread, hcall, Run.ok_bind, if_true, hthen]
            rfl
          · rwa [Cursor.first, hitems] at hp''

theorem visitAll_spec (hp : Placed t c) : ∃ visited t', visitAll t = .ok (visited, t') ∧ visited = c.items.map Prod.snd ∧
    Placed t' c.first := by
  obtain ⟨t₁, hfirst, hp₁, ht₁⟩ := hfirst_spec hp
  have hcount : t.count = c.items.length := hp.count
  by_cases hnil : c.items = []
  · refine ⟨[], t₁, ?_, by rw [hnil]; rfl, hp₁⟩
    simp only [visitAll, hfirst, hnil, Run.ok_bind]
    rfl
  · have hfuel : c.first.rest.length ≤ t.count + 1 := hcount ▸ Nat.le_succ _
    obtain ⟨visited, t₂, hvisit, hvisited, hp₂⟩ := visit_spec hp₁ (by rwa [Cursor.items_first]) hfuel
    refine ⟨visited, t₂, ?_, hvisited, ?_⟩
    · simp only [visitAll, hfirst, hnil, Run.ok_bind, ne_eq, not_false_eq_true, decide_true, if_true, hvisit]
    · rwa [Cursor.first, Cursor.items_first] at hp₂

end Keeps

/-! ## After any calls -/

section Runs

variable {lookup : Bytes → Nat} {mem : κ → Bytes} {t : HTab κ α} {calls : List (Event Bytes α)}

/-- After any calls a table answers as a map with a current item, no key is there twice, and every further call returns. The current
item can be read as long as there is an item. -/
theorem hashtab_cursor (hrun : (tabSystem lookup mem).Runs calls t) :
    ∃ d, table.Runs calls d ∧ Keeps lookup mem t d ∧ (keys d).Nodup ∧ t.count = d.items.length ∧
      (t.count ≠ 0 → ∃ item, current t = .ok item ∧ d.current = some (mem item.key, item.stuff)) ∧
      ∀ c, Allowed t c → ∃ answer t' d', call lookup mem t c = .ok (answer, t') ∧ Step d (event mem c answer) d' ∧
        Keeps lookup mem t' d' := by
  obtain ⟨d, hd, hk⟩ := tab_simulates_table.runs hrun
  refine ⟨d, hd, hk, nodup_keys.holds hd, hk.count, fun hcount => ?_, fun c hallowed => hk.call hallowed⟩
  have hne : d.items ≠ [] := fun hnil => hcount (by rw [hk.count, hnil, List.length_nil])
  obtain ⟨⟨k, v⟩, hcurrent⟩ := Option.ne_none_iff_exists'.mp fun hnone => hne (Cursor.current_eq_none.mp hnone)
  obtain ⟨item, hread, rfl, rfl⟩ := hk.current hcurrent
  exact ⟨item, hread, hcurrent⟩

/-- A table that grows with its second item, which is deleted again. -/
theorem hashtab_cursor_pair : ∃ t : HTab Bytes Nat, t.count = 1 ∧ ∃ d,
    table.Runs [.added [1] 10 true, .added [2] 20 true, .deleted true] d ∧ Keeps (fun _ => 0) id t d ∧ (keys d).Nodup := by
  have hstart : (tabSystem (fun _ => 0) id).Runs [] (hcreate 0 : HTab Bytes Nat) := .start ⟨0, by decide, rfl⟩
  have hone := hstart.step ⟨.hadd [1] 10 0, true, rfl, rfl, rfl⟩
  have htwo := hone.step ⟨.hadd [2] 20 1, true, rfl, rfl, rfl⟩
  have hthree := htwo.step ⟨.hdel, true, trivial, rfl, rfl⟩
  obtain ⟨d, hd, hk, hnodup, -⟩ := hashtab_cursor hthree
  exact ⟨_, rfl, d, hd, hk, hnodup⟩

/-- The loop over a table comes to every item once, whatever was called before, and ends with the position at the first item. -/
theorem hashtab_walk (hrun : (tabSystem lookup mem).Runs calls t) :
    ∃ visited t' d, visitAll t = .ok (visited, t') ∧ table.Runs calls d ∧ d.items = visited.map (fun item => (mem item.key, item.stuff)) ∧
      (visited.map fun item => mem item.key).Nodup ∧ Keeps lookup mem t' d.first := by
  obtain ⟨d, hd, c, hp, hhashed, rfl⟩ := tab_simulates_table.runs hrun
  obtain ⟨visited, t', hcall, rfl, hp'⟩ := visitAll_spec hp
  refine ⟨_, t', _, hcall, hd, ?_, ?_, c.first, hp', ?_, Cursor.map_first _ c⟩
  · rw [Cursor.items_map, List.map_map]
    rfl
  · have hnodup := nodup_keys.holds hd
    rwa [keys_map, ← Function.comp_def (fun item => mem (HItem.key item)) Prod.snd, ← List.map_map] at hnodup
  · rwa [Cursor.items_first]

/-- Two items in one chain. -/
theorem hashtab_walk_pair : ∃ (t : HTab Bytes Nat) (visited : List (HItem Bytes Nat)) (t' : HTab Bytes Nat),
    visitAll t = .ok (visited, t') ∧ t.count = 2 ∧ (visited.map HItem.key).Nodup := by
  have hstart : (tabSystem (fun _ => 0) id).Runs [] (hcreate 1 : HTab Bytes Nat) := .start ⟨1, by decide, rfl⟩
  have hone := hstart.step ⟨.hadd [1] 10 0, true, rfl, rfl, rfl⟩
  have htwo := hone.step ⟨.hadd [2] 20 1, true, rfl, rfl, rfl⟩
  obtain ⟨visited, t', d, hcall, -, -, hnodup, -⟩ := hashtab_walk htwo
  exact ⟨_, visited, t', hcall, rfl, hnodup⟩

end Runs

end BeagleCache.HashTab
