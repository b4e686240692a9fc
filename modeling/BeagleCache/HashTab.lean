import BeagleCache.Bytes
import BeagleCache.Chains
import BeagleCache.CursorTable

/-! The hash table of hashtab.c, which is under every table of the cache: chains in an array of a power of two places, and a position at
one of the items. The key of an item is where the caller has its bytes. -/

namespace BeagleCache.HashTab

open Chains CursorTable Transition Function Run

/-- The address of an item. -/
abbrev Ptr := Nat

variable {κ α : Type}

/-- `hitem` without `next`. -/
structure HItem (κ α : Type) where
  key : κ
  keyl : Nat
  stuff : α
  hval : Nat

/-- `htab`, with the memory of its items; `mask` is one less than the size. -/
structure HTab (κ α : Type) where
  nodes : Heap Ptr (HItem κ α)
  table : Nat → Option Ptr
  logsize : Nat
  count : Nat
  apos : Nat
  ipos : Option Ptr

def HTab.size (t : HTab κ α) : Nat := 2 ^ t.logsize

/-- The place of a hash value. -/
def place (logsize x : Nat) : Nat := x &&& (2 ^ logsize - 1)

/-- A read of an item. -/
def HTab.item (t : HTab κ α) (h : Ptr) : Run (Cell Ptr (HItem κ α)) :=
  match t.nodes h with
  | some c => .ok c
  | none => .error .overrun

/-- `*ip = next`, where `ip` is the address of a place of the table or of the `next` of an item. -/
def HTab.setLink (t : HTab κ α) (ip next : Option Ptr) : Run (HTab κ α) :=
  match ip with
  | none => .ok { t with table := update t.table t.apos next }
  | some p => do
      let c ← t.item p
      return { t with nodes := update t.nodes p (some { c with next := next }) }

/-! ## The functions -/

def hcreate (logsize : Nat) : HTab κ α := ⟨fun _ => none, fun _ => none, logsize, 0, 0, none⟩

/-- `hnbucket`. -/
def hnbucket (t : HTab κ α) : Run (Bool × HTab κ α) := do
  inBounds (t.apos < t.size)
  match nextFrom t.table (t.apos + 1) t.size with
  | some i => return (true, { t with apos := i, ipos := t.table i })
  | none =>
      match nextFrom t.table 0 (t.apos + 1) with
      | some i => return (false, { t with apos := i, ipos := t.table i })
      | none => return (false, t)

/-- `hfirst`. -/
def hfirst (t : HTab κ α) : Run (Bool × HTab κ α) := do
  let r ← hnbucket { t with apos := t.size - 1 }
  return (r.2.ipos.isSome, r.2)

/-- `hnext`. -/
def hnext (t : HTab κ α) : Run (Bool × HTab κ α) :=
  match t.ipos with
  | none => .ok (false, t)
  | some h => do
      let c ← t.item h
      match c.next with
      | some next => return (true, { t with ipos := some next })
      | none => hnbucket { t with ipos := none }

/-- The item at the position, which `hkey` and `hstuff` read. -/
def current (t : HTab κ α) : Run (HItem κ α) :=
  match t.ipos with
  | none => .error .overrun
  | some h => do
      let c ← t.item h
      return c.body

/-- A chain while `hgrow` runs. -/
def growChain (logsize : Nat) : Nat → Option Ptr → Heap Ptr (HItem κ α) → (Nat → Option Ptr) →
    Run (Heap Ptr (HItem κ α) × (Nat → Option Ptr))
  | 0, _, _, _ => .error .hang
  | _ + 1, none, nodes, newtab => .ok (nodes, newtab)
  | fuel + 1, some that, nodes, newtab =>
      match nodes that with
      | none => .error .overrun
      | some c =>
          let newplace := place logsize c.body.hval
          growChain logsize fuel c.next (update nodes that (some { c with next := newtab newplace }))
            (update newtab newplace (some that))

/-- `hgrow`, which goes through the old table from its end. -/
def hgrow (t : HTab κ α) : Run (HTab κ α) := do
  let r ← (List.range t.size).reverse.foldlM
    (fun (r : Heap Ptr (HItem κ α) × (Nat → Option Ptr)) i => growChain (t.logsize + 1) (t.count + 1) (t.table i) r.1 r.2)
    (t.nodes, fun _ => none)
  let r ← hfirst ⟨r.1, r.2, t.logsize + 1, t.count, t.apos, t.ipos⟩
  return r.2

/-- The growth in `hadd`, where the new item is counted. -/
def growFull (t : HTab κ α) : Run (HTab κ α) := if 2 ^ t.logsize < t.count then hgrow t else .ok t

/-- A new item at the front of its chain, which `hadd` leaves the position at. -/
def putItem (t : HTab κ α) (h : Ptr) (item : HItem κ α) : HTab κ α :=
  let y := place t.logsize item.hval
  { t with
    nodes := update t.nodes h (some ⟨item, t.table y⟩)
    table := update t.table y (some h)
    ipos := some h
    apos := y }

section Keys

variable (lookup : Bytes → Nat) (mem : κ → Bytes)

/-- The comparison of `hfind` and `hadd`. -/
def HItem.Matches (key : Bytes) (item : HItem κ α) : Prop :=
  lookup key = item.hval ∧ key.length = item.keyl ∧ (mem item.key).take item.keyl = key

instance (key : Bytes) (item : HItem κ α) : Decidable (item.Matches lookup mem key) := inferInstanceAs (Decidable (_ ∧ _ ∧ _))

/-- The loops of `hfind` and `hadd`. -/
def findItem (t : HTab κ α) (key : Bytes) : Nat → Option Ptr → Run (Option Ptr)
  | 0, _ => .error .hang
  | _ + 1, none => .ok none
  | fuel + 1, some h => do
      let c ← t.item h
      if c.body.Matches lookup mem key then return some h else findItem t key fuel c.next

/-- `hfind`. -/
def hfind (t : HTab κ α) (key : Bytes) : Run (Bool × HTab κ α) := do
  let y := place t.logsize (lookup key)
  let found ← findItem lookup mem t key (t.count + 1) (t.table y)
  match found with
  | some h => return (true, { t with apos := y, ipos := some h })
  | none => return (false, t)

/-- `hadd`, with the node `h` that `renew` gives. -/
def hadd (t : HTab κ α) (key : κ) (stuff : α) (h : Ptr) : Run (Bool × HTab κ α) := do
  let x := lookup (mem key)
  let y := place t.logsize x
  let found ← findItem lookup mem t (mem key) (t.count + 1) (t.table y)
  match found with
  | some h => return (false, { t with apos := y, ipos := some h })
  | none => do
      let t ← growFull { t with count := t.count + 1 }
      return (true, putItem t h ⟨key, (mem key).length, stuff, x⟩)

end Keys

/-- The walk of `hdel` to the link of the item `h`. -/
def linkOf (t : HTab κ α) (h : Ptr) : Nat → Option Ptr → Option Ptr → Run (Option Ptr)
  | 0, _, _ => .error .hang
  | _ + 1, _, none => .error .overrun
  | fuel + 1, ip, some e =>
      if e = h then .ok ip
      else do
        let c ← t.item e
        linkOf t h fuel (some e) c.next

/-- The position of `hdel` behind an item that was the last of its chain. -/
def skipEmpty (t : HTab κ α) : Run (HTab κ α) :=
  match t.ipos with
  | some _ => .ok t
  | none => do
      let r ← hnbucket t
      return r.2

/-- `hdel`. -/
def hdel (t : HTab κ α) : Run (Bool × HTab κ α) :=
  match t.ipos with
  | none => .ok (false, t)
  | some h => do
      inBounds (t.apos < t.size)
      let ip ← linkOf t h (t.count + 1) none (t.table t.apos)
      let c ← t.item h
      let t ← t.setLink ip c.next
      let t ← skipEmpty { t with count := t.count - 1, ipos := c.next }
      let _ ← t.item h
      return (true, { t with nodes := update t.nodes h none })

/-- A loop over the table: `if( hfirst( t ) ) do … while( hnext( t ) )`, with the items that it comes to. -/
def visit : Nat → HTab κ α → Run (List (HItem κ α) × HTab κ α)
  | 0, _ => .error .hang
  | fuel + 1, t => do
      let item ← current t
      let r ← hnext t
      if r.1 then do
        let rest ← visit fuel r.2
        return (item :: rest.1, rest.2)
      else return ([item], r.2)

def visitAll (t : HTab κ α) : Run (List (HItem κ α) × HTab κ α) := do
  let r ← hfirst t
  if r.1 then visit (t.count + 1) r.2 else return ([], r.2)

/-! ## The items of a table -/

/-- A table with the chains at its places. -/
structure Shaped (t : HTab κ α) (chains : Nat → List (Ptr × HItem κ α)) : Prop where
  layout : Layout (· < t.size) t.nodes t.table chains
  placed : ∀ i < t.size, ∀ x ∈ chains i, place t.logsize x.2.hval = i

/-- The position is at an item of its chain, or there are no items. -/
structure At (t : HTab κ α) (chains : Nat → List (Ptr × HItem κ α)) (c : Cursor (Ptr × HItem κ α)) : Prop where
  all : c.items = items t.size chains
  apos : t.apos < t.size
  ipos : t.ipos = c.current.map Prod.fst
  position : ∀ x rest, c.rest = x :: rest → ∃ before after, chains t.apos = before ++ x :: after ∧
    c.before = items t.apos chains ++ before

/-- A table between two calls, with its items and its position. -/
structure Placed (t : HTab κ α) (c : Cursor (Ptr × HItem κ α)) : Prop where
  shaped : ∃ chains, Shaped t chains ∧ At t chains c
  count : t.count = c.items.length

section Shaped

variable {t : HTab κ α} {chains : Nat → List (Ptr × HItem κ α)} {c : Cursor (Ptr × HItem κ α)} {i fuel : Nat} {x : Ptr × HItem κ α}

theorem size_pos (t : HTab κ α) : 0 < t.size := Nat.two_pow_pos _

theorem place_lt (logsize x : Nat) : place logsize x < 2 ^ logsize := by
  rw [place, Nat.and_two_pow_sub_one_eq_mod]
  exact Nat.mod_lt _ (Nat.two_pow_pos _)

theorem item_of {cell : Cell Ptr (HItem κ α)} {h : Ptr} (hc : t.nodes h = some cell) : t.item h = .ok cell := by
  unfold HTab.item
  rw [hc]

variable (chains) in
theorem length_le_items (hi : i < t.size) : (chains i).length ≤ (items t.size chains).length := by
  rw [(flatMap_perm (List.mem_range.mpr hi) chains).length_eq, List.length_append]
  exact Nat.le_add_right _ _

theorem placed_hcreate (logsize : Nat) : Placed (hcreate logsize : HTab κ α) (.start []) := by
  have hempty : items (hcreate logsize : HTab κ α).size (fun _ => ([] : List (Ptr × HItem κ α))) = [] :=
    List.flatMap_eq_nil_iff.mpr fun _ _ => rfl
  refine ⟨⟨fun _ => [], ⟨.empty _, fun i _ x hx => absurd hx List.not_mem_nil⟩, ?_, size_pos _, rfl, ?_⟩, rfl⟩
  · rw [hempty]
    rfl
  · intro x rest hrest
    cases hrest

theorem At.of_split {before after : List (Ptr × HItem κ α)} (hi : i < t.size) (hapos : t.apos = i) (hipos : t.ipos = some x.1)
    (hchain : chains i = before ++ x :: after) :
    At t chains (.at_ (items i chains ++ before) x (after ++ itemsFrom t.size chains (i + 1))) where
  all := by
    rw [Cursor.items_at, items_split hi.le, itemsFrom_succ hi, hchain, List.append_assoc, List.append_assoc, List.cons_append]
  apos := hapos ▸ hi
  ipos := by rw [hipos, Cursor.current_at, Option.map_some]
  position := by
    rintro y rest hrest
    obtain ⟨rfl, -⟩ := List.cons.inj hrest
    exact ⟨before, after, hapos ▸ hchain, by rw [hapos]; rfl⟩

theorem At.split (hat : At t chains c) {rest : List (Ptr × HItem κ α)} (hrest : c.rest = x :: rest) :
    ∃ before after, chains t.apos = before ++ x :: after ∧ t.ipos = some x.1 ∧ c.before = items t.apos chains ++ before ∧
      rest = after ++ itemsFrom t.size chains (t.apos + 1) := by
  obtain ⟨before, after, hchain, hbefore⟩ := hat.position x rest hrest
  refine ⟨before, after, hchain, ?_, hbefore, ?_⟩
  · rw [hat.ipos, Cursor.current, hrest]
    rfl
  · have hitems := hat.all
    rw [items_split hat.apos.le, itemsFrom_succ hat.apos, hchain, Cursor.items, hrest, hbefore, List.append_assoc, List.append_assoc]
      at hitems
    exact (List.cons.inj (List.append_cancel_left (List.append_cancel_left hitems))).2

/-! ## The position moves -/

theorem hnbucket_spec (hs : Shaped t chains) (hapos : t.apos < t.size) :
    (items t.size chains = [] ∧ hnbucket t = .ok (false, t)) ∨
      (∃ x rest t', itemsFrom t.size chains (t.apos + 1) = x :: rest ∧ hnbucket t = .ok (true, t') ∧
        t' = { t with apos := t'.apos, ipos := t'.ipos } ∧ At t' chains (.at_ (items (t.apos + 1) chains) x rest)) ∨
      (itemsFrom t.size chains (t.apos + 1) = [] ∧ items t.size chains ≠ [] ∧ ∃ t', hnbucket t = .ok (false, t') ∧
        t' = { t with apos := t'.apos, ipos := t'.ipos } ∧ At t' chains (.start (items t.size chains))) := by
  obtain ⟨hnext, hnil⟩ | ⟨i, x, after, hnext, hle, hi, hhead, hchain, hempty⟩ := nextFrom_spec hs.layout.heads (t.apos + 1)
  · have hheads : ∀ i, i < t.apos + 1 → t.table i = first (chains i) := fun i hi => hs.layout.heads i (by show i < t.size; omega)
    have hwhole : items t.size chains = items (t.apos + 1) chains := by rw [items_split (Nat.succ_le_of_lt hapos), hnil, List.append_nil]
    obtain ⟨hagain, hnil'⟩ | ⟨i, x, after, hagain, -, hi, hhead, hchain, hempty⟩ := nextFrom_spec hheads 0
    · refine .inl ⟨?_, ?_⟩
      · rw [hwhole, ← itemsFrom_zero, hnil']
      · simp only [hnbucket, inBounds_of hapos, ok_bind, hnext, hagain]
        rfl
    · have hlt : i < t.size := by omega
      have hstart : items t.size chains = x :: (after ++ itemsFrom t.size chains (i + 1)) := by
        rw [items_split hlt.le, items_skip (Nat.zero_le i) hempty, itemsFrom_succ hlt, hchain]
        rfl
      have hat : At { t with apos := i, ipos := t.table i } chains
          (.at_ (items i chains ++ []) x (after ++ itemsFrom t.size chains (i + 1))) :=
        At.of_split (t := { t with apos := i, ipos := t.table i }) hlt rfl hhead hchain
      refine .inr (.inr ⟨hnil, ?_, { t with apos := i, ipos := t.table i }, ?_, rfl, ?_⟩)
      · rw [hstart]
        exact List.cons_ne_nil _ _
      · simp only [hnbucket, inBounds_of hapos, ok_bind, hnext, hagain]
        rfl
      · rw [items_skip (Nat.zero_le i) hempty] at hat
        rw [hstart]
        exact hat
  · have hat : At { t with apos := i, ipos := t.table i } chains
        (.at_ (items i chains ++ []) x (after ++ itemsFrom t.size chains (i + 1))) :=
      At.of_split (t := { t with apos := i, ipos := t.table i }) hi rfl hhead hchain
    refine .inr (.inl ⟨x, after ++ itemsFrom t.size chains (i + 1), { t with apos := i, ipos := t.table i }, ?_, ?_, rfl, ?_⟩)
    · rw [itemsFrom_skip hle hi.le hempty, itemsFrom_succ hi, hchain]
      rfl
    · simp only [hnbucket, inBounds_of hapos, ok_bind, hnext]
      rfl
    · rw [List.append_nil, items_skip hle hempty] at hat
      exact hat

theorem Shaped.move (hs : Shaped t chains) {t' : HTab κ α} (ht : t' = { t with apos := t'.apos, ipos := t'.ipos }) : Shaped t' chains := by
  rw [ht]
  exact ⟨hs.layout, hs.placed⟩

theorem hfirst_spec (hp : Placed t c) : ∃ t', hfirst t = .ok (decide (c.items ≠ []), t') ∧ Placed t' c.first ∧
    t' = { t with apos := t'.apos, ipos := t'.ipos } := by
  obtain ⟨⟨chains, hs, hat⟩, hcount⟩ := hp
  have hlast : t.size - 1 < t.size := Nat.sub_lt (size_pos t) Nat.one_pos
  have hs' : Shaped { t with apos := t.size - 1 } chains := ⟨hs.layout, hs.placed⟩
  have hend : t.size - 1 + 1 = t.size := Nat.sub_add_cancel (size_pos t)
  obtain ⟨hnil, hcall⟩ | ⟨x, rest, t', hfrom, -⟩ | ⟨-, hne, t', hcall, ht, hat'⟩ := hnbucket_spec hs' hlast
  · have hempty : c.items = [] := hat.all.trans hnil
    have hnone : t.ipos = none := by rw [hat.ipos, Cursor.current_eq_none.mpr hempty, Option.map_none]
    refine ⟨{ t with apos := t.size - 1 }, ?_, ⟨⟨chains, hs', hat.all, hlast, ?_, ?_⟩, ?_⟩, rfl⟩
    · rw [hfirst, hcall, hempty]
      simp only [ok_bind, hnone, pure_eq_ok]
      rfl
    · rw [Cursor.first, hempty]
      exact hnone
    · intro x rest hrest
      rw [Cursor.first, hempty] at hrest
      cases hrest
    · rw [Cursor.items_first]
      exact hcount
  · have hnone : itemsFrom t.size chains (t.size - 1 + 1) = [] := itemsFrom_of_le hend.ge
    cases hnone.symm.trans hfrom
  · have hitems : c.items = items t.size chains := hat.all
    have hsome : t'.ipos.isSome = true := by
      rw [hat'.ipos, Option.isSome_map, Option.isSome_iff_ne_none]
      exact fun hnone => hne (Cursor.current_eq_none.mp hnone)
    replace hne : c.items ≠ [] := hitems ▸ hne
    refine ⟨t', ?_, ⟨⟨chains, hs'.move ht, ?_⟩, ?_⟩, ?_⟩
    · rw [hfirst, hcall]
      simp only [ok_bind, hsome, pure_eq_ok]
      rw [decide_eq_true hne]
    · rw [Cursor.first, hitems]
      exact hat'
    · rw [ht, Cursor.items_first]
      exact hcount
    · rw [ht]

theorem hnext_spec (hp : Placed t c) : ∃ t', hnext t = .ok (c.next.1, t') ∧ Placed t' c.next.2 ∧
    t' = { t with apos := t'.apos, ipos := t'.ipos } := by
  obtain ⟨⟨chains, hs, hat⟩, hcount⟩ := hp
  match hrest : c.rest with
  | [] =>
      have hc : c = .start [] := Cursor.eq_start_nil hrest
      have hnone : t.ipos = none := by
        rw [hat.ipos, hc]
        rfl
      refine ⟨t, ?_, ⟨⟨chains, hs, ?_⟩, ?_⟩, rfl⟩
      · rw [hnext, hnone, Cursor.next, hrest]
      · rw [hc] at hat ⊢
        exact hat
      · rw [Cursor.items_next]
        exact hcount
  | x :: rest =>
      obtain ⟨before, after, hchain, hipos, hbefore, hbehind⟩ := hat.split hrest
      have hall : Chain t.nodes (before ++ x :: after) := hchain ▸ hs.layout.chain _ hat.apos
      have hmove : hnext t = (match first after with
          | some next => .ok (true, { t with ipos := some next })
          | none => hnbucket { t with ipos := none }) := by
        rw [hnext, hipos]
        show (t.item x.1 >>= _) = _
        rw [item_of hall.cell]
        cases after <;> rfl
      cases after with
      | cons y ys =>
          have hnextc : c.next = (true, .at_ (c.before ++ [x]) y (ys ++ itemsFrom t.size chains (t.apos + 1))) := by
            rw [Cursor.next, hrest, hbehind]
            rfl
          have hsplit : chains t.apos = (before ++ [x]) ++ y :: ys := by rw [hchain, List.append_assoc, List.singleton_append]
          have hat' := At.of_split (t := { t with ipos := some y.1 }) hat.apos rfl rfl hsplit
          refine ⟨{ t with ipos := some y.1 }, ?_, ⟨⟨chains, ⟨hs.layout, hs.placed⟩, ?_⟩, ?_⟩, rfl⟩
          · rw [hmove, hnextc]
            rfl
          · rw [hnextc, hbefore, List.append_assoc]
            exact hat'
          · rw [Cursor.items_next]
            exact hcount
      | nil =>
          have hs' : Shaped { t with ipos := none } chains := ⟨hs.layout, hs.placed⟩
          have hends : items (t.apos + 1) chains = c.before ++ [x] := by rw [items_succ, hchain, hbefore, List.append_assoc]
          rw [List.nil_append] at hbehind
          obtain ⟨hnil, -⟩ | ⟨y, ys, t', hfrom, hcall, ht, hat'⟩ | ⟨hfrom, -, t', hcall, ht, hat'⟩ := hnbucket_spec hs' hat.apos
          · have hitems := hat.all.trans hnil
            rw [Cursor.items, hrest] at hitems
            exact absurd hitems (List.append_ne_nil_of_right_ne_nil _ (List.cons_ne_nil _ _))
          · have hnextc : c.next = (true, .at_ (c.before ++ [x]) y ys) := by
              rw [Cursor.next, hrest, hbehind, show itemsFrom t.size chains (t.apos + 1) = y :: ys from hfrom]
            refine ⟨t', ?_, ⟨⟨chains, hs'.move ht, ?_⟩, ?_⟩, ?_⟩
            · rw [hmove, hnextc]
              exact hcall
            · rw [hnextc, ← hends]
              exact hat'
            · rw [Cursor.items_next, ht]
              exact hcount
            · rw [ht]
          · have hnextc : c.next = (false, c.first) := by
              rw [Cursor.next, hrest, hbehind, show itemsFrom t.size chains (t.apos + 1) = [] from hfrom]
            refine ⟨t', ?_, ⟨⟨chains, hs'.move ht, ?_⟩, ?_⟩, ?_⟩
            · rw [hmove, hnextc]
              exact hcall
            · rw [hnextc, Cursor.first, hat.all]
              exact hat'
            · rw [Cursor.items_next, ht]
              exact hcount
            · rw [ht]

theorem current_spec (hp : Placed t c) (hcurrent : c.current = some x) : current t = .ok x.2 := by
  obtain ⟨⟨chains, hs, hat⟩, -⟩ := hp
  obtain ⟨rest, hrest⟩ := List.head?_eq_some_iff.mp hcurrent
  obtain ⟨before, after, hchain, hipos, -⟩ := hat.split hrest
  have hall : Chain t.nodes (before ++ x :: after) := hchain ▸ hs.layout.chain _ hat.apos
  rw [current, hipos]
  show (t.item x.1 >>= _) = _
  rw [item_of hall.cell]
  rfl

/-! ## The table grows -/

theorem hfirst_moves (hs : Shaped t chains) : ∃ r t', hfirst t = .ok (r, t') ∧ t' = { t with apos := t'.apos, ipos := t'.ipos } := by
  have hlast : t.size - 1 < t.size := Nat.sub_lt (size_pos t) Nat.one_pos
  have hs' : Shaped { t with apos := t.size - 1 } chains := ⟨hs.layout, hs.placed⟩
  obtain ⟨-, hcall⟩ | ⟨-, -, t', -, hcall, ht, -⟩ | ⟨-, -, t', hcall, ht, -⟩ := hnbucket_spec hs' hlast
  · exact ⟨_, { t with apos := t.size - 1 }, by rw [hfirst, hcall]; rfl, rfl⟩
  · exact ⟨_, t', by rw [hfirst, hcall]; rfl, by rw [ht]⟩
  · exact ⟨_, t', by rw [hfirst, hcall]; rfl, by rw [ht]⟩

theorem growChain_spec {n logsize : Nat} {xs : List (Ptr × HItem κ α)} {nodes : Heap Ptr (HItem κ α)} {heads newtab : Nat → Option Ptr}
    {old new : Nat → List (Ptr × HItem κ α)}
    (hl : Layout (Sum.elim (· < n) (· < 2 ^ logsize)) nodes (Sum.elim heads newtab) (Sum.elim old new)) (hi : i < n)
    (hold : old i = xs) (hfuel : xs.length < fuel) :
    ∃ nodes' newtab' heads', growChain logsize fuel (first xs) nodes newtab = .ok (nodes', newtab') ∧
      Layout (Sum.elim (· < n) (· < 2 ^ logsize)) nodes' (Sum.elim heads' newtab')
        (Sum.elim (update old i []) (rehash (fun b => place logsize b.hval) xs new)) := by
  induction xs generalizing fuel nodes heads newtab old new with
  | nil =>
      obtain ⟨fuel, rfl⟩ := Nat.exists_eq_add_one.mpr hfuel
      have hsame : update old i [] = old := by rw [← hold, update_eq_self]
      refine ⟨nodes, newtab, heads, rfl, ?_⟩
      rw [hsame]
      exact hl
  | cons x xs ih =>
      obtain ⟨fuel, rfl⟩ := Nat.exists_eq_add_one.mpr hfuel.pos
      have hcell : nodes x.1 = some ⟨x.2, first xs⟩ := by
        have hchain : Chain nodes (old i) := hl.chain (.inl i) hi
        rw [hold] at hchain
        exact hchain.1
      have hmoved := hl.moveFirst hi (place_lt logsize x.2.hval) hold
      obtain ⟨nodes', newtab', heads', hrest, hlayout⟩ := ih hmoved (update_self ..) (Nat.lt_of_succ_lt_succ hfuel)
      refine ⟨nodes', newtab', heads', ?_, ?_⟩
      · simp only [first_cons, growChain, hcell]
        exact hrest
      · rwa [update_idem] at hlayout

theorem growChains_spec {n : Nat} (logsize fuel : Nat) (table : Nat → Option Ptr) {l : List Nat} (hnodup : l.Nodup)
    {nodes : Heap Ptr (HItem κ α)}
    {heads newtab : Nat → Option Ptr} {old new : Nat → List (Ptr × HItem κ α)}
    (hl : Layout (Sum.elim (· < n) (· < 2 ^ logsize)) nodes (Sum.elim heads newtab) (Sum.elim old new)) (hlt : ∀ i ∈ l, i < n)
    (htable : ∀ i ∈ l, table i = first (old i)) (hfuel : ∀ i ∈ l, (old i).length < fuel) :
    ∃ nodes' newtab' heads',
      l.foldlM (fun (r : Heap Ptr (HItem κ α) × (Nat → Option Ptr)) i => growChain logsize fuel (table i) r.1 r.2) (nodes, newtab) =
        .ok (nodes', newtab') ∧
      Layout (Sum.elim (· < n) (· < 2 ^ logsize)) nodes' (Sum.elim heads' newtab')
        (Sum.elim (fun j => if j ∈ l then [] else old j) (rehash (fun b => place logsize b.hval) (l.flatMap old) new)) := by
  induction l generalizing nodes heads newtab old new with
  | nil =>
      refine ⟨nodes, newtab, heads, rfl, ?_⟩
      rw [emptied_nil]
      exact hl
  | cons i l ih =>
      obtain ⟨hi, hrest⟩ := List.nodup_cons.mp hnodup
      have hother : ∀ j ∈ l, update old i [] j = old j :=
        fun j hj => update_of_ne (ne_of_mem_of_not_mem hj hi) _ _
      obtain ⟨nodes₁, newtab₁, heads₁, hm₁, hl₁⟩ := growChain_spec hl (hlt i List.mem_cons_self) rfl (hfuel i List.mem_cons_self)
      obtain ⟨nodes', newtab', heads', hm', hl'⟩ := ih hrest hl₁ (fun j hj => hlt j (List.mem_cons_of_mem _ hj))
        (fun j hj => (htable j (List.mem_cons_of_mem _ hj)).trans (congrArg first (hother j hj).symm))
        (fun j hj => (hother j hj) ▸ hfuel j (List.mem_cons_of_mem _ hj))
      refine ⟨nodes', newtab', heads', ?_, ?_⟩
      · rw [List.foldlM_cons, htable i List.mem_cons_self, hm₁]
        exact hm'
      · have hflat : l.flatMap (update old i []) = l.flatMap old := List.flatMap_congr hother
        rwa [hflat, emptied_cons, ← rehash_append, ← List.flatMap_cons] at hl'

/-- `hgrow` keeps the items, wherever their chains are afterwards. -/
theorem hgrow_spec (hs : Shaped t chains) (hcount : (items t.size chains).length ≤ t.count) : ∃ t' chains', hgrow t = .ok t' ∧
    Shaped t' chains' ∧ (items t'.size chains').Perm (items t.size chains) ∧ t'.count = t.count ∧ t'.logsize = t.logsize + 1 := by
  have hlt : ∀ i ∈ (List.range t.size).reverse, i < t.size := fun i hi => List.mem_range.mp (List.mem_reverse.mp hi)
  obtain ⟨nodes, newtab, heads, hmoved, hl⟩ := growChains_spec (t.logsize + 1) (t.count + 1) t.table
    (List.nodup_reverse.mpr List.nodup_range) (hs.layout.beside (· < 2 ^ (t.logsize + 1))) hlt
    (fun i hi => hs.layout.heads i (hlt i hi)) (fun i hi => Nat.lt_succ_of_le ((length_le_items chains (hlt i hi)).trans hcount))
  have hright := hl.right fun i hi => if_pos (List.mem_reverse.mpr (List.mem_range.mpr hi))
  have hall : ((List.range t.size).reverse.flatMap chains).Perm (items t.size chains) :=
    (List.reverse_perm _).flatMap_right _
  have hperm := rehash_perm (m := 2 ^ (t.logsize + 1)) (fun b : HItem κ α => place (t.logsize + 1) b.hval)
    ((List.range t.size).reverse.flatMap chains) (fun _ => []) fun x _ => place_lt _ x.2.hval
  have hnone : ((List.range (2 ^ (t.logsize + 1))).flatMap fun _ => ([] : List (Ptr × HItem κ α))) = [] :=
    List.flatMap_eq_nil_iff.mpr fun _ _ => rfl
  rw [hnone, List.append_nil] at hperm
  have hs' : Shaped (⟨nodes, newtab, t.logsize + 1, t.count, t.apos, t.ipos⟩ : HTab κ α)
      (rehash (fun b => place (t.logsize + 1) b.hval) ((List.range t.size).reverse.flatMap chains) fun _ => []) := by
    refine ⟨hright, fun i _ x hx => ?_⟩
    obtain hempty | ⟨-, hplaced⟩ := rehash_placed hx
    · exact absurd hempty List.not_mem_nil
    · exact hplaced
  obtain ⟨r, t', hfirst, ht⟩ := hfirst_moves hs'
  refine ⟨t', _, ?_, hs'.move ht, ?_, by rw [ht], by rw [ht]⟩
  · simp only [hgrow, hmoved, ok_bind, hfirst, pure_eq_ok]
  · rw [ht]
    exact hperm.trans hall

/-! ## Lookups -/

section Keys

variable {lookup : Bytes → Nat} {mem : κ → Bytes} {key : Bytes}

variable (lookup mem key) in
theorem findItem_spec {xs : List (Ptr × HItem κ α)} (hchain : Chain t.nodes xs) (hfuel : xs.length < fuel) :
    findItem lookup mem t key fuel (first xs) = .ok ((xs.find? fun x => x.2.Matches lookup mem key).map Prod.fst) := by
  induction xs generalizing fuel with
  | nil =>
      obtain ⟨fuel, rfl⟩ := Nat.exists_eq_add_one.mpr hfuel
      rfl
  | cons x xs ih =>
      obtain ⟨fuel, rfl⟩ := Nat.exists_eq_add_one.mpr hfuel.pos
      rw [first_cons, findItem, item_of hchain.1, ok_bind]
      by_cases hmatch : x.2.Matches lookup mem key
      · rw [if_pos hmatch, List.find?_cons_of_pos (by simpa using hmatch)]
        rfl
      · have hrest := ih hchain.2 (Nat.lt_of_succ_lt_succ hfuel)
        rw [if_neg hmatch, List.find?_cons_of_neg (by simpa using hmatch)]
        exact hrest

variable (lookup mem key) in
/-- The search of `hfind` and `hadd`: no item matches, or an item of the chain of the hash value does. -/
theorem search_spec (hs : Shaped t chains) (hcount : (items t.size chains).length ≤ t.count) :
    ((∀ x ∈ items t.size chains, ¬x.2.Matches lookup mem key) ∧
        findItem lookup mem t key (t.count + 1) (t.table (place t.logsize (lookup key))) = .ok none) ∨
      ∃ x before after, chains (place t.logsize (lookup key)) = before ++ x :: after ∧ x.2.Matches lookup mem key ∧
        findItem lookup mem t key (t.count + 1) (t.table (place t.logsize (lookup key))) = .ok (some x.1) := by
  have hi : place t.logsize (lookup key) < t.size := place_lt _ _
  have hfind := findItem_spec lookup mem key (hs.layout.chain _ hi)
    (Nat.lt_succ_of_le ((length_le_items chains hi).trans hcount))
  rw [← hs.layout.heads _ hi] at hfind
  cases hfound : (chains (place t.logsize (lookup key))).find? fun x => x.2.Matches lookup mem key with
  | none =>
      refine .inl ⟨fun x hx hmatch => ?_, by rw [hfind, hfound]; rfl⟩
      obtain ⟨i, hi, hmem⟩ := List.mem_flatMap.mp hx
      have hplaced := hs.placed i (List.mem_range.mp hi) x hmem
      rw [← hmatch.1] at hplaced
      rw [← hplaced] at hmem
      have hnot := List.find?_eq_none.mp hfound x hmem
      exact hnot (decide_eq_true hmatch)
  | some x =>
      obtain ⟨before, after, hchain⟩ := List.append_of_mem (List.mem_of_find?_eq_some hfound)
      have hmatch : x.2.Matches lookup mem key := by simpa using List.find?_some hfound
      exact .inr ⟨x, before, after, hchain, hmatch, by rw [hfind, hfound]; rfl⟩

theorem Placed.at_item (hs : Shaped t chains) (hat : At t chains c) (hcount : t.count = c.items.length) (hi : i < t.size)
    {before after : List (Ptr × HItem κ α)} (hchain : chains i = before ++ x :: after) :
    ∃ c' : Cursor (Ptr × HItem κ α), Placed { t with apos := i, ipos := some x.1 } c' ∧ c'.items = c.items ∧ c'.current = some x := by
  have hat' := At.of_split (t := { t with apos := i, ipos := some x.1 }) hi rfl rfl hchain
  have hitems := hat'.all.trans hat.all.symm
  refine ⟨_, ⟨⟨chains, ⟨hs.layout, hs.placed⟩, hat'⟩, ?_⟩, hitems, rfl⟩
  rw [hitems]
  exact hcount

variable (lookup mem) in
theorem hfind_spec (hp : Placed t c) (key : Bytes) :
    ((∀ x ∈ c.items, ¬x.2.Matches lookup mem key) ∧ hfind lookup mem t key = .ok (false, t)) ∨
      ∃ x t' c', x ∈ c.items ∧ x.2.Matches lookup mem key ∧ hfind lookup mem t key = .ok (true, t') ∧ Placed t' c' ∧
        c'.items = c.items ∧ c'.current = some x := by
  obtain ⟨⟨chains, hs, hat⟩, hcount⟩ := hp
  have hle : (items t.size chains).length ≤ t.count := by rw [← hat.all, hcount]
  obtain ⟨hnone, hcall⟩ | ⟨x, before, after, hchain, hmatch, hcall⟩ := search_spec lookup mem key hs hle
  · refine .inl ⟨hat.all ▸ hnone, ?_⟩
    rw [hfind, hcall]
    rfl
  · obtain ⟨c', hp', hitems, hcurrent⟩ := Placed.at_item hs hat hcount (place_lt _ _) hchain
    refine .inr ⟨x, _, c', ?_, hmatch, ?_, hp', hitems, hcurrent⟩
    · rw [← hitems]
      exact Cursor.mem_of_current hcurrent
    · rw [hfind, hcall]
      rfl

theorem Shaped.fresh_iff (hs : Shaped t chains) {h : Ptr} : t.nodes h = none ↔ h ∉ Chains.keys (items t.size chains) := by
  rw [← not_iff_not, not_not, ← ne_eq, hs.layout.allocated]
  simp only [Chains.keys, items, List.mem_map, List.mem_flatMap, List.mem_range]
  constructor
  · rintro ⟨i, hi, x, hx, rfl⟩
    exact ⟨x, ⟨i, hi, hx⟩, rfl⟩
  · rintro ⟨x, ⟨i, hi, hx⟩, rfl⟩
    exact ⟨i, hi, x, hx, rfl⟩

theorem putItem_spec (hs : Shaped t chains) {h : Ptr} (hfresh : t.nodes h = none) (hcount : t.count = (items t.size chains).length + 1)
    (item : HItem κ α) : ∃ c' : Cursor (Ptr × HItem κ α), Placed (putItem t h item) c' ∧
      c'.items.Perm ((h, item) :: items t.size chains) ∧ c'.current = some (h, item) := by
  have hi : place t.logsize item.hval < t.size := place_lt _ _
  have hitems := flatMap_update_more (f := chains) List.nodup_range (List.mem_range.mpr hi)
    (.refl ((h, item) :: chains (place t.logsize item.hval)))
  have hs' : Shaped (putItem t h item) (update chains (place t.logsize item.hval)
      ((h, item) :: chains (place t.logsize item.hval))) := by
    refine ⟨hs.layout.push hfresh hi item, fun j hj x hx => ?_⟩
    by_cases hne : j = place t.logsize item.hval
    · subst hne
      rw [update_self] at hx
      obtain rfl | hx := List.mem_cons.mp hx
      · rfl
      · exact hs.placed _ hj x hx
    · rw [update_of_ne hne] at hx
      exact hs.placed j hj x hx
  have hself := update_self (place t.logsize item.hval) ((h, item) :: chains (place t.logsize item.hval)) chains
  have hat : At (putItem t h item) (update chains (place t.logsize item.hval)
      ((h, item) :: chains (place t.logsize item.hval))) _ :=
    At.of_split hi rfl rfl (hself.trans (List.nil_append _).symm)
  have hall := List.Perm.trans (.of_eq hat.all) hitems
  refine ⟨_, ⟨⟨_, hs', hat⟩, ?_⟩, hall, rfl⟩
  rw [hall.length_eq]
  exact hcount

theorem growFull_spec (hs : Shaped t chains) (hcount : t.count = (items t.size chains).length) : ∃ t' chains',
    growFull { t with count := t.count + 1 } = .ok t' ∧
      Shaped t' chains' ∧ (items t'.size chains').Perm (items t.size chains) ∧ t'.count = t.count + 1 := by
  have hs' : Shaped { t with count := t.count + 1 } chains := ⟨hs.layout, hs.placed⟩
  unfold growFull
  split
  · obtain ⟨t', chains', hcall, hs'', hperm, hcount', -⟩ := hgrow_spec hs' (hcount ▸ Nat.le_succ _)
    exact ⟨t', chains', hcall, hs'', hperm, hcount'⟩
  · exact ⟨_, chains, rfl, hs', .refl _, rfl⟩

variable (lookup mem) in
/-- `hadd` of a key that is not there adds an item, and the position is at it. -/
theorem hadd_spec (hp : Placed t c) (key : κ) {h : Ptr} (hfresh : t.nodes h = none) (stuff : α) :
    ((∀ x ∈ c.items, ¬x.2.Matches lookup mem (mem key)) ∧ ∃ t' c', hadd lookup mem t key stuff h = .ok (true, t') ∧ Placed t' c' ∧
        c'.items.Perm ((h, ⟨key, (mem key).length, stuff, lookup (mem key)⟩) :: c.items) ∧
        c'.current = some (h, ⟨key, (mem key).length, stuff, lookup (mem key)⟩)) ∨
      ∃ x t' c', x ∈ c.items ∧ x.2.Matches lookup mem (mem key) ∧ hadd lookup mem t key stuff h = .ok (false, t') ∧ Placed t' c' ∧
        c'.items = c.items ∧ c'.current = some x := by
  obtain ⟨⟨chains, hs, hat⟩, hcount⟩ := hp
  have hle : (items t.size chains).length ≤ t.count := by rw [← hat.all, hcount]
  obtain ⟨hnone, hcall⟩ | ⟨x, before, after, hchain, hmatch, hcall⟩ :=
    search_spec lookup mem (mem key) hs hle
  · obtain ⟨t₁, chains₁, hgrown, hs₁, hperm, hcount₁⟩ := growFull_spec hs (hcount.trans (congrArg List.length hat.all))
    have hfree : t₁.nodes h = none := by
      rw [hs₁.fresh_iff]
      rw [hs.fresh_iff] at hfresh
      exact fun hmem => hfresh ((hperm.map Prod.fst).mem_iff.mp hmem)
    have hcount' : t₁.count = (items t₁.size chains₁).length + 1 := by rw [hcount₁, hcount, hperm.length_eq, hat.all]
    obtain ⟨c', hp', hitems, hcurrent⟩ :=
      putItem_spec hs₁ hfree hcount' ⟨key, (mem key).length, stuff, lookup (mem key)⟩
    refine .inl ⟨hat.all ▸ hnone, _, c', ?_, hp', hitems.trans ((hat.all ▸ hperm).cons _), hcurrent⟩
    simp only [hadd, hcall, ok_bind, hgrown, pure_eq_ok]
  · obtain ⟨c', hp', hitems, hcurrent⟩ := Placed.at_item hs hat hcount (place_lt _ _) hchain
    refine .inr ⟨x, _, c', ?_, hmatch, ?_, hp', hitems, hcurrent⟩
    · rw [← hitems]
      exact Cursor.mem_of_current hcurrent
    · rw [hadd, hcall]
      rfl

end Keys

/-! ## An item is deleted -/

theorem linkOf_spec (before : List (Ptr × HItem κ α)) {mid after : List (Ptr × HItem κ α)} (hchain : Chain t.nodes (mid ++ x :: after))
    (hnodup : (Chains.keys (mid ++ x :: after)).Nodup) (hfuel : mid.length < fuel) :
    linkOf t x.1 fuel (linkBehind before) (first (mid ++ x :: after)) = .ok (linkBehind (before ++ mid)) := by
  induction mid generalizing before fuel with
  | nil =>
      obtain ⟨fuel, rfl⟩ := Nat.exists_eq_add_one.mpr hfuel
      rw [List.nil_append, first_cons, linkOf, if_pos rfl, List.append_nil]
  | cons y mid ih =>
      obtain ⟨fuel, rfl⟩ := Nat.exists_eq_add_one.mpr hfuel.pos
      obtain ⟨hy, hrest⟩ := List.nodup_cons.mp hnodup
      have hne : y.1 ≠ x.1 := fun heq => hy (heq ▸ List.mem_map_of_mem (List.mem_append_right _ List.mem_cons_self))
      have hthen := ih (before ++ [y]) hchain.2 hrest (Nat.lt_of_succ_lt_succ hfuel)
      rw [linkBehind_concat, List.append_assoc, List.singleton_append] at hthen
      rw [List.cons_append, first_cons, linkOf, if_neg hne, item_of hchain.1]
      exact hthen

theorem setLink_spec (hs : Shaped t chains) (hapos : t.apos < t.size) {before after : List (Ptr × HItem κ α)}
    (hchain : chains t.apos = before ++ x :: after) : ∃ t', t.setLink (linkBehind before) (first after) = .ok t' ∧
      t' = { t with nodes := t'.nodes, table := t'.table } ∧ t'.nodes x.1 = t.nodes x.1 ∧
      Layout (· < t.size) (update t'.nodes x.1 none) t'.table (update chains t.apos (before ++ after)) := by
  have hall := hs.layout.chain _ hapos
  have hnodup := hs.layout.nodup _ hapos
  rw [hchain] at hall hnodup
  obtain rfl | ⟨xs, y, rfl⟩ := List.eq_nil_or_concat' before
  · exact ⟨_, rfl, rfl, rfl, hs.layout.pop hapos hchain⟩
  · rw [List.append_assoc] at hchain hall hnodup
    have hne : x.1 ≠ y.1 := by
      rw [Chains.keys, List.map_append] at hnodup
      have hnot : y.1 ∉ Chains.keys (x :: after) := (List.nodup_cons.mp (List.nodup_append.mp hnodup).2.1).1
      exact fun heq => hnot (heq ▸ List.mem_cons_self)
    refine ⟨{ t with nodes := update t.nodes y.1 (some ⟨y.2, first after⟩) }, ?_, rfl, update_of_ne hne _ _, ?_⟩
    · rw [linkBehind_concat, HTab.setLink, item_of hall.cell]
      rfl
    · rw [List.append_assoc]
      exact hs.layout.unlink hapos hchain

theorem hnbucket_nodes {nodes : Heap Ptr (HItem κ α)} {b : Bool} {t' : HTab κ α} (h : hnbucket { t with nodes := nodes } = .ok (b, t')) :
    hnbucket t = .ok (b, { t' with nodes := t.nodes }) := by
  obtain ⟨_, hin, h⟩ := bind_eq_ok.mp h
  have hapos : t.apos < t.size := inBounds_eq_ok.mp hin
  rw [hnbucket, inBounds_of hapos, ok_bind]
  split at h
  · rename_i i hi
    rw [show nextFrom t.table (t.apos + 1) t.size = some i from hi]
    cases h
    rfl
  · rename_i hnone
    rw [show nextFrom t.table (t.apos + 1) t.size = none from hnone]
    split at h
    · rename_i i hi
      rw [show nextFrom t.table 0 (t.apos + 1) = some i from hi]
      cases h
      rfl
    · rename_i hnone'
      rw [show nextFrom t.table 0 (t.apos + 1) = none from hnone']
      cases h
      rfl

theorem skipEmpty_of_hnbucket {nodes : Heap Ptr (HItem κ α)} {b : Bool} {t' : HTab κ α} (hnone : t.ipos = none)
    (h : hnbucket { t with nodes := nodes } = .ok (b, t')) : skipEmpty t = .ok { t' with nodes := t.nodes } := by
  rw [skipEmpty, hnone]
  show (hnbucket t >>= _) = _
  rw [hnbucket_nodes h]
  rfl

theorem skipEmpty_spec (hs : Shaped t chains) (hat : At t chains c) {rest before after : List (Ptr × HItem κ α)}
    (hrest : c.rest = x :: rest)
    (hchain : chains t.apos = before ++ x :: after) (hbefore : c.before = items t.apos chains ++ before)
    (hbehind : rest = after ++ itemsFrom t.size chains (t.apos + 1)) (hcount : t.count = c.items.length) {t₁ : HTab κ α}
    (ht₁ : t₁ = { t with nodes := t₁.nodes, table := t₁.table })
    (hlayout : Layout (· < t.size) (update t₁.nodes x.1 none) t₁.table (update chains t.apos (before ++ after))) :
    ∃ t', skipEmpty { t₁ with count := t.count - 1, ipos := first after } = .ok t' ∧ t'.nodes = t₁.nodes ∧
      Placed { t' with nodes := update t'.nodes x.1 none } c.delete := by
  obtain ⟨nodes, table, logsize, count, apos, ipos⟩ := t₁
  simp only [HTab.mk.injEq, true_and] at ht₁
  obtain ⟨rfl, rfl, rfl, rfl⟩ := ht₁
  have hs' : Shaped (⟨update nodes x.1 none, table, t.logsize, t.count - 1, t.apos, first after⟩ : HTab κ α)
      (update chains t.apos (before ++ after)) := by
    refine ⟨hlayout, fun i hi y hy => hs.placed i hi y ?_⟩
    by_cases hne : i = t.apos
    · subst hne
      rw [update_self] at hy
      rw [hchain]
      exact List.Sublist.subset ((List.Sublist.refl before).append (List.sublist_cons_self x after)) hy
    · rwa [update_of_ne hne] at hy
  have hlength : t.count - 1 = c.delete.items.length := by
    rw [Cursor.items_delete hrest, hcount, Cursor.items, hrest, List.length_append, List.length_append, List.length_cons]
    omega
  have hitems : items t.apos (update chains t.apos (before ++ after)) = items t.apos chains := items_update (le_refl _)
  have hfrom : itemsFrom t.size (update chains t.apos (before ++ after)) (t.apos + 1) = itemsFrom t.size chains (t.apos + 1) :=
    itemsFrom_update (Nat.lt_succ_self _)
  cases after with
  | cons y ys =>
      have hdelete : c.delete = .at_ c.before y (ys ++ itemsFrom t.size chains (t.apos + 1)) := by
        rw [Cursor.delete, hrest, hbehind]
        rfl
      have hat' := At.of_split (t := (⟨update nodes x.1 none, table, t.logsize, t.count - 1, t.apos, some y.1⟩ : HTab κ α))
        hat.apos rfl rfl (update_self t.apos (before ++ y :: ys) chains)
      have hsame : itemsFrom t.size (update chains t.apos (before ++ y :: ys)) (t.apos + 1) =
        itemsFrom t.size chains (t.apos + 1) := hfrom
      refine ⟨_, rfl, rfl, ⟨_, hs', ?_⟩, hlength⟩
      rw [hdelete, hbefore, ← hitems, ← hsame]
      exact hat'
  | nil =>
      have hsucc : items (t.apos + 1) (update chains t.apos (before ++ [])) = c.before := by
        rw [items_succ, hitems, update_self, List.append_nil, hbefore]
      rw [List.nil_append, ← hfrom] at hbehind
      -- Past the end of the chain the position moves as on the table without the item, whose nodes it does not read.
      have hends : ∀ (b : Bool) (t' : HTab κ α),
          hnbucket ⟨update nodes x.1 none, table, t.logsize, t.count - 1, t.apos, none⟩ = .ok (b, t') →
          t' = ⟨update nodes x.1 none, table, t.logsize, t.count - 1, t'.apos, t'.ipos⟩ →
          At t' (update chains t.apos (before ++ [])) c.delete →
          ∃ t'', skipEmpty ⟨nodes, table, t.logsize, t.count - 1, t.apos, none⟩ = .ok t'' ∧ t''.nodes = nodes ∧
            Placed { t'' with nodes := update t''.nodes x.1 none } c.delete := by
        intro b t' hcall ht' hat'
        have hback : { t' with nodes := update nodes x.1 none } = t' := by rw [ht']
        refine ⟨{ t' with nodes := nodes }, skipEmpty_of_hnbucket rfl hcall, rfl, ?_⟩
        show Placed { t' with nodes := update nodes x.1 none } c.delete
        rw [hback]
        refine ⟨⟨_, hs'.move ht', hat'⟩, ?_⟩
        rw [ht']
        exact hlength
      obtain ⟨hnil, hcall⟩ | ⟨y, ys, t', hnext, hcall, ht', hat'⟩ | ⟨hnext, -, t', hcall, ht', hat'⟩ := hnbucket_spec hs' hat.apos
      · have hempty : c.before = [] ∧ rest = [] := by
          have hwhole : items t.size (update chains t.apos (before ++ [])) = [] := hnil
          rw [items_split (Nat.succ_le_of_lt hat.apos), hsucc, ← hbehind] at hwhole
          exact List.append_eq_nil_iff.mp hwhole
        have hdelete : c.delete = .start [] := by rw [Cursor.delete, hrest, hempty.1, hempty.2]
        refine hends _ _ hcall rfl ?_
        rw [hdelete]
        exact ⟨hnil.symm, hat.apos, rfl, fun y ys hys => by cases hys⟩
      · have hdelete : c.delete = .at_ c.before y ys := by
          rw [Cursor.delete, hrest, hbehind.trans hnext]
        refine hends _ _ hcall ht' ?_
        rw [hdelete, ← hsucc]
        exact hat'
      · have hdelete : c.delete = .start c.before := by
          rw [Cursor.delete, hrest, hbehind.trans hnext]
        have hwhole : items t.size (update chains t.apos (before ++ [])) = c.before := by
          rw [items_split (Nat.succ_le_of_lt hat.apos), hsucc]
          exact (congrArg (c.before ++ ·) hnext).trans (List.append_nil _)
        refine hends _ _ hcall ht' ?_
        rw [hdelete, ← hwhole]
        exact hat'

theorem hdel_spec (hp : Placed t c) :
    (c.items = [] ∧ hdel t = .ok (false, t)) ∨ ∃ x t', c.current = some x ∧ hdel t = .ok (true, t') ∧ Placed t' c.delete := by
  obtain ⟨⟨chains, hs, hat⟩, hcount⟩ := hp
  match hrest : c.rest with
  | [] =>
      have hc : c = .start [] := Cursor.eq_start_nil hrest
      have hnone : t.ipos = none := by
        rw [hat.ipos, hc]
        rfl
      refine .inl ⟨?_, ?_⟩
      · rw [hc, Cursor.items_start]
      · rw [hdel, hnone]
  | x :: rest =>
      obtain ⟨before, after, hchain, hipos, hbefore, hbehind⟩ := hat.split hrest
      have hall := hs.layout.chain _ hat.apos
      have hnodup := hs.layout.nodup _ hat.apos
      rw [hchain] at hall hnodup
      have hfuel : before.length < t.count + 1 := by
        have hle := length_le_items chains hat.apos
        rw [← hat.all, ← hcount, hchain, List.length_append] at hle
        omega
      have hlink : linkOf t x.1 (t.count + 1) none (t.table t.apos) = .ok (linkBehind before) := by
        rw [hs.layout.heads _ hat.apos, hchain]
        exact linkOf_spec [] hall hnodup hfuel
      obtain ⟨t₁, hset, ht₁, hcell, hlayout⟩ := setLink_spec hs hat.apos hchain
      obtain ⟨t', hskip, ht', hp'⟩ := skipEmpty_spec hs hat hrest hchain hbefore hbehind hcount ht₁ hlayout
      have hread : t'.item x.1 = .ok ⟨x.2, first after⟩ := by
        refine item_of ?_
        rw [ht', hcell]
        exact hall.cell
      refine .inr ⟨x, { t' with nodes := update t'.nodes x.1 none }, ?_, ?_, hp'⟩
      · rw [Cursor.current, hrest]
        rfl
      · rw [hdel, hipos]
        simp only [inBounds_of hat.apos, ok_bind, hlink, item_of hall.cell, hset]
        have hcount₁ : t₁.count = t.count := by rw [ht₁]
        rw [hcount₁, hskip, ok_bind, hread]
        rfl

end Shaped

end BeagleCache.HashTab
