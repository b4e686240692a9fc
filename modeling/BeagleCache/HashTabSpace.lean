import BeagleCache.HashTabRuns
import BeagleCache.Recycle

/-! A hash table of hashtab.c with its space: its items are nodes of recycle.c. What `hadd` needs of a new node holds of every node that
`renew` gives, so a table works for any calls. -/

namespace BeagleCache.HashTab

open CursorTable Transition Recycle Run

variable {κ α : Type} (lookup : Bytes → Nat) (mem : κ → Bytes)

/-- `sizeof( hitem )`. -/
def itemSize : Nat := 20

/-- `htab` with its `space`. -/
structure SpaceTab (κ α : Type) where
  tab : HTab κ α
  space : Reroot

/-- `hcreate` -/
def createSpace (logsize : Nat) : SpaceTab κ α := ⟨hcreate logsize, remkroot itemSize⟩

/-- `hadd`, where `block` is what `malloc` returns to `renew`. -/
def addItem (t : SpaceTab κ α) (key : κ) (stuff : α) (block : Nat) : Run (Bool × SpaceTab κ α) := do
  let x := lookup (mem key)
  let y := place t.tab.logsize x
  let found ← findItem lookup mem t.tab (mem key) (t.tab.count + 1) (t.tab.table y)
  match found with
  | some h => return (false, { t with tab := { t.tab with apos := y, ipos := some h } })
  | none => do
      let node ← renew t.space block
      let tab ← growFull { t.tab with count := t.tab.count + 1 }
      return (true, ⟨putItem tab node.1 ⟨key, (mem key).length, stuff, x⟩, node.2⟩)

/-- `hdel`, which gives the item back with `redel`. -/
def delItem (t : SpaceTab κ α) : Run (Bool × SpaceTab κ α) :=
  match t.tab.ipos with
  | none => .ok (false, t)
  | some h => do
      let r ← hdel t.tab
      return (r.1, ⟨r.2, redel t.space h⟩)

/-- A call, where `hadd` has the block for a new node in place of the node. -/
def spaceCall (t : SpaceTab κ α) : Call κ α → Run (Bool × SpaceTab κ α)
  | .hadd key stuff block => addItem lookup mem t key stuff block
  | .hdel => delItem t
  | c => do
      let r ← call lookup mem t.tab c
      return (r.1, { t with tab := r.2 })

/-- `malloc` returns a block that is beside the others. -/
def FreshBlock (t : SpaceTab κ α) : Call κ α → Prop
  | .hadd _ _ block => Fresh t.space block
  | _ => True

/-- A table with its space from `hcreate` on. -/
def spaceSystem : System (SpaceTab κ α) (Event Bytes α) where
  init := fun t => ∃ logsize, logsize < 30 ∧ t = createSpace logsize
  step := fun t e t' => ∃ c answer, FreshBlock t c ∧ spaceCall lookup mem t c = .ok (answer, t') ∧ event mem c answer = e

/-! ## The nodes in use are the items -/

/-- The nodes of the space that are in use are the items of the table. -/
structure Owns (t : SpaceTab κ α) (c : Cursor (Ptr × HItem κ α)) (live : List Nat) : Prop where
  placed : Placed t.tab c
  good : Good t.space live
  items : live.Perm (Chains.keys c.items)

section Owns

variable {lookup : Bytes → Nat} {mem : κ → Bytes} {t t' : SpaceTab κ α} {c : Cursor (Ptr × HItem κ α)} {live : List Nat}

theorem Placed.allocated {t : HTab κ α} (hp : Placed t c) {h : Ptr} : t.nodes h ≠ none ↔ h ∈ Chains.keys c.items := by
  obtain ⟨⟨chains, hs, hat⟩, -⟩ := hp
  rw [ne_eq, hs.fresh_iff, not_not, hat.all]

theorem Owns.live_iff (ho : Owns t c live) {h : Ptr} : h ∈ live ↔ t.tab.nodes h ≠ none := by
  rw [ho.placed.allocated, ho.items.mem_iff]

theorem owns_createSpace (logsize : Nat) : Owns (createSpace logsize : SpaceTab κ α) (.start []) [] where
  placed := placed_hcreate logsize
  good := good_remkroot (by decide)
  items := .refl _

/-- The table of `addItem` is the one of `hadd` with the node that `renew` gives. -/
theorem addItem_eq {key : κ} {stuff : α} {block h : Nat} {r : Reroot} (hrenew : renew t.space block = .ok (h, r)) :
    addItem lookup mem t key stuff block =
      hadd lookup mem t.tab key stuff h >>= fun a => return (a.1, ⟨a.2, if a.1 then r else t.space⟩) := by
  cases hfound : findItem lookup mem t.tab (mem key) (t.tab.count + 1) (t.tab.table (place t.tab.logsize (lookup (mem key)))) with
  | error e => simp only [addItem, hadd, hfound, error_bind]
  | ok found =>
      cases found with
      | some x =>
          simp only [addItem, hadd, hfound, ok_bind]
          rfl
      | none =>
          simp only [addItem, hadd, hfound, ok_bind, hrenew]
          cases growFull { t.tab with count := t.tab.count + 1 } with
          | error e => rfl
          | ok tab => rfl

/-- A call of `hadd` with its space is one of `hadd` with a node that is not in the table. -/
theorem Owns.addItem (ho : Owns t c live) (key : κ) (stuff : α) {block : Nat} (hfresh : Fresh t.space block) :
    ∃ answer t' c' live' h, HashTab.addItem lookup mem t key stuff block = .ok (answer, t') ∧ t.tab.nodes h = none ∧
      hadd lookup mem t.tab key stuff h = .ok (answer, t'.tab) ∧ Owns t' c' live' := by
  obtain ⟨h, r, hrenew, hgood, -⟩ := renew_spec ho.good hfresh
  have hnew : h ∉ live := (List.nodup_cons.mp (nodup_of_apart hgood.size hgood.live_apart)).1
  have hfree : t.tab.nodes h = none := by
    rw [ho.live_iff, ne_eq, not_not] at hnew
    exact hnew
  obtain ⟨-, tab, c', hcall, hp, hperm, -⟩ | ⟨x, tab, c', -, -, hcall, hp, hitems, -⟩ :=
    hadd_spec lookup mem ho.placed key hfree stuff
  · refine ⟨true, ⟨tab, r⟩, c', h :: live, h, ?_, hfree, hcall, hp, hgood, ?_⟩
    · rw [addItem_eq hrenew, hcall]
      rfl
    · exact (ho.items.cons h).trans (hperm.map Prod.fst).symm
  · refine ⟨false, ⟨tab, t.space⟩, c', live, h, ?_, hfree, hcall, hp, ho.good, ?_⟩
    · rw [addItem_eq hrenew, hcall]
      rfl
    · rw [hitems]
      exact ho.items

theorem Owns.delItem (ho : Owns t c live) : ∃ answer t' c' live', HashTab.delItem t = .ok (answer, t') ∧
    hdel t.tab = .ok (answer, t'.tab) ∧ Owns t' c' live' := by
  have hipos : t.tab.ipos = c.current.map Prod.fst := by
    obtain ⟨⟨chains, -, hat⟩, -⟩ := ho.placed
    exact hat.ipos
  obtain ⟨hnil, hcall⟩ | ⟨x, tab, hcurrent, hcall, hp⟩ := hdel_spec ho.placed
  · rw [Cursor.current_eq_none.mpr hnil] at hipos
    refine ⟨false, t, c, live, ?_, hcall, ho⟩
    unfold HashTab.delItem
    rw [hipos]
    rfl
  · rw [hcurrent] at hipos
    have hmem : x.1 ∈ live := ho.items.mem_iff.mpr (List.mem_map_of_mem (Cursor.mem_of_current hcurrent))
    obtain ⟨rest, hrest⟩ := List.head?_eq_some_iff.mp hcurrent
    refine ⟨true, ⟨tab, redel t.space x.1⟩, c.delete, live.erase x.1, ?_, hcall, hp, redel_spec ho.good hmem, ?_⟩
    · unfold HashTab.delItem
      rw [hipos, hcall]
      rfl
    · have hitems : (Chains.keys c.items).Perm (x.1 :: Chains.keys c.delete.items) := by
        rw [Cursor.items_delete hrest, Cursor.items, hrest]
        exact List.perm_middle.map Prod.fst
      have herased := (ho.items.trans hitems).erase x.1
      rwa [List.erase_cons_head] at herased

theorem Owns.moved (ho : Owns t c live) {tab : HTab κ α} {c' : Cursor (Ptr × HItem κ α)} (hp : Placed tab c')
    (hitems : c'.items = c.items) : Owns { t with tab := tab } c' live := by
  refine ⟨hp, ho.good, ?_⟩
  rw [hitems]
  exact ho.items

/-- Every call returns, and is one on the table in which `hadd` has a node that is not in use. -/
theorem Owns.call (ho : Owns t c live) {e : Call κ α} (hfresh : FreshBlock t e) : ∃ answer t' c' live' e',
    spaceCall lookup mem t e = .ok (answer, t') ∧ Allowed t.tab e' ∧ HashTab.call lookup mem t.tab e' = .ok (answer, t'.tab) ∧
      event mem e' answer = event mem e answer ∧ Owns t' c' live' := by
  cases e with
  | hfind key =>
      obtain ⟨-, hcall⟩ | ⟨x, tab, c', -, -, hcall, hp, hitems, -⟩ := hfind_spec lookup mem ho.placed key
      · refine ⟨false, t, c, live, .hfind key, ?_, trivial, hcall, rfl, ho⟩
        simp only [spaceCall, HashTab.call, hcall, ok_bind, pure_eq_ok]
      · refine ⟨true, { t with tab := tab }, c', live, .hfind key, ?_, trivial, hcall, rfl, ho.moved hp hitems⟩
        simp only [spaceCall, HashTab.call, hcall, ok_bind, pure_eq_ok]
  | hadd key stuff block =>
      obtain ⟨answer, t', c', live', h, hcall, hfree, htab, ho'⟩ := ho.addItem key stuff hfresh
      exact ⟨answer, t', c', live', .hadd key stuff h, hcall, hfree, htab, rfl, ho'⟩
  | hdel =>
      obtain ⟨answer, t', c', live', hcall, htab, ho'⟩ := ho.delItem
      exact ⟨answer, t', c', live', .hdel, hcall, trivial, htab, rfl, ho'⟩
  | hfirst =>
      obtain ⟨tab, hcall, hp, -⟩ := hfirst_spec ho.placed
      refine ⟨_, { t with tab := tab }, c.first, live, .hfirst, ?_, trivial, hcall, rfl, ho.moved hp (Cursor.items_first ..)⟩
      simp only [spaceCall, HashTab.call, hcall, ok_bind, pure_eq_ok]
  | hnext =>
      obtain ⟨tab, hcall, hp, -⟩ := hnext_spec ho.placed
      refine ⟨_, { t with tab := tab }, c.next.2, live, .hnext, ?_, trivial, hcall, rfl, ho.moved hp (Cursor.items_next c)⟩
      simp only [spaceCall, HashTab.call, hcall, ok_bind, pure_eq_ok]

theorem space_simulates_tab : System.Simulation (spaceSystem lookup mem : System (SpaceTab κ α) _) (tabSystem lookup mem)
    (fun t tab => t.tab = tab ∧ ∃ c live, Owns t c live) where
  init := by
    rintro t ⟨logsize, hlog, rfl⟩
    exact ⟨hcreate logsize, ⟨logsize, hlog, rfl⟩, rfl, .start [], [], owns_createSpace logsize⟩
  step := by
    rintro t tab e t' ⟨rfl, c, live, ho⟩ ⟨a, answer, hfresh, hcall, rfl⟩
    obtain ⟨answer', t'', c', live', a', hcall', hallowed, htab, hevent, ho'⟩ := ho.call hfresh
    cases hcall.symm.trans hcall'
    exact ⟨t'.tab, ⟨a', answer, hallowed, htab, hevent⟩, rfl, c', live', ho'⟩

end Owns

/-! ## After any calls -/

section Runs

variable {lookup : Bytes → Nat} {mem : κ → Bytes} {t : SpaceTab κ α} {calls : List (Event Bytes α)}

/-- After any calls, a table that takes its items from its space answers as a map with a current item, its items do not overlap and are
inside of the blocks of the space, and every further call returns. -/
theorem hashtab_space (hrun : (spaceSystem lookup mem).Runs calls t) :
    (∃ d, table.Runs calls d ∧ Keeps lookup mem t.tab d) ∧
      (∀ p q, t.tab.nodes p ≠ none → t.tab.nodes q ≠ none → p ≠ q → Apart t.space.size p q) ∧
      (∀ p, t.tab.nodes p ≠ none → ∃ b ∈ t.space.list, Recycle.Inside t.space.size b p) ∧
      ∀ c, FreshBlock t c → ∃ answer t', spaceCall lookup mem t c = .ok (answer, t') := by
  obtain ⟨tab, htab, rfl, c, live, ho⟩ := space_simulates_tab.runs hrun
  refine ⟨tab_simulates_table.runs htab, fun p q hp hq hne => ?_, fun p hp => ?_, fun a hfresh => ?_⟩
  · exact ho.good.live_apart.forall (ho.live_iff.mpr hp) (ho.live_iff.mpr hq) hne
  · exact ho.good.live_inside (ho.live_iff.mpr hp)
  · obtain ⟨answer, t', c', live', a', hcall, -⟩ := ho.call hfresh
    exact ⟨answer, t', hcall⟩

/-- An item that is deleted: the next one is at its node. -/
theorem hashtab_space_reused : ∃ t : SpaceTab Bytes Nat, t.tab.ipos = some 104 ∧
    ∃ d, table.Runs [.added [1] 10 true, .deleted true, .added [2] 20 true] d ∧ Keeps (fun _ => 0) id t.tab d := by
  have hstart : (spaceSystem (fun _ => 0) id).Runs [] (createSpace 0 : SpaceTab Bytes Nat) := .start ⟨0, by decide, rfl⟩
  have hone := hstart.step ⟨.hadd [1] 10 100, true, fun b hb => absurd hb List.not_mem_nil, rfl, rfl⟩
  have htwo := hone.step ⟨.hdel, true, trivial, rfl, rfl⟩
  have hthree := htwo.step ⟨.hadd [2] 20 200, true, fun b hb => by
    rw [List.mem_singleton.mp hb]
    decide, rfl, rfl⟩
  obtain ⟨hkeeps, -⟩ := hashtab_space hthree
  exact ⟨_, rfl, hkeeps⟩

end Runs

end BeagleCache.HashTab
