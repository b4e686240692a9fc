import BeagleCache.ConnectionBase

/-! The base of connections over any calls: it is the pool of connections that are kept open, whatever the order of the calls, as long as
the names of servers fit where they are copied to. -/

namespace BeagleCache.ConnectionBase

open Function Run

open CursorTable (Cursor)
open Transition
open HashTab (HTab HItem Placed Hashed hcreate hfind hadd hdel hfirst hnext)
open LinkedList (Linked startIter notEnd getPresentData move deletePresent addToHead)
open ConnectionPool (Connection Pool Event Sound Idle Old FirstIdle Closes)

section Shows

variable (lookup : Bytes → Nat)

/-- The base has the connections of a pool, at an item of its table. No list is empty. -/
structure ShowsAt (b : Base) (c : Cursor Item) (lists : Ptr → List Ptr) (s : Pool Ptr Bytes) : Prop where
  listed : Listed lookup b c lists
  connections : b.connections = s.connections
  dead : b.delConList = s.dead
  some_list : ∀ x ∈ c.items, s.listed (b.keyAt x.2.stuff) = lists x.2.stuff
  no_list : ∀ server, server ∉ names b c → s.listed server = []
  ne_nil : ∀ x ∈ c.items, lists x.2.stuff ≠ []

/-- No two connections have the same address as an `unsigned`. -/
def Apart (connections : Ptr → Option (Connection Bytes)) : Prop :=
  ∀ p q, connections p ≠ none → connections q ≠ none → BitVec.ofNat 32 p = BitVec.ofNat 32 q → p = q

/-- The base between two calls. -/
structure Shows (b : Base) (s : Pool Ptr Bytes) : Prop where
  base : ∃ c lists, ShowsAt lookup b c lists s
  sound : Sound s
  apart : Apart s.connections

variable {lookup} {b b' : Base} {c c' : Cursor Item} {lists : Ptr → List Ptr} {s : Pool Ptr Bytes} {x : Item} {p : Ptr} {e : BaseEntry}
  {now : Int}

theorem ShowsAt.moved (h : ShowsAt lookup b c lists s) {t : HTab Ptr Ptr} (hlisted : Listed lookup { b with connTab := t } c' lists)
    (hitems : c'.items = c.items) : ShowsAt lookup { b with connTab := t } c' lists s := by
  refine ⟨hlisted, h.connections, h.dead, ?_, ?_, ?_⟩
  · rw [hitems]
    exact h.some_list
  · intro server hserver
    apply h.no_list
    rw [names, ← hitems]
    exact hserver
  · rw [hitems]
    exact h.ne_nil

theorem ShowsAt.setConnection (h : ShowsAt lookup b c lists s) (p : Ptr) (d : Connection Bytes) :
    ShowsAt lookup (b.setConnection p (some d)) c lists (s.set p d) where
  listed := h.listed.moved h.listed.placed rfl rfl
  connections := by
    show update b.connections p (some d) = update s.connections p (some d)
    rw [h.connections]
  dead := h.dead
  some_list := h.some_list
  no_list := h.no_list
  ne_nil := h.ne_nil

theorem ShowsAt.setList (h : ShowsAt lookup b c lists s) (hx : x ∈ c.items) (he : b.entries x.2.stuff = some e)
    {L : LinkedList Ptr} {seq : List (Ptr × LinkedList.Entry Ptr)} (hL : Linked L seq) (hne : connsOf seq ≠ []) :
    ShowsAt lookup (b.setEntry x.2.stuff (some { e with conns := L })) c (update lists x.2.stuff (connsOf seq))
      { s with listed := update s.listed (b.keyAt x.2.stuff) (connsOf seq) } := by
  have hkey : (b.setEntry x.2.stuff (some { e with conns := L })).keyAt = b.keyAt := keyAt_setEntry he rfl
  refine ⟨h.listed.setList hx he hL, h.connections, h.dead, fun y hy => ?_, fun server hserver => ?_, fun y hy => ?_⟩
  · show update s.listed _ (connsOf seq) ((b.setEntry x.2.stuff (some { e with conns := L })).keyAt y.2.stuff) = _
    rw [hkey]
    by_cases hyx : y = x
    · subst hyx
      rw [update_self, update_self]
    · have hname : b.keyAt y.2.stuff ≠ b.keyAt x.2.stuff := fun heq => hyx (h.listed.item_eq hy hx heq)
      have hstuff : y.2.stuff ≠ x.2.stuff := fun heq => hname (congrArg b.keyAt heq)
      rw [update_of_ne hname, update_of_ne hstuff]
      exact h.some_list y hy
  · rw [names, hkey] at hserver
    have hother : server ≠ b.keyAt x.2.stuff := fun heq => hserver (heq ▸ Listed.mem_names hx)
    show update s.listed _ (connsOf seq) server = []
    rw [update_of_ne hother]
    exact h.no_list server hserver
  · by_cases hstuff : y.2.stuff = x.2.stuff
    · rw [hstuff, update_self]
      exact hne
    · rw [update_of_ne hstuff]
      exact h.ne_nil y hy

theorem ShowsAt.dropped (h : ShowsAt lookup b c lists s) {rest : List Item} (hrest : c.rest = x :: rest) {t : HTab Ptr Ptr}
    (hplaced : Placed t c.delete) : ShowsAt lookup { b.setEntry x.2.stuff none with connTab := t } c.delete lists
      { s with listed := update s.listed (b.keyAt x.2.stuff) [] } := by
  have hlisted := h.listed.dropped hrest hplaced
  have hitems : c.delete.items = c.before ++ rest := Cursor.items_delete hrest
  have hall : c.items.Perm (x :: c.delete.items) := by
    rw [hitems, Cursor.items, hrest]
    exact List.perm_middle
  have hx : x ∈ c.items := hall.mem_iff.mpr List.mem_cons_self
  have hnames : (x :: c.delete.items).map (fun y => b.keyAt y.2.stuff) =
      b.keyAt x.2.stuff :: c.delete.items.map fun y => b.keyAt y.2.stuff :=
    rfl
  have hnodup : (b.keyAt x.2.stuff :: c.delete.items.map fun y => b.keyAt y.2.stuff).Nodup := by
    rw [← hnames]
    exact (hall.map _).nodup_iff.mp h.listed.nodup
  have hmem : ∀ y ∈ c.delete.items, y ∈ c.items := fun y hy => hall.mem_iff.mpr (List.mem_cons_of_mem _ hy)
  have hother : ∀ y ∈ c.delete.items, b.keyAt y.2.stuff ≠ b.keyAt x.2.stuff := by
    intro y hy heq
    exact (List.nodup_cons.mp hnodup).1 (heq ▸ List.mem_map_of_mem hy)
  have hkey : ∀ y ∈ c.delete.items, (b.setEntry x.2.stuff none).keyAt y.2.stuff = b.keyAt y.2.stuff :=
    fun y hy => keyAt_setEntry_of_ne _ fun heq => hother y hy (congrArg b.keyAt heq)
  refine ⟨hlisted, h.connections, h.dead, fun y hy => ?_, fun server hserver => ?_, fun y hy => h.ne_nil y (hmem y hy)⟩
  · show update s.listed _ [] ((b.setEntry x.2.stuff none).keyAt y.2.stuff) = lists y.2.stuff
    rw [hkey y hy, update_of_ne (hother y hy)]
    exact h.some_list y (hmem y hy)
  · by_cases heq : server = b.keyAt x.2.stuff
    · subst heq
      exact update_self ..
    · show update s.listed _ [] server = []
      rw [update_of_ne heq]
      apply h.no_list
      intro hmem'
      have hold := (hall.map fun y => b.keyAt y.2.stuff).mem_iff.mp hmem'
      obtain rfl | hold := List.mem_cons.mp hold
      · exact heq rfl
      · obtain ⟨y, hy, rfl⟩ := List.mem_map.mp hold
        apply hserver
        exact List.mem_map.mpr ⟨y, hy, hkey y hy⟩

theorem ShowsAt.added (h : ShowsAt lookup b c lists s) (hfresh : b.entries p = none) {t : HTab Ptr Ptr} {i : HashTab.Ptr}
    {item : HItem Ptr Ptr} (hplaced : Placed t c') (hperm : c'.items.Perm ((i, item) :: c.items)) (hkey : item.key = p)
    (hstuff : item.stuff = p) (hhashed : item.hval = lookup e.server ∧ item.keyl = e.server.length) (hnew : e.server ∉ names b c)
    (hfits : e.server.length < 50) {seq : List (Ptr × LinkedList.Entry Ptr)} (hlinked : Linked e.conns seq) (hne : connsOf seq ≠ []) :
    ShowsAt lookup { b.setEntry p (some e) with connTab := t } c' (update lists p (connsOf seq))
      { s with listed := update s.listed e.server (connsOf seq) } := by
  have hself : (b.setEntry p (some e)).keyAt p = e.server := keyAt_of (update_self ..)
  have hold : ∀ y ∈ c.items, y.2.stuff ≠ p := by
    intro y hy heq
    obtain ⟨e', -, he', -⟩ := h.listed.entry y hy
    rw [heq, hfresh] at he'
    cases he'
  have hkeep : ∀ y ∈ c.items, (b.setEntry p (some e)).keyAt y.2.stuff = b.keyAt y.2.stuff :=
    fun y hy => keyAt_setEntry_of_ne _ (hold y hy)
  have hother : ∀ y ∈ c.items, b.keyAt y.2.stuff ≠ e.server := fun y hy heq => hnew (heq ▸ Listed.mem_names hy)
  have hmem : ∀ y ∈ c'.items, y = (i, item) ∨ y ∈ c.items := fun y hy => List.mem_cons.mp (hperm.mem_iff.mp hy)
  refine ⟨h.listed.added hfresh hplaced hperm hkey hstuff hhashed hnew hfits hlinked, h.connections, h.dead, fun y hy => ?_,
    fun server hserver => ?_, fun y hy => ?_⟩
  · show update s.listed e.server (connsOf seq) ((b.setEntry p (some e)).keyAt y.2.stuff) = _
    obtain rfl | hy := hmem y hy
    · rw [hstuff, hself, update_self, update_self]
    · rw [hkeep y hy, update_of_ne (hother y hy), update_of_ne (hold y hy)]
      exact h.some_list y hy
  · have hnew' : server ∉ names b c ∧ server ≠ e.server := by
      constructor
      · intro hmem'
        obtain ⟨y, hy, rfl⟩ := List.mem_map.mp hmem'
        exact hserver (List.mem_map.mpr ⟨y, hperm.mem_iff.mpr (List.mem_cons_of_mem _ hy), hkeep y hy⟩)
      · intro heq
        refine hserver (List.mem_map.mpr ⟨(i, item), hperm.mem_iff.mpr List.mem_cons_self, ?_⟩)
        show (b.setEntry p (some e)).keyAt item.stuff = server
        rw [hstuff, hself, heq]
    show update s.listed e.server (connsOf seq) server = []
    rw [update_of_ne hnew'.2]
    exact h.no_list server hnew'.1
  · obtain rfl | hy := hmem y hy
    · rw [hstuff, update_self]
      exact hne
    · rw [update_of_ne (hold y hy)]
      exact h.ne_nil y hy

/-- The list of the current server changes; if it is empty then, the server is given up. -/
theorem ShowsAt.dropEmpty (h : ShowsAt lookup b c lists s) {rest : List Item} (hrest : c.rest = x :: rest)
    (he : b.entries x.2.stuff = some e) {L : LinkedList Ptr} {seq : List (Ptr × LinkedList.Entry Ptr)} (hL : Linked L seq) :
    ∃ b' c' lists', dropEmpty b x.2.stuff { e with conns := L } = .ok b' ∧
      ShowsAt lookup b' c' lists' { s with listed := update s.listed (b.keyAt x.2.stuff) (connsOf seq) } ∧
      (connsOf seq = [] ∧ c' = c.delete ∨ connsOf seq ≠ [] ∧ c' = c ∧ lists' = update lists x.2.stuff (connsOf seq)) := by
  have hx : x ∈ c.items := by
    rw [Cursor.items, hrest]
    exact List.mem_append_right _ List.mem_cons_self
  unfold ConnectionBase.dropEmpty
  by_cases hnil : seq = []
  · have hsize : L.size = 0 := hL.size_eq_zero.mpr hnil
    subst hnil
    obtain ⟨hitems, -⟩ | ⟨y, t', hcurrent, hcall, hplaced⟩ := HashTab.hdel_spec h.listed.placed
    · rw [hitems] at hx
      cases hx
    · refine ⟨_, c.delete, lists, ?_, h.dropped hrest hplaced, .inl ⟨rfl, rfl⟩⟩
      rw [if_pos hsize, hcall]
      rfl
  · have hsize : ¬L.size = 0 := mt hL.size_eq_zero.mp hnil
    have hne : connsOf seq ≠ [] := mt List.map_eq_nil_iff.mp hnil
    exact ⟨_, c, _, if_neg hsize, h.setList hx he hL hne, .inr ⟨hne, rfl, rfl⟩⟩

theorem ShowsAt.find (h : ShowsAt lookup b c lists s) (server : Bytes) :
    (server ∉ names b c ∧ (∀ y ∈ c.items, ¬y.2.Matches lookup b.keyAt server) ∧ s.listed server = [] ∧
        hfind lookup b.keyAt b.connTab server = .ok (false, b.connTab)) ∨
      ∃ x t' c' rest e seq, hfind lookup b.keyAt b.connTab server = .ok (true, t') ∧ ShowsAt lookup { b with connTab := t' } c' lists s ∧
        c'.rest = x :: rest ∧ HashTab.current t' = .ok x.2 ∧ b.entries x.2.stuff = some e ∧ Linked e.conns seq ∧
        connsOf seq = s.listed server ∧ b.keyAt x.2.stuff = server := by
  obtain ⟨hnot, hnone, hcall⟩ | ⟨x, t', c', rest, hx, hname, hcall, hlisted, hitems, hrest, hcurrent⟩ := h.listed.hfind server
  · exact .inl ⟨hnot, hnone, h.no_list server hnot, hcall⟩
  · obtain ⟨e, seq, he, hlinked, hdata⟩ := h.listed.entry x hx
    refine .inr ⟨x, t', c', rest, e, seq, hcall, h.moved hlisted hitems, hrest, hcurrent, he, hlinked, ?_, hname⟩
    rw [hdata, ← h.some_list x hx, hname]

theorem ShowsAt.touch (h : ShowsAt lookup b c lists s) {rest : List Item} (hrest : c.rest = x :: rest) (he : b.entries x.2.stuff = some e)
    {L : LinkedList Ptr} {seq : List (Ptr × LinkedList.Entry Ptr)} (hL : Linked L seq)
    (hsame : connsOf seq = s.listed (b.keyAt x.2.stuff)) :
    ∃ lists', ShowsAt lookup (b.setEntry x.2.stuff (some { e with conns := L })) c lists' s := by
  have hx : x ∈ c.items := by
    rw [Cursor.items, hrest]
    exact List.mem_append_right _ List.mem_cons_self
  have hne : connsOf seq ≠ [] := by
    rw [hsame, h.some_list x hx]
    exact h.ne_nil x hx
  have hset := h.setList hx he hL hne
  rw [hsame, update_eq_self] at hset
  exact ⟨_, hset⟩

end Shows

/-! ## A call -/

section Calls

variable {lookup : Bytes → Nat} {b b' : Base} {c c' : Cursor Item} {lists : Ptr → List Ptr} {s s' : Pool Ptr Bytes} {x : Item} {p : Ptr}
  {e : BaseEntry} {now : Int} {d : Connection Bytes}

/-- The test of `getConnectionFromBase`, for a connection that is there. -/
def idle (b : Base) (port : Int) (p : Ptr) : Bool := (b.connections p).any fun c => decide (c.inUse = false ∧ port = c.port)

theorem idle_iff {port : Int} : idle b port p = true ↔ Idle b.connections port p := by
  unfold idle Idle
  cases b.connections p with
  | none => simp
  | some d => simp only [Option.any_some, decide_eq_true_iff, Option.some.injEq, exists_eq_left', @eq_comm Int port]

theorem reusable_of {port : Int} (hd : b.connections p = some d) : reusable b port p = .ok (idle b port p) := by
  rw [reusable, Base.connection_of hd, idle, hd]
  rfl

theorem get_spec (h : ShowsAt lookup b c lists s) (hs : Sound s) (server : Bytes) (port now : Int) : ∃ answer b' c' lists' s',
    getConnectionFromBase lookup b server port now = .ok (answer, b') ∧ ConnectionPool.Step expiryTime s (.got server port now answer) s' ∧
      ShowsAt lookup b' c' lists' s' := by
  obtain ⟨-, -, hempty, hcall⟩ | ⟨x, t', c', rest, e, seq, hcall, h', hrest, hcurrent, he, hlinked, hdata, hname⟩ := h.find server
  · refine ⟨none, b, c, lists, s, ?_, ⟨fun q hq => ?_, rfl⟩, h⟩
    · rw [getConnectionFromBase, hcall]
      rfl
    · rw [hempty] at hq
      cases hq
  · have hget : getConnectionFromBase lookup b server port now =
        (seek (reusable { b with connTab := t' } port) (rounds e.conns) (startIter e.conns) >>= fun found =>
          handOut (Base.setEntry { b with connTab := t' } x.2.stuff (some { e with conns := found.2 })) now found.1) := by
      rw [getConnectionFromBase, hcall]
      show (HashTab.current t' >>= _) = _
      have hentry : Base.entry { b with connTab := t' } x.2.stuff = .ok e := Base.entry_of he
      rw [hcurrent]
      show (Base.entry { b with connTab := t' } x.2.stuff >>= _) = _
      rw [hentry]
      rfl
    have hthere : ∀ q ∈ connsOf seq, ∃ d, b.connections q = some d := by
      intro q hq
      rw [hdata] at hq
      obtain ⟨d, hd, -⟩ := (hs.listed server q).mp hq
      exact ⟨d, h.connections ▸ hd⟩
    have htest : ∀ q ∈ connsOf seq, reusable { b with connTab := t' } port q = .ok (idle b port q) := by
      intro q hq
      obtain ⟨d, hd⟩ := hthere q hq
      exact reusable_of hd
    obtain ⟨hstart, hiter⟩ := linked_startIter hlinked
    have hsame : connsOf seq = s.listed (Base.keyAt { b with connTab := t' } x.2.stuff) := by
      rw [hdata, ← hname]
      rfl
    have hall : Linked (startIter e.conns) ([] ++ seq) := hstart
    obtain ⟨before, y, after, rfl, hbefore, hy, hseek⟩ | ⟨hnone, hseek⟩ := seek_spec _ hall hiter htest (length_lt_rounds hlinked)
    · obtain ⟨lists', htouched⟩ := h'.touch hrest he (linked_iterator hstart (some y.1)) hsame
      obtain ⟨d, hd⟩ := hthere y.2.data (List.mem_map_of_mem (List.mem_append_right _ List.mem_cons_self))
      have hread : (Base.setEntry { b with connTab := t' } x.2.stuff
          (some { e with conns := { startIter e.conns with iterator := some y.1 } })).connection y.2.data = .ok d := Base.connection_of hd
      refine ⟨some y.2.data, _, c', lists', _, ?_, ⟨⟨connsOf before, connsOf after, ?_, fun q hq => ?_, ?_⟩, d, ?_, rfl⟩,
        htouched.setConnection y.2.data { d with inUse := true, used := now }⟩
      · rw [hget, hseek, ok_bind, handOut, hread]
        rfl
      · rw [← hdata, connsOf, List.map_append]
        rfl
      · rw [← h.connections, ← idle_iff, hbefore q hq]
        exact Bool.false_ne_true
      · rw [← h.connections]
        exact idle_iff.mp hy
      · rw [← h.connections]
        exact hd
    · obtain ⟨lists', htouched⟩ := h'.touch hrest he (linked_iterator hstart none) hsame
      refine ⟨none, _, c', lists', s, ?_, ⟨fun q hq => ?_, rfl⟩, htouched⟩
      · rw [hget, hseek]
        rfl
      · rw [← h.connections, ← idle_iff, hnone q (hdata ▸ hq)]
        exact Bool.false_ne_true

theorem setInUse_of (hd : b.connections p = some d) (inUse : Bool) :
    setInUse b p inUse = .ok (b.setConnection p (some { d with inUse := inUse })) := by
  rw [setInUse, Base.connection_of hd]
  rfl

/-- What `addConnectionToBase` allocates is new. -/
structure Memory.Fresh (m : Memory) (b : Base) : Prop where
  entry : b.entries m.entry = none
  item : b.connTab.nodes m.item = none
  element : ∀ p e, b.entries p = some e → e.conns.nodes m.element = none

theorem not_mem_of_fresh {L : LinkedList Ptr} {seq : List (Ptr × LinkedList.Entry Ptr)} (hlinked : Linked L seq) {k : Ptr}
    (hfresh : L.nodes k = none) : k ∉ DoublyLinked.keys seq := fun hmem => hlinked.allocated.mpr hmem hfresh

theorem add_again (hd : b.connections p = some d) (hadded : d.added = true) (m : Memory) :
    addConnectionToBase lookup b p now m = .ok (-1, b) := by
  rw [addConnectionToBase, Base.connection_of hd, ok_bind, if_pos hadded]
  rfl

variable (now) in
theorem add_spec (h : ShowsAt lookup b c lists s) (hd : b.connections p = some d) (hadded : d.added = false) {m : Memory}
    (hfresh : m.Fresh b) : (50 ≤ d.server.length ∧ addConnectionToBase lookup b p now m = .error .overrun) ∨
      d.server.length < 50 ∧ ∃ b' c' lists', addConnectionToBase lookup b p now m = .ok (0, b') ∧
        ShowsAt lookup b' c' lists' { s.set p { d with added := true, used := now } with
          listed := update s.listed d.server (p :: s.listed d.server) } := by
  have h₁ := h.setConnection p { d with added := true, used := now }
  have hstart : addConnectionToBase lookup b p now m = (do
      let b := b.setConnection p (some { d with added := true, used := now })
      let r ← hfind lookup b.keyAt b.connTab d.server
      let b := { b with connTab := r.2 }
      if r.1 then do
        let item ← HashTab.current b.connTab
        let presentConns ← b.entry item.stuff
        let added ← addToHead presentConns.conns m.element 0 p
        return (0, b.setEntry item.stuff (some { presentConns with conns := added.2 }))
      else do
        inBounds (d.server.length < 50)
        let added ← addToHead LinkedList.create m.element 0 p
        let b := b.setEntry m.entry (some ⟨d.server, added.2⟩)
        let r ← hadd lookup b.keyAt b.connTab m.entry m.entry m.item
        return (0, { b with connTab := r.2 })) := by
    rw [addConnectionToBase, Base.connection_of hd, ok_bind, if_neg (Bool.eq_false_iff.mp hadded)]
  obtain ⟨hnot, hnone, hempty, hcall⟩ | ⟨x, t', c', rest, e, seq, hcall, h', hrest, hcurrent, he, hlinked, hdata, hname⟩ := h₁.find d.server
  · by_cases hfits : d.server.length < 50
    · refine .inr ⟨hfits, ?_⟩
      have hfree : m.element ∉ DoublyLinked.keys ([] : List (Ptr × LinkedList.Entry Ptr)) := List.not_mem_nil
      obtain ⟨L, hadd, hL, -⟩ := LinkedList.addToHead_spec LinkedList.linked_create hfree 0 p
      have hplaced := h₁.listed.placed
      have hold : ∀ y ∈ c.items, y.2.stuff ≠ m.entry := by
        intro y hy heq
        obtain ⟨e', -, he', -⟩ := h.listed.entry y hy
        rw [heq, hfresh.entry] at he'
        cases he'
      have hname : ((b.setConnection p (some { d with added := true, used := now })).setEntry m.entry
          (some ⟨d.server, L⟩)).keyAt m.entry = d.server := keyAt_of (Base.setEntry_self _)
      obtain ⟨-, t', c', hcall', hplaced', hperm, -⟩ | ⟨y, -, -, hy, hmatch, -⟩ :=
        HashTab.hadd_spec lookup ((b.setConnection p (some { d with added := true, used := now })).setEntry m.entry
          (some ⟨d.server, L⟩)).keyAt hplaced m.entry hfresh.item m.entry
      · have hadded' := h₁.added (e := ⟨d.server, L⟩) hfresh.entry hplaced' hperm rfl rfl
          ⟨congrArg lookup hname, congrArg List.length hname⟩ hnot hfits hL (List.cons_ne_nil _ _)
        have hone : p :: s.listed d.server = connsOf [(m.element, (⟨0, p⟩ : LinkedList.Entry Ptr))] := by
          rw [show s.listed d.server = [] from hempty]
          rfl
        rw [hone]
        refine ⟨_, c', _, ?_, hadded'⟩
        rw [hstart]
        show (hfind lookup _ _ d.server >>= _) = _
        rw [hcall]
        show (inBounds (d.server.length < 50) >>= _) = _
        rw [inBounds_of hfits, ok_bind, hadd, ok_bind]
        exact bind_eq_ok.mpr ⟨_, hcall', rfl⟩
      · exfalso
        refine hnone y hy ?_
        have hkey : ((b.setConnection p (some { d with added := true, used := now })).setEntry m.entry
            (some ⟨d.server, L⟩)).keyAt y.2.key = b.keyAt y.2.key := by
          rw [h.listed.itself y hy]
          exact keyAt_setEntry_of_ne _ (hold y hy)
        unfold HItem.Matches at hmatch ⊢
        rw [hname, hkey] at hmatch
        exact hmatch
    · refine .inl ⟨not_lt.mp hfits, ?_⟩
      rw [hstart]
      show (hfind lookup _ _ d.server >>= _) = _
      rw [hcall]
      show (inBounds (d.server.length < 50) >>= _) = _
      rw [inBounds, if_neg hfits]
      rfl
  · have hx : x ∈ c'.items := by
      rw [Cursor.items, hrest]
      exact List.mem_append_right _ List.mem_cons_self
    have hfits : d.server.length < 50 := by
      apply h'.listed.fits
      rw [← hname]
      exact Listed.mem_names hx
    obtain ⟨L, hadd, hL, -⟩ := LinkedList.addToHead_spec hlinked (not_mem_of_fresh hlinked (hfresh.element _ _ he)) 0 p
    have hset := h'.setList hx he hL (List.cons_ne_nil _ _)
    have hconns : connsOf ((m.element, (⟨0, p⟩ : LinkedList.Entry Ptr)) :: seq) = p :: s.listed d.server := by
      show p :: connsOf seq = _
      rw [hdata]
      rfl
    have hserver : Base.keyAt { b.setConnection p (some { d with added := true, used := now }) with connTab := t' } x.2.stuff = d.server :=
      hname
    have hentry : Base.entry { b.setConnection p (some { d with added := true, used := now }) with connTab := t' } x.2.stuff = .ok e :=
      Base.entry_of he
    rw [hconns, hserver] at hset
    refine .inr ⟨hfits, _, c', _, ?_, hset⟩
    rw [hstart]
    show (hfind lookup _ _ d.server >>= _) = _
    rw [hcall]
    show (HashTab.current t' >>= _) = _
    rw [hcurrent]
    show (Base.entry { b.setConnection p (some { d with added := true, used := now }) with connTab := t' } x.2.stuff >>= _) = _
    rw [hentry, ok_bind, hadd]
    rfl

theorem del_spec (h : ShowsAt lookup b c lists s) (hs : Sound s) (happly : Apart s.connections) (hd : b.connections p = some d)
    (hmem : p ∈ s.listed d.server) : ∃ b' c' lists', delConnectionFromBase lookup b p = .ok (0, b') ∧
      ShowsAt lookup b' c' lists' { s with listed := update s.listed d.server ((s.listed d.server).erase p) } := by
  obtain ⟨-, -, hempty, -⟩ | ⟨x, t', c', rest, e, seq, hcall, h', hrest, hcurrent, he, hlinked, hdata, hname⟩ := h.find d.server
  · rw [hempty] at hmem
    cases hmem
  have hthere : ∀ q ∈ connsOf seq, s.connections q ≠ none := by
    intro q hq hnone
    rw [hdata] at hq
    obtain ⟨d', hd', -⟩ := (hs.listed _ q).mp hq
    rw [hnone] at hd'
    cases hd'
  have hp : s.connections p ≠ none := hthere p (hdata ▸ hmem)
  obtain ⟨hstart, hiter⟩ := linked_startIter hlinked
  have hall : Linked (startIter e.conns) ([] ++ seq) := hstart
  obtain ⟨before, y, after, rfl, hbefore, hy, hseek⟩ | ⟨hnone, -⟩ :=
    seek_spec (fun q => .ok (decide (BitVec.ofNat 32 q = BitVec.ofNat 32 p))) hall hiter (fun _ _ => rfl) (length_lt_rounds hlinked)
  · have hyp : y.2.data = p :=
      happly _ _ (hthere _ (List.mem_map_of_mem (List.mem_append_right _ List.mem_cons_self))) hp (of_decide_eq_true hy)
    obtain ⟨L, hdelete, hL, -⟩ :=
      LinkedList.deletePresent_spec (L := { startIter e.conns with iterator := some y.1 }) (linked_iterator hstart _) rfl
    have hnot : p ∉ connsOf before := fun hq => of_decide_eq_false (hbefore p hq) rfl
    have herase : connsOf (before ++ after) = (s.listed d.server).erase p := by
      have hall : connsOf (before ++ y :: after) = connsOf before ++ p :: connsOf after := by
        rw [connsOf, List.map_append, List.map_cons, hyp]
        rfl
      rw [← hdata, hall, List.erase_append_right _ hnot, List.erase_cons_head]
      exact List.map_append
    obtain ⟨b', c'', lists', hdrop, hshows, -⟩ := h'.dropEmpty hrest he hL
    have hserver : Base.keyAt { b with connTab := t' } x.2.stuff = d.server := hname
    rw [herase, hserver] at hshows
    refine ⟨b', c'', lists', ?_, hshows⟩
    have hentry : Base.entry { b with connTab := t' } x.2.stuff = .ok e := Base.entry_of he
    rw [delConnectionFromBase, Base.connection_of hd, ok_bind, hcall, ok_bind]
    refine bind_eq_ok.mpr ⟨x.2, hcurrent, ?_⟩
    refine bind_eq_ok.mpr ⟨e, hentry, ?_⟩
    have hfound : deleteFound (some y.2.data, { startIter e.conns with iterator := some y.1 }) = .ok L := by
      rw [deleteFound, hdelete]
      rfl
    rw [hseek, ok_bind, hfound, ok_bind]
    exact bind_eq_ok.mpr ⟨b', hdrop, rfl⟩
  · have hself := hnone p (hdata ▸ hmem)
    exact absurd rfl (of_decide_eq_false hself)

theorem ShowsAt.bury (h : ShowsAt lookup b c lists s) (p : Ptr) :
    ShowsAt lookup { b with delConList := p :: b.delConList } c lists { s with dead := p :: s.dead } where
  listed := h.listed.moved h.listed.placed rfl rfl
  connections := h.connections
  dead := congrArg (p :: ·) h.dead
  some_list := h.some_list
  no_list := h.no_list
  ne_nil := h.ne_nil

theorem delLazy_spec (h : ShowsAt lookup b c lists s) (hs : Sound s) (happly : Apart s.connections) (hd : b.connections p = some d) :
    ∃ b' c' lists' s', delConnectionLazy lookup b p = .ok b' ∧ ConnectionPool.Step expiryTime s (.deleted p) s' ∧
      ShowsAt lookup b' c' lists' s' := by
  have hd' : s.connections p = some d := h.connections ▸ hd
  cases hlDel : d.lDel with
  | true =>
      refine ⟨b, c, lists, s, ?_, ⟨d, hd', ?_⟩, h⟩
      · rw [delConnectionLazy, Base.connection_of hd, ok_bind, if_pos hlDel]
        rfl
      · rw [if_pos hlDel]
  | false =>
      have hout : ∃ b₁ c₁ lists₁, takeOut lookup b p d.added = .ok b₁ ∧
          ShowsAt lookup b₁ c₁ lists₁ { s with listed := update s.listed d.server ((s.listed d.server).erase p) } := by
        cases hadded : d.added with
        | true =>
            have hmem : p ∈ s.listed d.server := (hs.listed _ p).mpr ⟨d, hd', rfl, hadded, hlDel⟩
            obtain ⟨b', c', lists', hcall, hshows⟩ := del_spec h hs happly hd hmem
            refine ⟨b', c', lists', ?_, hshows⟩
            rw [takeOut, if_pos rfl, hcall]
            rfl
        | false =>
            have hnot : p ∉ s.listed d.server := by
              intro hmem
              obtain ⟨d', hd'', -, hyes, -⟩ := (hs.listed _ p).mp hmem
              cases hd'.symm.trans hd''
              rw [hadded] at hyes
              cases hyes
            refine ⟨b, c, lists, if_neg Bool.false_ne_true, ?_⟩
            rw [List.erase_of_not_mem hnot, update_eq_self]
            exact h
      obtain ⟨b₁, c₁, lists₁, htake, hshows⟩ := hout
      refine ⟨_, c₁, lists₁, _, ?_, ⟨d, hd', ?_⟩, (hshows.setConnection p { d with lDel := true }).bury p⟩
      · rw [delConnectionLazy, Base.connection_of hd, ok_bind, if_neg (Bool.eq_false_iff.mp hlDel), htake]
        rfl
      · rw [if_neg (Bool.eq_false_iff.mp hlDel)]
        rfl

theorem ShowsAt.freed (h : ShowsAt lookup b c lists s) (gone : List Ptr) :
    ShowsAt lookup (freed b gone) c lists { s with connections := fun p => if p ∈ gone then none else s.connections p } where
  listed := h.listed.moved h.listed.placed rfl rfl
  connections := by
    funext p
    show (if p ∈ gone then none else b.connections p) = if p ∈ gone then none else s.connections p
    rw [h.connections]
  dead := h.dead
  some_list := h.some_list
  no_list := h.no_list
  ne_nil := h.ne_nil

theorem foldlM_delConnectionPerm {gone : List Ptr} (hnodup : gone.Nodup) (halive : ∀ p ∈ gone, b.connections p ≠ none) :
    gone.foldlM delConnectionPerm b = .ok (freed b gone) := by
  induction gone generalizing b with
  | nil =>
      rw [freed_nil]
      rfl
  | cons p gone ih =>
      obtain ⟨hp, hrest⟩ := List.nodup_cons.mp hnodup
      obtain ⟨d, hd⟩ := Option.ne_none_iff_exists'.mp (halive p List.mem_cons_self)
      have hstill : ∀ q ∈ gone, (b.setConnection p none).connections q ≠ none := by
        intro q hq
        rw [Base.setConnection_of_ne (ne_of_mem_of_not_mem hq hp)]
        exact halive q (List.mem_cons_of_mem _ hq)
      have hperm : delConnectionPerm b p = .ok (b.setConnection p none) := by
        rw [delConnectionPerm, Base.connection_of hd]
        rfl
      rw [List.foldlM_cons, hperm, ok_bind, ih hrest hstill, freed_setConnection]

theorem purge_spec (h : ShowsAt lookup b c lists s) (hs : Sound s) : ∃ b' c' lists' s', deletePerms b = .ok b' ∧
    ConnectionPool.Step expiryTime s .purged s' ∧ ShowsAt lookup b' c' lists' s' := by
  have halive : ∀ p ∈ b.delConList, b.connections p ≠ none := by
    intro p hp hnone
    rw [h.dead] at hp
    obtain ⟨d, hd, -⟩ := (hs.dead p).mp hp
    rw [h.connections, hd] at hnone
    cases hnone
  have hfold := foldlM_delConnectionPerm (h.dead ▸ hs.once) halive
  refine ⟨{ freed b b.delConList with delConList := [] }, c, lists, _, ?_, rfl, ?_⟩
  · rw [deletePerms, hfold]
    rfl
  · have hfreed := h.freed b.delConList
    rw [h.dead] at hfreed ⊢
    exact ⟨hfreed.listed.moved hfreed.listed.placed rfl rfl, hfreed.connections, rfl, hfreed.some_list, hfreed.no_list, hfreed.ne_nil⟩

/-! ## The old connections are closed -/

theorem without_eq (hs : Sound s) {server : Bytes} {gone : List Ptr} (hgone : ∀ p ∈ gone, p ∈ s.listed server) :
    s.without gone = { s with
      connections := fun p => if p ∈ gone then none else s.connections p
      listed := update s.listed server ((s.listed server).filter fun p => p ∉ gone) } := by
  unfold Pool.without
  congr 1
  funext server'
  by_cases hserver : server' = server
  · subst hserver
    rw [update_self]
  · rw [update_of_ne hserver]
    apply List.filter_eq_self.mpr
    intro p hp
    have hother : p ∉ gone := by
      intro hmem
      obtain ⟨d, hd, hname, -⟩ := (hs.listed _ p).mp hp
      exact hserver (hname.symm.trans (hs.server_eq hd (hgone p hmem)))
    exact decide_eq_true hother

variable (now) in
theorem closeServer_spec (h : ShowsAt lookup b c lists s) (hs : Sound s) {rest : List Item} (hrest : c.rest = x :: rest) :
    ∃ gone L e b' c' lists', b.entries x.2.stuff = some e ∧
      closeConns now (rounds e.conns) b (startIter e.conns) = .ok (freed b gone, L) ∧
      dropEmpty (freed b gone) x.2.stuff { e with conns := L } = .ok b' ∧ ShowsAt lookup b' c' lists' (s.without gone) ∧
      (∀ p ∈ gone, p ∈ s.listed (b.keyAt x.2.stuff) ∧ Old expiryTime now s.connections p) ∧
      (gone = [] → (∀ p ∈ lists x.2.stuff, ¬Old expiryTime now s.connections p) ∧ c' = c ∧ lists' = lists) ∧ (c' = c ∨ c' = c.delete) := by
  have hx : x ∈ c.items := by
    rw [Cursor.items, hrest]
    exact List.mem_append_right _ List.mem_cons_self
  obtain ⟨e, seq, he, hlinked, hdata⟩ := h.listed.entry x hx
  have hlist : connsOf seq = s.listed (b.keyAt x.2.stuff) := hdata.trans (h.some_list x hx).symm
  obtain ⟨hstart, hiter⟩ := linked_startIter hlinked
  have hnodup : (connsOf seq).Nodup := by
    rw [hlist]
    exact hs.nodup _
  have halive : ∀ p ∈ connsOf seq, b.connections p ≠ none := by
    intro p hp hnone
    rw [hlist] at hp
    obtain ⟨d, hd, -⟩ := (hs.listed _ p).mp hp
    rw [h.connections, hd] at hnone
    cases hnone
  obtain ⟨gone, L, seq', hclose, hL, hseq', hgone, hnone⟩ :=
    closeConns_spec now (show Linked (startIter e.conns) ([] ++ seq) from hstart) hiter hnodup halive (length_lt_rounds hlinked)
  rw [List.nil_append] at hL
  have hgone' : ∀ p ∈ gone, p ∈ s.listed (b.keyAt x.2.stuff) ∧ Old expiryTime now s.connections p := by
    intro p hp
    obtain ⟨hmem, hold⟩ := hgone p hp
    exact ⟨hlist ▸ hmem, h.connections ▸ hold⟩
  obtain ⟨b', c', lists', hdrop, hshows, hcases⟩ := (h.freed gone).dropEmpty hrest (e := e) he hL
  refine ⟨gone, L, e, b', c', lists', he, hclose, hdrop, ?_, hgone', ?_, ?_⟩
  · rw [without_eq hs fun p hp => (hgone' p hp).1, ← hlist, ← hseq']
    exact hshows
  · intro hnil
    have hsame : connsOf seq' = lists x.2.stuff := by
      rw [hseq', hnil, ← hdata]
      simp
    obtain ⟨hempty, -⟩ | ⟨-, rfl, rfl⟩ := hcases
    · exact absurd (hsame.symm.trans hempty) (h.ne_nil x hx)
    · refine ⟨fun p hp => ?_, rfl, ?_⟩
      · rw [← h.connections]
        exact hnone hnil p (hdata ▸ hp)
      · rw [hsame, update_eq_self]
  · obtain ⟨-, rfl⟩ | ⟨-, rfl, -⟩ := hcases
    · exact .inr rfl
    · exact .inl rfl

/-- The rounds that a loop over the table takes at most, where every round may delete an item. -/
def roundsLeft (c : Cursor Item) : Nat := c.items.length * (c.items.length + 1) + c.rest.length

theorem roundsLeft_next (hmore : c.next.1 = true) : roundsLeft c.next.2 < roundsLeft c ∧ c.next.2.rest ≠ [] ∧
    ∃ x, c.rest = x :: c.next.2.rest := by
  match hrest : c.rest with
  | [] =>
      rw [Cursor.next, hrest] at hmore
      cases hmore
  | [x] =>
      rw [Cursor.next, hrest] at hmore
      cases hmore
  | x :: y :: rest =>
      have hnext : c.next.2.rest = y :: rest := by
        rw [Cursor.next, hrest]
        rfl
      refine ⟨?_, ?_, x, ?_⟩
      · rw [roundsLeft, roundsLeft, Cursor.items_next, hnext, hrest]
        exact Nat.add_lt_add_left (Nat.lt_succ_self _) _
      · rw [hnext]
        exact List.cons_ne_nil _ _
      · rw [hnext]

theorem roundsLeft_delete {rest : List Item} (hrest : c.rest = x :: rest) : roundsLeft c.delete < roundsLeft c := by
  have hitems : c.delete.items.length + 1 = c.items.length := by
    rw [Cursor.items_delete hrest, Cursor.items, hrest, List.length_append, List.length_append, List.length_cons, Nat.add_assoc]
  have hle : c.delete.rest.length ≤ c.delete.items.length := by
    rw [Cursor.items, List.length_append]
    exact Nat.le_add_left _ _
  rw [roundsLeft, roundsLeft, ← hitems]
  nlinarith

variable (now) in
/-- The loop over the table ends. It closes old connections only, and one at least if there is one at the current server or behind it. -/
theorem closeServers_spec {fuel : Nat} (h : ShowsAt lookup b c lists s) (hs : Sound s) (hne : c.rest ≠ []) (hfuel : roundsLeft c < fuel) :
    ∃ gone b' c' lists', closeServers now fuel b = .ok b' ∧ ShowsAt lookup b' c' lists' (s.without gone) ∧
      (∀ p ∈ gone, (∃ server, p ∈ s.listed server) ∧ Old expiryTime now s.connections p) ∧
      (gone = [] → ∀ x ∈ c.rest, ∀ p ∈ lists x.2.stuff, ¬Old expiryTime now s.connections p) := by
  induction fuel generalizing b c lists s with
  | zero => exact absurd hfuel (Nat.not_lt_zero _)
  | succ fuel ih =>
      obtain ⟨x, rest, hrest⟩ := List.exists_cons_of_ne_nil hne
      obtain ⟨gone, L, e, b₁, c₁, lists₁, he, hclose, hdrop, h₁, hgone, hnone, hwhich⟩ := closeServer_spec now h hs hrest
      have hcurrent : HashTab.current b.connTab = .ok x.2 :=
        HashTab.current_spec h.listed.placed (by rw [Cursor.current, hrest, List.head?_cons])
      obtain ⟨t', hnext, hplaced, -⟩ := HashTab.hnext_spec h₁.listed.placed
      have h₂ : ShowsAt lookup { b₁ with connTab := t' } c₁.next.2 lists₁ (s.without gone) :=
        h₁.moved (h₁.listed.moved hplaced (Cursor.items_next c₁) rfl) (Cursor.items_next c₁)
      have hlisted : ∀ p ∈ gone, ∃ server, p ∈ s.listed server := fun p hp => ⟨_, (hgone p hp).1⟩
      have hround : closeServers now (fuel + 1) b =
          if c₁.next.1 then closeServers now fuel { b₁ with connTab := t' } else .ok { b₁ with connTab := t' } := by
        rw [closeServers, hcurrent, ok_bind, Base.entry_of he, ok_bind, hclose, ok_bind, hdrop, ok_bind, hnext]
        rfl
      cases hmore : c₁.next.1 with
      | false =>
          refine ⟨gone, _, _, _, ?_, h₂, fun p hp => ⟨hlisted p hp, (hgone p hp).2⟩, fun hnil y hy => ?_⟩
          · rw [hround, hmore]
            rfl
          · obtain ⟨hold, rfl, -⟩ := hnone hnil
            have hlast : rest = [] := by
              rw [Cursor.next, hrest] at hmore
              cases rest with
              | nil => rfl
              | cons z rest => cases hmore
            rw [hrest, hlast, List.mem_singleton] at hy
            rw [hy]
            exact hold
      | true =>
          obtain ⟨hless, hne', x', hrest'⟩ := roundsLeft_next hmore
          have hfuel' : roundsLeft c₁.next.2 < fuel := by
            have hle : roundsLeft c₁ ≤ roundsLeft c := by
              obtain rfl | rfl := hwhich
              · exact le_refl _
              · exact (roundsLeft_delete hrest).le
            omega
          obtain ⟨gone', b', c', lists', hcall, hshows, hgone', hnone'⟩ := ih h₂ (hs.without hlisted) hne' hfuel'
          refine ⟨gone ++ gone', b', c', lists', ?_, ?_, fun p hp => ?_, fun hnil y hy => ?_⟩
          · rw [hround, hmore]
            exact hcall
          · rw [← ConnectionPool.without_without]
            exact hshows
          · obtain hp | hp := List.mem_append.mp hp
            · exact ⟨hlisted p hp, (hgone p hp).2⟩
            · obtain ⟨⟨server, hmem⟩, hold⟩ := hgone' p hp
              exact ⟨⟨server, List.mem_of_mem_filter hmem⟩, ConnectionPool.Old.of_without hold⟩
          · obtain ⟨hnil₁, hnil₂⟩ := List.append_eq_nil_iff.mp hnil
            obtain ⟨hold, rfl, rfl⟩ := hnone hnil₁
            rw [hrest'] at hy
            rw [hrest'] at hrest
            cases hrest
            obtain rfl | hy := List.mem_cons.mp hy
            · exact hold
            · have hlater := hnone' hnil₂ y hy
              rw [hnil₁, ConnectionPool.without_nil] at hlater
              exact hlater

theorem close_spec (h : ShowsAt lookup b c lists s) (hs : Sound s) (now : Int) : ∃ b' c' lists' s', closeOldConnections b now = .ok b' ∧
    ConnectionPool.Step expiryTime s (.closed now) s' ∧ ShowsAt lookup b' c' lists' s' := by
  obtain ⟨t', hfirst, hplaced, -⟩ := HashTab.hfirst_spec h.listed.placed
  have h₁ : ShowsAt lookup { b with connTab := t' } c.first lists s :=
    h.moved (h.listed.moved hplaced (Cursor.items_first c) rfl) (Cursor.items_first c)
  have hno : ∀ server, ∀ p ∈ s.listed server, ∃ x ∈ c.items, p ∈ lists x.2.stuff := by
    intro server p hp
    by_cases hserver : server ∈ names b c
    · obtain ⟨x, hx, rfl⟩ := List.mem_map.mp hserver
      exact ⟨x, hx, h.some_list x hx ▸ hp⟩
    · rw [h.no_list server hserver] at hp
      cases hp
  by_cases hnil : c.items = []
  · refine ⟨_, _, _, s, ?_, ⟨[], ⟨fun p hp => absurd hp List.not_mem_nil, fun p hp => absurd hp List.not_mem_nil, ?_⟩, ?_⟩, h₁⟩
    · rw [closeOldConnections, hfirst, hnil]
      rfl
    · intro server p hp
      obtain ⟨x, hx, -⟩ := hno server p hp
      rw [hnil] at hx
      cases hx
    · exact ConnectionPool.without_nil.symm
  · have hcount : t'.count = c.items.length := by
      rw [hplaced.count, Cursor.items_first]
    have hfuel : roundsLeft c.first < (t'.count + 1) * (t'.count + 1) := by
      rw [roundsLeft, Cursor.items_first, hcount]
      show c.items.length * (c.items.length + 1) + c.items.length < _
      nlinarith
    obtain ⟨gone, b', c', lists', hcall, hshows, hgone, hnone⟩ := closeServers_spec now h₁ hs hnil hfuel
    refine ⟨b', c', lists', _, ?_, ⟨gone, ⟨fun p hp => (hgone p hp).1, fun p hp => (hgone p hp).2, ?_⟩, rfl⟩, hshows⟩
    · rw [closeOldConnections, hfirst]
      simp only [ok_bind, hnil, ne_eq, not_false_eq_true, decide_true, if_true]
      exact hcall
    · intro server p hp hold hempty
      obtain ⟨x, hx, hlist⟩ := hno server p hp
      exact hnone hempty x hx p hlist hold

end Calls

/-! ## After any calls -/

section Runs

variable (lookup : Bytes → Nat)

/-- A call as one on a pool of connections. -/
def event : Call → Option Ptr → Event Ptr Bytes
  | .initConnection p server port _, _ => .opened p server port
  | .getConnectionFromBase server port now, answer => .got server port now answer
  | .addConnectionToBase p now _, _ => .added p now
  | .release p, _ => .released p
  | .delConnectionLazy p, _ => .deleted p
  | .deletePerms, _ => .purged
  | .closeOldConnections now, _ => .closed now

/-- A call is for a connection that is there; one that is to be freed is not added. What is allocated is new, and the address of a new
connection is new as an `unsigned`. -/
def Allowed (b : Base) : Call → Prop
  | .initConnection p _ _ _ => b.connections p = none ∧ ∀ q, b.connections q ≠ none → BitVec.ofNat 32 q ≠ BitVec.ofNat 32 p
  | .addConnectionToBase p _ m => (∃ d, b.connections p = some d ∧ d.lDel = false) ∧ m.Fresh b
  | .release p => b.connections p ≠ none
  | .delConnectionLazy p => b.connections p ≠ none
  | _ => True

/-- The name of a server that is copied fits its place. -/
def Fits (b : Base) : Call → Prop
  | .addConnectionToBase p _ _ => ∀ d, b.connections p = some d → d.added = false → d.server.length < 50
  | _ => True

def baseSystem : System Base (Event Ptr Bytes) where
  init := fun b => b = initConnectionBase
  step := fun b e b' => ∃ c answer, Allowed b c ∧ call lookup b c = .ok (answer, b') ∧ event c answer = e

variable {lookup} {b : Base} {s s' : Pool Ptr Bytes} {labels : List (Event Ptr Bytes)}

/-- No connection comes to be there but a new one. -/
theorem apart_step {e : Event Ptr Bytes} (h : Apart s.connections) (hstep : ConnectionPool.Step expiryTime s e s')
    (hopened : ∀ p server port, e = .opened p server port → ∀ q, s.connections q ≠ none → BitVec.ofNat 32 q ≠ BitVec.ofNat 32 p) :
    Apart s'.connections := by
  have hless : (∀ p, s'.connections p ≠ none → s.connections p ≠ none) → Apart s'.connections :=
    fun hsub p q hp hq => h p q (hsub p hp) (hsub q hq)
  have hset : ∀ p d d', s.connections p = some d → ∀ q, (s.set p d').connections q ≠ none → s.connections q ≠ none := by
    intro p d d' hd q hq
    by_cases hqp : q = p
    · rw [hqp, hd]
      exact Option.some_ne_none d
    · rwa [ConnectionPool.set_of_ne hqp] at hq
  have hfree : ∀ (gone : List Ptr), (∀ q, s'.connections q = if q ∈ gone then none else s.connections q) → Apart s'.connections := by
    intro gone hgone
    apply hless
    intro q hq hnone
    rw [hgone q, hnone, ite_self] at hq
    exact hq rfl
  cases e with
  | opened p server port =>
      obtain ⟨hnone, used, rfl⟩ := hstep
      have hnew := hopened p server port rfl
      intro q r hq hr heq
      by_cases hqp : q = p <;> by_cases hrp : r = p
      · rw [hqp, hrp]
      · subst hqp
        rw [ConnectionPool.set_of_ne hrp] at hr
        exact absurd heq.symm (hnew r hr)
      · subst hrp
        rw [ConnectionPool.set_of_ne hqp] at hq
        exact absurd heq (hnew q hq)
      · rw [ConnectionPool.set_of_ne hqp] at hq
        rw [ConnectionPool.set_of_ne hrp] at hr
        exact h q r hq hr heq
  | got server port now answer =>
      obtain ⟨-, hstep⟩ := hstep
      cases answer with
      | none =>
          cases hstep
          exact h
      | some p =>
          obtain ⟨d, hd, rfl⟩ := hstep
          exact hless (hset p d _ hd)
  | added p now =>
      obtain ⟨d, hd, -, hstep⟩ := hstep
      split at hstep
      · rw [hstep]
        exact hstep ▸ hless (hstep ▸ hset p d _ hd)
      · rw [hstep]
        exact hstep ▸ hless (hstep ▸ hset p d _ hd)
  | released p =>
      obtain ⟨d, hd, rfl⟩ := hstep
      exact hless (hset p d _ hd)
  | deleted p =>
      obtain ⟨d, hd, hstep⟩ := hstep
      split at hstep
      · rw [hstep]
        exact h
      · rw [hstep]
        exact hstep ▸ hless (hstep ▸ hset p d _ hd)
  | purged =>
      cases hstep
      exact hfree s.dead fun _ => rfl
  | closed now =>
      obtain ⟨gone, -, rfl⟩ := hstep
      exact hfree gone fun _ => rfl

/-- A call returns, and is one on the pool, or `strcpy` writes behind the name of an entry. -/
theorem Shows.call (h : Shows lookup b s) {c : Call} (hallowed : Allowed b c) :
    (∃ answer b' s', call lookup b c = .ok (answer, b') ∧ ConnectionPool.Step expiryTime s (event c answer) s' ∧ Shows lookup b' s') ∨
      ¬Fits b c ∧ call lookup b c = .error .overrun := by
  obtain ⟨⟨c₀, lists, hat⟩, hs, happly⟩ := id h
  have hnext : ∀ (answer : Option Ptr) {b' : Base} {s' : Pool Ptr Bytes} {c₁ : Cursor Item} {lists' : Ptr → List Ptr},
      ConnectionBase.call lookup b c = .ok (answer, b') → ConnectionPool.Step expiryTime s (event c answer) s' →
      ShowsAt lookup b' c₁ lists' s' →
      ∃ answer b' s', ConnectionBase.call lookup b c = .ok (answer, b') ∧ ConnectionPool.Step expiryTime s (event c answer) s' ∧
        Shows lookup b' s' := by
    intro answer b' s' c₁ lists' hcall hstep hat'
    refine ⟨answer, b', s', hcall, hstep, ⟨c₁, lists', hat'⟩, (ConnectionPool.sound_invariant expiryTime).step _ _ _ hs hstep, ?_⟩
    apply apart_step happly hstep
    intro p server port he q hq
    cases c with
    | initConnection p' server' port' used =>
        cases he
        rw [← hat.connections] at hq
        exact hallowed.2 q hq
    | _ => cases he
  cases c with
  | initConnection p server port used =>
      refine .inl (hnext none rfl ⟨?_, used, rfl⟩ (hat.setConnection p _))
      rw [← hat.connections]
      exact hallowed.1
  | getConnectionFromBase server port now =>
      obtain ⟨answer, b', c', lists', s', hcall, hstep, hat'⟩ := get_spec hat hs server port now
      exact .inl (hnext answer hcall hstep hat')
  | addConnectionToBase p now m =>
      obtain ⟨⟨d, hd, hlDel⟩, hfresh⟩ := hallowed
      have hd' : s.connections p = some d := hat.connections ▸ hd
      have hat₁ := hat.setConnection p { d with inUse := true }
      have hd₁ : (b.setConnection p (some { d with inUse := true })).connections p = some { d with inUse := true } :=
        Base.setConnection_self _
      have hstart : ConnectionBase.call lookup b (.addConnectionToBase p now m) =
          (addConnectionToBase lookup (b.setConnection p (some { d with inUse := true })) p now m >>= fun r => return (none, r.2)) := by
        rw [ConnectionBase.call, setInUse_of hd]
        rfl
      cases hadded : d.added with
      | true =>
          refine .inl (hnext none ?_ ⟨d, hd', hlDel, (if_pos hadded).mpr rfl⟩ hat₁)
          rw [hstart, add_again hd₁ hadded]
          rfl
      | false =>
          have hfresh' : m.Fresh (b.setConnection p (some { d with inUse := true })) := ⟨hfresh.entry, hfresh.item, hfresh.element⟩
          obtain ⟨hlong, hcall⟩ | ⟨-, b', c', lists', hcall, hat'⟩ := add_spec now hat₁ hd₁ hadded hfresh'
          · refine .inr ⟨fun hfits => ?_, ?_⟩
            · exact absurd (hfits d hd hadded) (not_lt.mpr hlong)
            · rw [hstart, hcall]
              rfl
          · have hagain : ((s.set p { d with inUse := true }).set p { d with inUse := true, added := true, used := now }) =
                s.set p { d with inUse := true, added := true, used := now } := by
              unfold Pool.set
              rw [update_idem]
            refine .inl (hnext none ?_ ⟨d, hd', hlDel, (if_neg (Bool.eq_false_iff.mp hadded)).mpr rfl⟩ (hagain ▸ hat'))
            rw [hstart, hcall]
            rfl
  | release p =>
      obtain ⟨d, hd⟩ := Option.ne_none_iff_exists'.mp hallowed
      refine .inl (hnext none ?_ ⟨d, hat.connections ▸ hd, rfl⟩ (hat.setConnection p { d with inUse := false }))
      rw [ConnectionBase.call, setInUse_of hd]
      rfl
  | delConnectionLazy p =>
      obtain ⟨d, hd⟩ := Option.ne_none_iff_exists'.mp hallowed
      obtain ⟨b', c', lists', s', hcall, hstep, hat'⟩ := delLazy_spec hat hs happly hd
      refine .inl (hnext none ?_ hstep hat')
      rw [ConnectionBase.call, hcall]
      rfl
  | deletePerms =>
      obtain ⟨b', c', lists', s', hcall, hstep, hat'⟩ := purge_spec hat hs
      refine .inl (hnext none ?_ hstep hat')
      rw [ConnectionBase.call, hcall]
      rfl
  | closeOldConnections now =>
      obtain ⟨b', c', lists', s', hcall, hstep, hat'⟩ := close_spec hat hs now
      refine .inl (hnext none ?_ hstep hat')
      rw [ConnectionBase.call, hcall]
      rfl

theorem shows_init : Shows lookup initConnectionBase ⟨fun _ => none, fun _ => [], []⟩ where
  base := by
    refine ⟨.start [], fun _ => [], ⟨HashTab.placed_hcreate 10, ?_, ?_, List.nodup_nil, ?_, fun p hp => absurd rfl hp, ?_⟩, rfl, rfl, ?_,
      fun _ _ => rfl, ?_⟩
    · exact fun x hx => absurd hx List.not_mem_nil
    · exact fun x hx => absurd hx List.not_mem_nil
    · exact fun x hx => absurd hx List.not_mem_nil
    · exact fun server hserver => absurd hserver List.not_mem_nil
    · exact fun x hx => absurd hx List.not_mem_nil
    · exact fun x hx => absurd hx List.not_mem_nil
  sound := (ConnectionPool.sound_invariant expiryTime).init _ rfl
  apart := fun p _ hp => absurd rfl hp

theorem base_simulates_pool : System.Simulation (baseSystem lookup) (ConnectionPool.pool expiryTime) (Shows lookup) where
  init := by
    rintro b rfl
    exact ⟨_, rfl, shows_init⟩
  step := by
    rintro b s e b' h ⟨c, answer, hallowed, hcall, rfl⟩
    obtain ⟨answer', b'', s', hcall', hstep, hshows⟩ | ⟨-, hfault⟩ := h.call hallowed
    · cases hcall.symm.trans hcall'
      exact ⟨s', hstep, hshows⟩
    · cases hcall.symm.trans hfault

/-- After any calls the base is a pool of connections: those that are listed are the ones that were added and not deleted, each once and
under its server. The next call returns, as on the pool, unless `strcpy` writes behind the 50 bytes of a name. -/
theorem connection_base (hrun : (baseSystem lookup).Runs labels b) :
    ∃ s, (ConnectionPool.pool expiryTime).Runs labels s ∧ Shows lookup b s ∧ ∀ c, Allowed b c →
      (∃ answer b' s', call lookup b c = .ok (answer, b') ∧ ConnectionPool.Step expiryTime s (event c answer) s' ∧ Shows lookup b' s') ∨
        ¬Fits b c ∧ call lookup b c = .error .overrun := by
  obtain ⟨s, hpool, hshows⟩ := base_simulates_pool.runs hrun
  exact ⟨s, hpool, hshows, fun c hallowed => hshows.call hallowed⟩

theorem Shows.fresh (h : Shows lookup b s) : ∃ m : Memory, m.Fresh b := by
  obtain ⟨⟨c, lists, hat⟩, -, -⟩ := h
  have hentries : {p | b.entries p ≠ none}.Finite := by
    refine (List.finite_toSet (c.items.map fun x => x.2.stuff)).subset fun p hp => ?_
    obtain ⟨x, hx, rfl⟩ := hat.listed.only p hp
    exact List.mem_map.mpr ⟨x, hx, rfl⟩
  have hnodes : {p | b.connTab.nodes p ≠ none}.Finite := by
    obtain ⟨chains, hs, -⟩ := hat.listed.placed.shaped
    refine (List.finite_toSet (Chains.keys (Chains.items b.connTab.size chains))).subset fun p hp => ?_
    by_contra hnot
    exact hp (hs.fresh_iff.mpr hnot)
  have helements : (⋃ p ∈ {p | b.entries p ≠ none}, {k | ∃ e, b.entries p = some e ∧ e.conns.nodes k ≠ none}).Finite := by
    refine hentries.biUnion fun p hp => ?_
    obtain ⟨x, hx, rfl⟩ := hat.listed.only p hp
    obtain ⟨e, seq, he, hlinked, -⟩ := hat.listed.entry x hx
    refine (List.finite_toSet (DoublyLinked.keys seq)).subset ?_
    rintro k ⟨e', he', hk⟩
    cases he.symm.trans he'
    exact hlinked.allocated.mp hk
  obtain ⟨entry, hentry⟩ := hentries.exists_notMem
  obtain ⟨item, hitem⟩ := hnodes.exists_notMem
  obtain ⟨element, helement⟩ := helements.exists_notMem
  refine ⟨⟨entry, element, item⟩, not_not.mp hentry, not_not.mp hitem, fun p e he => ?_⟩
  by_contra hk
  exact helement (Set.mem_biUnion (show b.entries p ≠ none from he ▸ Option.some_ne_none e) ⟨e, he, hk⟩)

theorem runs_call (hrun : (baseSystem lookup).Runs labels b) (hshows : Shows lookup b s) {c : Call} (hallowed : Allowed b c)
    (hfits : Fits b c) : ∃ answer b' s', (baseSystem lookup).Runs (labels ++ [event c answer]) b' ∧
      ConnectionPool.Step expiryTime s (event c answer) s' ∧ Shows lookup b' s' := by
  obtain ⟨answer, b', s', hcall, hstep, hshows'⟩ | ⟨hlong, -⟩ := hshows.call hallowed
  · exact ⟨answer, b', s', hrun.step ⟨c, answer, hallowed, hcall, rfl⟩, hstep, hshows'⟩
  · exact absurd hfits hlong

variable (lookup) in
theorem runs_added : ∃ b s, (baseSystem lookup).Runs [.opened 1 [97] 80, .added 1 5] b ∧ Shows lookup b s ∧
    s.connections = update (fun _ => none) 1 (some ⟨[97], 80, 5, false, true, true⟩) ∧ s.listed [97] = [1] := by
  have hnew : Allowed initConnectionBase (.initConnection 1 [97] 80 0) := ⟨rfl, fun q hq => absurd rfl hq⟩
  have hstart : (baseSystem lookup).Runs [] initConnectionBase := .start rfl
  obtain ⟨_, b₁, s₁, hrun₁, ⟨-, used, rfl⟩, hshows₁⟩ := runs_call hstart shows_init hnew trivial
  obtain ⟨m, hfresh⟩ := hshows₁.fresh
  obtain ⟨⟨c, lists, hat⟩, -, -⟩ := id hshows₁
  have hthere : b₁.connections 1 = some ⟨[97], 80, used, false, false, false⟩ := by
    rw [hat.connections]
    exact ConnectionPool.set_self ..
  have hadd : Allowed b₁ (.addConnectionToBase 1 5 m) := ⟨⟨_, hthere, rfl⟩, hfresh⟩
  have hfits : Fits b₁ (.addConnectionToBase 1 5 m) := by
    intro d hd _
    cases hthere.symm.trans hd
    show ([97] : Bytes).length < 50
    decide
  obtain ⟨_, b₂, s₂, hrun₂, ⟨d, hd, -, hs₂⟩, hshows₂⟩ := runs_call hrun₁ hshows₁ hadd hfits
  cases (ConnectionPool.set_self ..).symm.trans hd
  rw [if_neg Bool.false_ne_true] at hs₂
  subst hs₂
  refine ⟨b₂, _, hrun₂, hshows₂, ?_, ?_⟩
  · show update (update _ _ _) _ _ = _
    rw [update_idem]
  · show update (fun _ : Bytes => ([] : List Ptr)) [97] [1] [97] = [1]
    exact update_self ..

variable (lookup) in
theorem runs_released : ∃ b s, (baseSystem lookup).Runs [.opened 1 [97] 80, .added 1 5, .released 1] b ∧ Shows lookup b s ∧
    s.connections = update (fun _ => none) 1 (some ⟨[97], 80, 5, false, true, false⟩) ∧ s.listed [97] = [1] := by
  obtain ⟨b, s, hrun, hshows, hconns, hlisted⟩ := runs_added lookup
  obtain ⟨⟨c, lists, hat⟩, -, -⟩ := id hshows
  have hthere : s.connections 1 = some ⟨[97], 80, 5, false, true, true⟩ := by
    rw [hconns]
    exact update_self ..
  have hallowed : Allowed b (.release 1) := by
    show b.connections 1 ≠ none
    rw [hat.connections, hthere]
    exact Option.some_ne_none _
  obtain ⟨_, b', s', hrun', ⟨d, hd, rfl⟩, hshows'⟩ := runs_call hrun hshows hallowed trivial
  cases hthere.symm.trans hd
  refine ⟨b', _, hrun', hshows', ?_, hlisted⟩
  show update s.connections _ _ = _
  rw [hconns, update_idem]

/-- The connection is handed out again, and deleted. -/
theorem connection_base_reused : ∃ b s, (baseSystem fun _ => 0).Runs
    [.opened 1 [97] 80, .added 1 5, .released 1, .got [97] 80 10 (some 1), .deleted 1] b ∧
      (ConnectionPool.pool expiryTime).Runs
        [.opened 1 [97] 80, .added 1 5, .released 1, .got [97] 80 10 (some 1), .deleted 1] s ∧
      Shows (fun _ => 0) b s ∧ ∃ answer b', call (fun _ => 0) b .deletePerms = .ok (answer, b') := by
  obtain ⟨b, s, hrun, hshows, hconns, hlisted⟩ := runs_released fun _ => 0
  have hidle : ConnectionPool.Idle s.connections 80 1 := by
    rw [hconns]
    exact ⟨_, update_self .., rfl, rfl⟩
  obtain ⟨answer, b₁, s₁, hrun₁, ⟨hfirst, hs₁⟩, hshows₁⟩ := runs_call hrun hshows (c := .getConnectionFromBase [97] 80 10) trivial trivial
  cases answer with
  | none => exact absurd hidle (hfirst 1 (hlisted ▸ List.mem_singleton_self 1))
  | some p =>
      obtain ⟨before, after, hsplit, -, -⟩ := hfirst
      obtain rfl : p = 1 := List.mem_singleton.mp (hlisted ▸ hsplit ▸ List.mem_append_right before List.mem_cons_self)
      obtain ⟨⟨c, lists, hat⟩, -, -⟩ := id hshows₁
      have hallowed : Allowed b₁ (.delConnectionLazy 1) := by
        obtain ⟨d, -, rfl⟩ := hs₁
        show b₁.connections 1 ≠ none
        rw [hat.connections, ConnectionPool.set_self]
        exact Option.some_ne_none _
      obtain ⟨answer, b₂, s₂, hrun₂, -, hshows₂⟩ := runs_call hrun₁ hshows₁ hallowed trivial
      obtain ⟨s', hpool, hshows', hnext⟩ := connection_base hrun₂
      obtain ⟨answer', b', -, hcall, -⟩ | ⟨hlong, -⟩ := hnext .deletePerms trivial
      · exact ⟨b₂, s', hrun₂, hpool, hshows', answer', b', hcall⟩
      · exact absurd trivial hlong

/-- A connection that was handed out and not returned is in use as long as it is there. `getConnectionFromBase` does not hand it out
again, and `closeOldConnections` leaves it as it is. -/
theorem connection_held {p : Ptr} (hrun : (baseSystem lookup).Runs labels b) (hheld : ConnectionPool.Held labels p) :
    (∀ d, b.connections p = some d → d.inUse = true) ∧
      (∀ server port now answer b', getConnectionFromBase lookup b server port now = .ok (answer, b') → answer ≠ some p) ∧
      ∀ now b', closeOldConnections b now = .ok b' → b'.connections p = b.connections p := by
  obtain ⟨s, hpool, hshows⟩ := base_simulates_pool.runs hrun
  obtain ⟨⟨c, lists, hat⟩, hs, -⟩ := hshows
  obtain ⟨hidle, hold⟩ := ConnectionPool.held_alone hpool hheld
  refine ⟨?_, ?_, ?_⟩
  · rw [hat.connections]
    exact ConnectionPool.held_inUse hpool hheld
  · rintro server port now answer b' hcall rfl
    obtain ⟨answer', b'', -, -, s', hcall', ⟨hfirst, -⟩, -⟩ := get_spec hat hs server port now
    cases hcall.symm.trans hcall'
    obtain ⟨before, after, -, -, hfree⟩ := hfirst
    exact hidle port hfree
  · intro now b' hcall
    obtain ⟨b'', c', lists', s', hcall', ⟨gone, hgone, rfl⟩, hat'⟩ := close_spec hat hs now
    cases hcall.symm.trans hcall'
    have hkept : p ∉ gone := fun hmem => hold now (hgone.old p hmem)
    calc b'.connections p = (s.without gone).connections p := congrFun hat'.connections p
      _ = s.connections p := if_neg hkept
      _ = b.connections p := congrFun hat.connections.symm p

/-- A connection that is added, and handed out by that. -/
theorem connection_held_added : ∃ b : Base, (baseSystem fun _ => 0).Runs [.opened 1 [97] 80, .added 1 5] b ∧
    ∀ server port now answer b', getConnectionFromBase (fun _ => 0) b server port now = .ok (answer, b') → answer ≠ some 1 := by
  obtain ⟨b, -, hrun, -⟩ := runs_added fun _ => 0
  have hheld : ConnectionPool.Held ([.opened 1 [97] 80, .added 1 5] : List (Event Ptr Bytes)) 1 :=
    ⟨[.opened 1 [97] 80], _, [], rfl, rfl, fun e he => absurd he List.not_mem_nil⟩
  exact ⟨b, hrun, (connection_held hrun hheld).2.1⟩

/-- A connection of the base that has not been used for `EXPIRY_TIME`. -/
def Expired (b : Base) (now : Int) (p : Ptr) : Prop :=
  ∃ d, b.connections p = some d ∧ d.added = true ∧ d.lDel = false ∧ d.inUse = false ∧ d.used + expiryTime < now

/-- After any calls, `closeOldConnections` returns. It frees connections that have expired and no others, and one at least if there is
one. -/
theorem connections_expire (hrun : (baseSystem lookup).Runs labels b) (now : Int) : ∃ gone b', closeOldConnections b now = .ok b' ∧
    (∀ p, b'.connections p = if p ∈ gone then none else b.connections p) ∧ (∀ p ∈ gone, Expired b now p) ∧
      ((∃ p, Expired b now p) → gone ≠ []) := by
  obtain ⟨s, hpool, ⟨c, lists, hat⟩, hs, -⟩ := base_simulates_pool.runs hrun
  obtain ⟨b', c', lists', s', hcall, ⟨gone, hgone, rfl⟩, hat'⟩ := close_spec hat hs now
  refine ⟨gone, b', hcall, fun p => ?_, fun p hp => ?_, ?_⟩
  · rw [hat'.connections, hat.connections]
    rfl
  · obtain ⟨server, hlisted⟩ := hgone.listed p hp
    obtain ⟨d, hd, -, hadded, hlDel⟩ := (hs.listed server p).mp hlisted
    obtain ⟨d', hd', hidle, hused⟩ := hgone.old p hp
    cases hd.symm.trans hd'
    exact ⟨d, hat.connections ▸ hd, hadded, hlDel, hidle, hused⟩
  · rintro ⟨p, d, hd, hadded, hlDel, hidle, hused⟩
    rw [hat.connections] at hd
    have hlisted : p ∈ s.listed d.server := (hs.listed _ p).mpr ⟨d, hd, rfl, hadded, hlDel⟩
    exact hgone.some_old d.server p hlisted ⟨d, hd, hidle, hused⟩

/-- A connection that was given back expires. -/
theorem connections_expire_released : ∃ (b : Base) (gone : List Ptr) (b' : Base),
    (baseSystem fun _ => 0).Runs [.opened 1 [97] 80, .added 1 5, .released 1] b ∧
    closeOldConnections b 200 = .ok b' ∧ 1 ∈ gone ∧ ∀ p, b'.connections p = if p ∈ gone then none else b.connections p := by
  obtain ⟨b, s, hrun, ⟨⟨c, lists, hat⟩, -, -⟩, hconns, -⟩ := runs_released fun _ => 0
  rw [← hat.connections] at hconns
  obtain ⟨gone, b', hcall, hgone, hexpired, hsome⟩ := connections_expire hrun 200
  have hone : Expired b 200 1 := by
    unfold Expired
    rw [hconns]
    exact ⟨_, update_self .., rfl, rfl, rfl, by decide⟩
  obtain ⟨p, hp⟩ := List.exists_mem_of_ne_nil gone (hsome ⟨1, hone⟩)
  have hone' : p = 1 := by
    obtain ⟨d, hd, -⟩ := hexpired p hp
    by_contra hne
    rw [hconns, update_of_ne hne] at hd
    cases hd
  exact ⟨b, gone, b', hrun, hcall, hone' ▸ hp, hgone⟩

end Runs

end BeagleCache.ConnectionBase
