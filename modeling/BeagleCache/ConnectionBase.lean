import BeagleCache.ConnectionPool
import BeagleCache.HashTabRuns
import BeagleCache.LinkedList

/-! The base of connections to servers (conn.c), with the two ways in which proxy.c gives up a connection. The connections of a server are
in a list, which is in a table under the name of the server; the name is in the same allocation as the list. -/

namespace BeagleCache.ConnectionBase

open CursorTable Transition Function Run
open HashTab (HTab HItem Placed Hashed hcreate hfind hadd hdel hfirst hnext)
open LinkedList (Linked startIter notEnd getPresentData move deletePresent addToHead)
open ConnectionPool (Connection Pool)

/-- An address of an entry of the base, a connection, an element of a list or an item of the table. -/
abbrev Ptr := Nat

structure BaseEntry where
  server : Bytes
  conns : LinkedList Ptr

/-- `connTab` with the memory of its entries, and the connections with `delConList`. -/
structure Base where
  connTab : HTab Ptr Ptr
  entries : Ptr → Option BaseEntry
  connections : Ptr → Option (Connection Bytes)
  delConList : List Ptr

/-- What `addConnectionToBase` allocates. -/
structure Memory where
  entry : Ptr
  element : Ptr
  item : Ptr

/-- `EXPIRY_TIME`. -/
def expiryTime : Int := 100

namespace Base

variable (b : Base) (p : Ptr)

/-- The key at an address is the name in the entry there. -/
def keyAt : Bytes := ((b.entries p).map BaseEntry.server).getD []

def entry : Run BaseEntry :=
  match b.entries p with
  | some e => .ok e
  | none => .error .overrun

def connection : Run (Connection Bytes) :=
  match b.connections p with
  | some c => .ok c
  | none => .error .overrun

def setEntry (e : Option BaseEntry) : Base := { b with entries := update b.entries p e }

def setConnection (c : Option (Connection Bytes)) : Base := { b with connections := update b.connections p c }

variable {b p} {q : Ptr}

@[simp] theorem setEntry_self (e : Option BaseEntry) : (b.setEntry p e).entries p = e := update_self ..

theorem setEntry_of_ne (hne : q ≠ p) (e : Option BaseEntry) : (b.setEntry p e).entries q = b.entries q := update_of_ne hne _ _

@[simp] theorem setConnection_self (c : Option (Connection Bytes)) : (b.setConnection p c).connections p = c := update_self ..

theorem setConnection_of_ne (hne : q ≠ p) (c : Option (Connection Bytes)) : (b.setConnection p c).connections q = b.connections q :=
  update_of_ne hne _ _

theorem entry_of {e : BaseEntry} (he : b.entries p = some e) : b.entry p = .ok e := by
  rw [entry, he]

theorem connection_of {c : Connection Bytes} (hc : b.connections p = some c) : b.connection p = .ok c := by
  rw [connection, hc]

end Base

/-! ## The functions -/

section Functions

variable (lookup : Bytes → Nat)

def initConnectionBase : Base := ⟨hcreate 10, fun _ => none, fun _ => none, []⟩

/-- A loop over a list from its present element to the first one that passes a test, where the list then is. -/
def seek (test : Ptr → Run Bool) : Nat → LinkedList Ptr → Run (Option Ptr × LinkedList Ptr)
  | 0, _ => .error .hang
  | fuel + 1, L =>
      if notEnd L then do
        let presentConn ← getPresentData L
        match presentConn with
        | none => .error .overrun
        | some p => do
            let found ← test p
            if found then return (some p, L)
            else do
              let L ← move L
              seek test fuel L
      else .ok (none, L)

/-- More rounds than a list has elements. -/
def rounds (L : LinkedList Ptr) : Nat := L.size.toNat + 1

/-- The test in `getConnectionFromBase`. -/
def reusable (b : Base) (port : Int) (p : Ptr) : Run Bool := do
  let presentConn ← b.connection p
  return decide (presentConn.inUse = false ∧ port = presentConn.port)

/-- The connection that `getConnectionFromBase` hands out. -/
def handOut (b : Base) (now : Int) : Option Ptr → Run (Option Ptr × Base)
  | none => .ok (none, b)
  | some p => do
      let presentConn ← b.connection p
      return (some p, b.setConnection p (some { presentConn with inUse := true, used := now }))

def getConnectionFromBase (b : Base) (server : Bytes) (port now : Int) : Run (Option Ptr × Base) := do
  let r ← hfind lookup b.keyAt b.connTab server
  let b := { b with connTab := r.2 }
  if r.1 then do
    let item ← HashTab.current b.connTab
    let presentConns ← b.entry item.stuff
    let found ← seek (reusable b port) (rounds presentConns.conns) (startIter presentConns.conns)
    handOut (b.setEntry item.stuff (some { presentConns with conns := found.2 })) now found.1
  else return (none, b)

/-- `addConnectionToBase`; `strcpy` fits the 50 bytes of `server`, or writes behind them. -/
def addConnectionToBase (b : Base) (newConn : Ptr) (now : Int) (m : Memory) : Run (Int × Base) := do
  let c ← b.connection newConn
  if c.added then return (-1, b)
  else do
    let b := b.setConnection newConn (some { c with added := true, used := now })
    let r ← hfind lookup b.keyAt b.connTab c.server
    let b := { b with connTab := r.2 }
    if r.1 then do
      let item ← HashTab.current b.connTab
      let presentConns ← b.entry item.stuff
      let added ← addToHead presentConns.conns m.element 0 newConn
      return (0, b.setEntry item.stuff (some { presentConns with conns := added.2 }))
    else do
      inBounds (c.server.length < 50)
      let added ← addToHead LinkedList.create m.element 0 newConn
      let b := b.setEntry m.entry (some ⟨c.server, added.2⟩)
      let r ← hadd lookup b.keyAt b.connTab m.entry m.entry m.item
      return (0, { b with connTab := r.2 })

/-- The end of `delConnectionFromBase`, and of a round of `closeOldConnections`: an entry without connections is freed, and its item of
the table, which is the current one, is deleted. -/
def dropEmpty (b : Base) (presentConns : Ptr) (e : BaseEntry) : Run Base :=
  if e.conns.size = 0 then do
    let r ← hdel b.connTab
    return { b.setEntry presentConns none with connTab := r.2 }
  else .ok (b.setEntry presentConns (some e))

/-- `deletePresent` where a connection was found. -/
def deleteFound : Option Ptr × LinkedList Ptr → Run (LinkedList Ptr)
  | (none, L) => .ok L
  | (some _, L) => do
      let r ← deletePresent L
      return r.2

/-- `delConnectionFromBase`, where the addresses are compared as `unsigned`. -/
def delConnectionFromBase (b : Base) (oldConn : Ptr) : Run (Int × Base) := do
  let c ← b.connection oldConn
  let r ← hfind lookup b.keyAt b.connTab c.server
  let b := { b with connTab := r.2 }
  if r.1 then do
    let item ← HashTab.current b.connTab
    let presentConns ← b.entry item.stuff
    let found ← seek (fun p => .ok (decide (BitVec.ofNat 32 p = BitVec.ofNat 32 oldConn))) (rounds presentConns.conns)
      (startIter presentConns.conns)
    let conns ← deleteFound found
    let b ← dropEmpty b item.stuff { presentConns with conns := conns }
    return (0, b)
  else return (-1, b)

/-- `delConnectionPerm`, as far as memory goes. -/
def delConnectionPerm (b : Base) (p : Ptr) : Run Base := do
  let _ ← b.connection p
  return b.setConnection p none

/-- A connection of the loop in `closeOldConnections`. -/
def closeOld (now : Int) (b : Base) (L : LinkedList Ptr) (p : Ptr) : Run (Base × LinkedList Ptr) := do
  let presentConn ← b.connection p
  if presentConn.used + expiryTime < now ∧ presentConn.inUse = false then do
    let b ← delConnectionPerm b p
    let r ← deletePresent L
    return (b, r.2)
  else return (b, L)

/-- The loop of `closeOldConnections` over a list. -/
def closeConns (now : Int) : Nat → Base → LinkedList Ptr → Run (Base × LinkedList Ptr)
  | 0, _, _ => .error .hang
  | fuel + 1, b, L =>
      if notEnd L then do
        let presentConn ← getPresentData L
        match presentConn with
        | none => .error .overrun
        | some p => do
            let r ← closeOld now b L p
            let L ← move r.2
            closeConns now fuel r.1 L
      else .ok (b, L)

/-- The loop of `closeOldConnections` over the table. -/
def closeServers (now : Int) : Nat → Base → Run Base
  | 0, _ => .error .hang
  | fuel + 1, b => do
      let item ← HashTab.current b.connTab
      let presentConns ← b.entry item.stuff
      let r ← closeConns now (rounds presentConns.conns) b (startIter presentConns.conns)
      let b ← dropEmpty r.1 item.stuff { presentConns with conns := r.2 }
      let next ← hnext b.connTab
      let b := { b with connTab := next.2 }
      if next.1 then closeServers now fuel b else return b

def closeOldConnections (b : Base) (now : Int) : Run Base := do
  let r ← hfirst b.connTab
  let b := { b with connTab := r.2 }
  if r.1 then closeServers now ((b.connTab.count + 1) * (b.connTab.count + 1)) b else return b

/-- `initConnection` of a new connection; `used` is what is in the memory. -/
def initConnection (b : Base) (presentConn : Ptr) (server : Bytes) (port used : Int) : Base :=
  b.setConnection presentConn (some ⟨server, port, used, false, false, false⟩)

/-- `presentConn->inUse` is set. -/
def setInUse (b : Base) (presentConn : Ptr) (inUse : Bool) : Run Base := do
  let c ← b.connection presentConn
  return b.setConnection presentConn (some { c with inUse := inUse })

/-- The call of `delConnectionFromBase` in `delConnectionLazy`. -/
def takeOut (b : Base) (presentConn : Ptr) (added : Bool) : Run Base :=
  if added then do
    let r ← delConnectionFromBase lookup b presentConn
    return r.2
  else .ok b

/-- `delConnectionLazy`. -/
def delConnectionLazy (b : Base) (presentConn : Ptr) : Run Base := do
  let c ← b.connection presentConn
  if c.lDel then return b
  else do
    let b ← takeOut lookup b presentConn c.added
    return { b.setConnection presentConn (some { c with lDel := true }) with delConList := presentConn :: b.delConList }

/-- The loops over `delConList` in `deletePerms`. -/
def deletePerms (b : Base) : Run Base := do
  let b ← b.delConList.foldlM delConnectionPerm b
  return { b with delConList := [] }

/-! ## The calls -/

inductive Call
  | initConnection (p : Ptr) (server : Bytes) (port used : Int)
  | getConnectionFromBase (server : Bytes) (port now : Int)
  | addConnectionToBase (p : Ptr) (now : Int) (m : Memory)
  | release (p : Ptr)
  | delConnectionLazy (p : Ptr)
  | deletePerms
  | closeOldConnections (now : Int)

/-- A call, with the connection that it hands out. `addConnectionToBase` is called for a connection that is in use. -/
def call (b : Base) : Call → Run (Option Ptr × Base)
  | .initConnection p server port used => .ok (none, initConnection b p server port used)
  | .getConnectionFromBase server port now => getConnectionFromBase lookup b server port now
  | .addConnectionToBase p now m => do
      let b ← setInUse b p true
      let r ← addConnectionToBase lookup b p now m
      return (none, r.2)
  | .release p => (Prod.mk none) <$> setInUse b p false
  | .delConnectionLazy p => (Prod.mk none) <$> delConnectionLazy lookup b p
  | .deletePerms => (Prod.mk none) <$> deletePerms b
  | .closeOldConnections now => (Prod.mk none) <$> closeOldConnections b now

end Functions

/-! ## Loops over a list -/

section Loops

variable {L : LinkedList Ptr} {xs ys seq : List (Ptr × LinkedList.Entry Ptr)} {y : Ptr × LinkedList.Entry Ptr} {fuel : Nat}

/-- The connections of a list. -/
def connsOf (seq : List (Ptr × LinkedList.Entry Ptr)) : List Ptr := seq.map fun y => y.2.data

theorem linked_iterator (h : Linked L seq) (p : Option Ptr) : Linked { L with iterator := p } seq :=
  ⟨h.nodup, h.nodes, h.head, h.tail, h.size⟩

theorem linked_startIter (h : Linked L seq) : Linked (startIter L) seq ∧ (startIter L).iterator = DoublyLinked.first seq :=
  ⟨linked_iterator h _, h.head⟩

theorem length_lt_rounds (h : Linked L seq) : seq.length < rounds L := by
  rw [rounds, h.size, Int.toNat_natCast]
  exact Nat.lt_succ_self _

theorem notEnd_of_none (hiter : L.iterator = none) : notEnd L = false := by
  rw [notEnd, hiter]
  rfl

theorem notEnd_of_some (h : Linked L (xs ++ y :: ys)) (hiter : L.iterator = some y.1) : notEnd L = true := by
  have hsize : L.size ≠ 0 := by
    rw [h.size, List.length_append, List.length_cons]
    omega
  rw [notEnd, hiter]
  simp [hsize]

theorem seek_spec (test : Ptr → Run Bool) {passes : Ptr → Bool} (h : Linked L (xs ++ ys)) (hiter : L.iterator = DoublyLinked.first ys)
    (htest : ∀ p ∈ connsOf ys, test p = .ok (passes p)) (hfuel : ys.length < fuel) :
    (∃ before y after, ys = before ++ y :: after ∧ (∀ p ∈ connsOf before, passes p = false) ∧ passes y.2.data = true ∧
        seek test fuel L = .ok (some y.2.data, { L with iterator := some y.1 })) ∨
      (∀ p ∈ connsOf ys, passes p = false) ∧ seek test fuel L = .ok (none, { L with iterator := none }) := by
  induction ys generalizing L xs fuel with
  | nil =>
      obtain ⟨fuel, rfl⟩ := Nat.exists_eq_add_one.mpr hfuel
      have hnone : L.iterator = none := hiter
      refine .inr ⟨fun p hp => absurd hp List.not_mem_nil, ?_⟩
      rw [seek, notEnd_of_none hnone, ← hnone]
      rfl
  | cons y ys ih =>
      obtain ⟨fuel, rfl⟩ := Nat.exists_eq_add_one.mpr hfuel.pos
      have hat : L.iterator = some y.1 := hiter
      have hround : seek test (fuel + 1) L =
          (if passes y.2.data then .ok (some y.2.data, L) else seek test fuel { L with iterator := DoublyLinked.first ys }) := by
        rw [seek, notEnd_of_some h hat, if_pos rfl, LinkedList.getPresentData_spec h hat, ok_bind]
        show (test y.2.data >>= _) = _
        rw [htest _ List.mem_cons_self, ok_bind, LinkedList.move_spec h hat]
        rfl
      cases hpasses : passes y.2.data with
      | true =>
          refine .inl ⟨[], y, ys, rfl, fun p hp => absurd hp List.not_mem_nil, hpasses, ?_⟩
          rw [hround, if_pos hpasses, ← hat]
      | false =>
          have hmoved : Linked { L with iterator := DoublyLinked.first ys } ((xs ++ [y]) ++ ys) := by
            rw [List.append_assoc]
            exact linked_iterator h _
          have hrest : ∀ p ∈ connsOf ys, test p = .ok (passes p) := fun p hp => htest p (List.mem_cons_of_mem _ hp)
          have hnot : seek test (fuel + 1) L = seek test fuel { L with iterator := DoublyLinked.first ys } := by
            rw [hround, if_neg (Bool.eq_false_iff.mp hpasses)]
          obtain ⟨before, z, after, rfl, hbefore, hz, hcall⟩ | ⟨hnone, hcall⟩ := ih hmoved rfl hrest (Nat.lt_of_succ_lt_succ hfuel)
          · refine .inl ⟨y :: before, z, after, rfl, ?_, hz, hnot.trans hcall⟩
            intro p hp
            obtain rfl | hp := List.mem_cons.mp hp
            · exact hpasses
            · exact hbefore p hp
          · refine .inr ⟨?_, hnot.trans hcall⟩
            intro p hp
            obtain rfl | hp := List.mem_cons.mp hp
            · exact hpasses
            · exact hnone p hp

end Loops

/-! ## The loop that closes connections -/

section Close

open ConnectionPool (Old)

variable {b : Base} {L : LinkedList Ptr} {xs ys : List (Ptr × LinkedList.Entry Ptr)} {now : Int} {fuel : Nat}

/-- The base without some connections. -/
def freed (b : Base) (gone : List Ptr) : Base := { b with connections := fun p => if p ∈ gone then none else b.connections p }

theorem freed_nil (b : Base) : freed b [] = b := by
  unfold freed
  simp

theorem freed_setConnection (b : Base) (p : Ptr) (gone : List Ptr) : freed (b.setConnection p none) gone = freed b (p :: gone) := by
  unfold freed Base.setConnection
  congr 1
  funext q
  by_cases hq : q = p
  · subst hq
    simp
  · simp [hq]

theorem old_setConnection {p q : Ptr} (hne : q ≠ p) :
    Old expiryTime now (b.setConnection p none).connections q ↔ Old expiryTime now b.connections q := by
  unfold Old
  rw [Base.setConnection_of_ne hne]

variable (now) in
theorem closeOld_cases (h : Linked L (xs ++ ys)) {y : Ptr × LinkedList.Entry Ptr} {rest : List (Ptr × LinkedList.Entry Ptr)}
    (hys : ys = y :: rest) (hiter : L.iterator = some y.1) {c : Connection Bytes} (hc : b.connections y.2.data = some c) :
    (Old expiryTime now b.connections y.2.data ∧ ∃ L', closeOld now b L y.2.data = .ok (b.setConnection y.2.data none, L') ∧
        Linked L' (xs ++ rest) ∧ L'.iterator = DoublyLinked.first rest) ∨
      ¬Old expiryTime now b.connections y.2.data ∧ closeOld now b L y.2.data = .ok (b, L) := by
  subst hys
  have hread : b.connection y.2.data = .ok c := Base.connection_of hc
  have hold : Old expiryTime now b.connections y.2.data ↔ c.used + expiryTime < now ∧ c.inUse = false := by
    unfold Old
    rw [hc]
    constructor
    · rintro ⟨d, hd, hidle, hused⟩
      cases hd
      exact ⟨hused, hidle⟩
    · rintro ⟨hused, hidle⟩
      exact ⟨c, rfl, hidle, hused⟩
  unfold closeOld
  rw [hread, ok_bind]
  by_cases hclose : c.used + expiryTime < now ∧ c.inUse = false
  · obtain ⟨L', hdelete, hlinked, hiter'⟩ := LinkedList.deletePresent_spec h hiter
    refine .inl ⟨hold.mpr hclose, L', ?_, hlinked, hiter'⟩
    rw [if_pos hclose, delConnectionPerm, hread, hdelete]
    rfl
  · refine .inr ⟨mt hold.mp hclose, ?_⟩
    rw [if_neg hclose]
    rfl

variable (now) in
/-- The loop closes old connections only, and one at least if there is one: it goes on behind the next one after a closed one. -/
theorem closeConns_spec (h : Linked L (xs ++ ys)) (hiter : L.iterator = DoublyLinked.first ys) (hnodup : (connsOf ys).Nodup)
    (halive : ∀ p ∈ connsOf ys, b.connections p ≠ none) (hfuel : ys.length < fuel) :
    ∃ gone L' seq', closeConns now fuel b L = .ok (freed b gone, L') ∧ Linked L' (xs ++ seq') ∧
      connsOf seq' = (connsOf ys).filter (fun p => p ∉ gone) ∧ (∀ p ∈ gone, p ∈ connsOf ys ∧ Old expiryTime now b.connections p) ∧
      (gone = [] → ∀ p ∈ connsOf ys, ¬Old expiryTime now b.connections p) := by
  induction fuel generalizing b L xs ys with
  | zero => exact absurd hfuel (Nat.not_lt_zero _)
  | succ fuel ih =>
      cases ys with
      | nil =>
          have hnone : L.iterator = none := hiter
          refine ⟨[], L, [], ?_, h, rfl, fun p hp => absurd hp List.not_mem_nil, fun _ p hp => absurd hp List.not_mem_nil⟩
          rw [closeConns, notEnd_of_none hnone, freed_nil]
          rfl
      | cons y rest =>
          have hat : L.iterator = some y.1 := hiter
          obtain ⟨hfresh, hnodup'⟩ := List.nodup_cons.mp hnodup
          obtain ⟨c, hc⟩ := Option.ne_none_iff_exists'.mp (halive _ List.mem_cons_self)
          have hround : closeConns now (fuel + 1) b L = (closeOld now b L y.2.data >>= fun r => do
              let L ← move r.2
              closeConns now fuel r.1 L) := by
            rw [closeConns, notEnd_of_some h hat, if_pos rfl, LinkedList.getPresentData_spec h hat, ok_bind]
          have hlater : ∀ p ∈ connsOf rest, p ≠ y.2.data := fun p hp => ne_of_mem_of_not_mem hp hfresh
          have hstill : ∀ p ∈ connsOf rest, (b.setConnection y.2.data none).connections p ≠ none := by
            intro p hp
            rw [Base.setConnection_of_ne (hlater p hp)]
            exact halive p (List.mem_cons_of_mem _ hp)
          obtain ⟨hold, L₁, hclose, hlinked, hiter₁⟩ | ⟨hnot, hkeep⟩ := closeOld_cases now h rfl hat hc
          · rw [hround, hclose, ok_bind]
            cases rest with
            | nil =>
                have hnone : L₁.iterator = none := hiter₁
                obtain ⟨fuel, rfl⟩ := Nat.exists_eq_add_one.mpr (Nat.lt_of_succ_lt_succ hfuel)
                refine ⟨[y.2.data], L₁, [], ?_, hlinked, ?_, ?_, fun hnil => absurd hnil (List.cons_ne_nil _ _)⟩
                · rw [move, if_pos hnone, pure_eq_ok, ok_bind, closeConns, notEnd_of_none hnone, ← freed_setConnection, freed_nil]
                  rfl
                · simp [connsOf]
                · intro p hp
                  rw [List.mem_singleton.mp hp]
                  exact ⟨List.mem_cons_self, hold⟩
            | cons z rest =>
                obtain ⟨hz, hnodup''⟩ := List.nodup_cons.mp hnodup'
                have hmoved : Linked { L₁ with iterator := DoublyLinked.first rest } ((xs ++ [z]) ++ rest) := by
                  rw [List.append_assoc]
                  exact linked_iterator hlinked _
                obtain ⟨gone, L', seq', hcall, hlinked', hseq', hgone, -⟩ := ih hmoved rfl hnodup''
                  (fun p hp => hstill p (List.mem_cons_of_mem _ hp)) (Nat.lt_of_succ_lt (Nat.lt_of_succ_lt_succ hfuel))
                have hzgone : z.2.data ∉ gone := fun hmem => hz (hgone _ hmem).1
                refine ⟨y.2.data :: gone, L', z :: seq', ?_, ?_, ?_, ?_, fun hnil => absurd hnil (List.cons_ne_nil _ _)⟩
                · rw [LinkedList.move_spec hlinked hiter₁, ok_bind, hcall, freed_setConnection]
                · rwa [List.append_assoc] at hlinked'
                · have hsame : (connsOf rest).filter (fun p => p ∉ gone) = (connsOf rest).filter fun p => p ∉ y.2.data :: gone := by
                    apply List.filter_congr
                    intro p hp
                    simp [hlater p (List.mem_cons_of_mem _ hp)]
                  show z.2.data :: connsOf seq' = (y.2.data :: z.2.data :: connsOf rest).filter _
                  rw [hseq', hsame, List.filter_cons_of_neg (by simp), List.filter_cons_of_pos]
                  simp [hzgone, hlater z.2.data List.mem_cons_self]
                · intro p hp
                  obtain rfl | hp := List.mem_cons.mp hp
                  · exact ⟨List.mem_cons_self, hold⟩
                  · obtain ⟨hmem, hp⟩ := hgone p hp
                    have hp' : p ∈ connsOf (z :: rest) := List.mem_cons_of_mem _ hmem
                    exact ⟨List.mem_cons_of_mem _ hp', (old_setConnection (hlater p hp')).mp hp⟩
          · have hmoved : Linked { L with iterator := DoublyLinked.first rest } ((xs ++ [y]) ++ rest) := by
              rw [List.append_assoc]
              exact linked_iterator h _
            obtain ⟨gone, L', seq', hcall, hlinked', hseq', hgone, hnone⟩ := ih hmoved rfl hnodup'
              (fun p hp => halive p (List.mem_cons_of_mem _ hp)) (Nat.lt_of_succ_lt_succ hfuel)
            have hygone : y.2.data ∉ gone := fun hmem => hfresh (hgone _ hmem).1
            refine ⟨gone, L', y :: seq', ?_, ?_, ?_, ?_, ?_⟩
            · rw [hround, hkeep, ok_bind, LinkedList.move_spec h hat, ok_bind, hcall]
            · rwa [List.append_assoc] at hlinked'
            · show y.2.data :: connsOf seq' = (y.2.data :: connsOf rest).filter _
              rw [hseq', List.filter_cons_of_pos]
              simp [hygone]
            · intro p hp
              exact ⟨List.mem_cons_of_mem _ (hgone p hp).1, (hgone p hp).2⟩
            · intro hnil p hp
              obtain rfl | hp := List.mem_cons.mp hp
              · exact hnot
              · exact hnone hnil p hp

end Close

/-! ## What the base has -/

section Listed

variable (lookup : Bytes → Nat)

/-- An item of the table. -/
abbrev Item := HashTab.Ptr × HItem Ptr Ptr

/-- The servers of the items. -/
def names (b : Base) (c : Cursor Item) : List Bytes := c.items.map fun x => b.keyAt x.2.stuff

/-- The table has the entries, each under the name that is in it, with a list of connections. -/
structure Listed (b : Base) (c : Cursor Item) (lists : Ptr → List Ptr) : Prop where
  placed : Placed b.connTab c
  hashed : ∀ x ∈ c.items, Hashed lookup b.keyAt x.2
  itself : ∀ x ∈ c.items, x.2.key = x.2.stuff
  nodup : (names b c).Nodup
  entry : ∀ x ∈ c.items, ∃ e seq, b.entries x.2.stuff = some e ∧ Linked e.conns seq ∧ connsOf seq = lists x.2.stuff
  only : ∀ p, b.entries p ≠ none → ∃ x ∈ c.items, x.2.stuff = p
  fits : ∀ server ∈ names b c, server.length < 50

variable {lookup} {b b' : Base} {c c' : Cursor Item} {lists : Ptr → List Ptr} {x : Item} {p q : Ptr} {e : BaseEntry}

theorem keyAt_of (he : b.entries p = some e) : b.keyAt p = e.server := by
  rw [Base.keyAt, he]
  rfl

theorem keyAt_setEntry_of_ne (e : Option BaseEntry) (hne : q ≠ p) : (b.setEntry p e).keyAt q = b.keyAt q := by
  unfold Base.keyAt
  rw [Base.setEntry_of_ne hne]

theorem keyAt_setEntry (he : b.entries p = some e) {e' : BaseEntry} (hserver : e'.server = e.server) :
    (b.setEntry p (some e')).keyAt = b.keyAt := by
  funext q
  by_cases hq : q = p
  · subst hq
    rw [keyAt_of he, ← hserver]
    exact keyAt_of (update_self ..)
  · exact keyAt_setEntry_of_ne _ hq

theorem Listed.item_eq (h : Listed lookup b c lists) {y : Item} (hx : x ∈ c.items) (hy : y ∈ c.items)
    (hsame : b.keyAt x.2.stuff = b.keyAt y.2.stuff) : x = y := List.inj_on_of_nodup_map h.nodup hx hy hsame

theorem Listed.mem_names (hx : x ∈ c.items) : b.keyAt x.2.stuff ∈ names b c := List.mem_map_of_mem hx

/-- The connections do not matter, nor does the position in the table. -/
theorem Listed.moved (h : Listed lookup b c lists) (hplaced : Placed b'.connTab c') (hitems : c'.items = c.items)
    (hentries : b'.entries = b.entries) : Listed lookup b' c' lists := by
  have hkey : b'.keyAt = b.keyAt := by
    funext p
    rw [Base.keyAt, hentries, Base.keyAt]
  have hnames : names b' c' = names b c := by
    rw [names, hkey, hitems, names]
  refine ⟨hplaced, ?_, ?_, ?_, ?_, ?_, ?_⟩
  · rw [hitems, hkey]
    exact h.hashed
  · rw [hitems]
    exact h.itself
  · rw [hnames]
    exact h.nodup
  · rw [hitems, hentries]
    exact h.entry
  · rw [hitems, hentries]
    exact h.only
  · rw [hnames]
    exact h.fits

theorem Listed.setList (h : Listed lookup b c lists) (hx : x ∈ c.items) (he : b.entries x.2.stuff = some e)
    {L : LinkedList Ptr} {seq : List (Ptr × LinkedList.Entry Ptr)} (hL : Linked L seq) :
    Listed lookup (b.setEntry x.2.stuff (some { e with conns := L })) c (update lists x.2.stuff (connsOf seq)) := by
  have hkey : (b.setEntry x.2.stuff (some { e with conns := L })).keyAt = b.keyAt := keyAt_setEntry he rfl
  have hnames : names (b.setEntry x.2.stuff (some { e with conns := L })) c = names b c := by
    rw [names, hkey, names]
  refine ⟨h.placed, ?_, h.itself, ?_, fun y hy => ?_, fun q hq => ?_, ?_⟩
  · rw [hkey]
    exact h.hashed
  · rw [hnames]
    exact h.nodup
  · by_cases hne : y.2.stuff = x.2.stuff
    · rw [hne]
      refine ⟨_, seq, update_self .., hL, ?_⟩
      rw [update_self]
    · obtain ⟨e', seq', he', hlinked, hdata⟩ := h.entry y hy
      refine ⟨e', seq', ?_, hlinked, ?_⟩
      · exact (update_of_ne hne _ _).trans he'
      · rw [update_of_ne hne]
        exact hdata
  · by_cases hne : q = x.2.stuff
    · exact ⟨x, hx, hne.symm⟩
    · exact h.only q ((update_of_ne hne _ _).symm.trans_ne hq)
  · rw [hnames]
    exact h.fits

theorem Listed.dropped (h : Listed lookup b c lists) {rest : List Item} (hrest : c.rest = x :: rest) {t : HTab Ptr Ptr}
    (hplaced : Placed t c.delete) : Listed lookup { b.setEntry x.2.stuff none with connTab := t } c.delete lists := by
  have hitems : c.delete.items = c.before ++ rest := Cursor.items_delete hrest
  have hall : c.items = c.before ++ x :: rest := by rw [Cursor.items, hrest]
  have hsub : c.delete.items.Sublist c.items := by
    rw [hitems, hall]
    exact (List.Sublist.refl _).append (List.sublist_cons_self x rest)
  have hx : x ∈ c.items := by
    rw [hall]
    exact List.mem_append_right _ List.mem_cons_self
  have hother : ∀ y ∈ c.delete.items, y.2.stuff ≠ x.2.stuff := by
    intro y hy heq
    have hnodup := h.nodup
    rw [names, hall, List.map_append, List.map_cons] at hnodup
    have hnot := (List.nodup_middle.mp hnodup)
    rw [← List.map_append, ← hitems] at hnot
    exact (List.nodup_cons.mp hnot).1 (heq ▸ List.mem_map_of_mem hy)
  have hkey : ∀ y ∈ c.delete.items, (b.setEntry x.2.stuff none).keyAt y.2.stuff = b.keyAt y.2.stuff :=
    fun y hy => keyAt_setEntry_of_ne _ (hother y hy)
  have hnames : (names { b.setEntry x.2.stuff none with connTab := t } c.delete).Sublist (names b c) := by
    have hsame : names { b.setEntry x.2.stuff none with connTab := t } c.delete =
        c.delete.items.map fun y => b.keyAt y.2.stuff := List.map_congr_left hkey
    rw [hsame]
    exact hsub.map _
  refine ⟨hplaced, fun y hy => ?_, fun y hy => h.itself y (hsub.subset hy), hnames.nodup h.nodup, fun y hy => ?_, fun q hq => ?_,
    fun server hserver => h.fits server (hnames.subset hserver)⟩
  · have hhashed := h.hashed y (hsub.subset hy)
    have hself := h.itself y (hsub.subset hy)
    have hsame : (b.setEntry x.2.stuff none).keyAt y.2.key = b.keyAt y.2.key := by
      rw [hself]
      exact hkey y hy
    exact ⟨hhashed.hval.trans (congrArg lookup hsame.symm), hhashed.keyl.trans (congrArg List.length hsame.symm)⟩
  · obtain ⟨e, seq, he, hrest⟩ := h.entry y (hsub.subset hy)
    exact ⟨e, seq, (update_of_ne (hother y hy) _ _).trans he, hrest⟩
  · have hne : q ≠ x.2.stuff := fun heq => hq (heq ▸ update_self ..)
    obtain ⟨y, hy, hyq⟩ := h.only q ((update_of_ne hne _ _).symm.trans_ne hq)
    rw [hall] at hy
    refine ⟨y, ?_, hyq⟩
    rw [hitems]
    obtain hy | hy := List.mem_append.mp hy
    · exact List.mem_append_left _ hy
    · obtain rfl | hy := List.mem_cons.mp hy
      · exact absurd hyq.symm hne
      · exact List.mem_append_right _ hy

theorem Listed.added (h : Listed lookup b c lists) (hfresh : b.entries p = none) {t : HTab Ptr Ptr} {i : HashTab.Ptr}
    {item : HItem Ptr Ptr} (hplaced : Placed t c') (hperm : c'.items.Perm ((i, item) :: c.items)) (hkey : item.key = p)
    (hstuff : item.stuff = p) (hhashed : item.hval = lookup e.server ∧ item.keyl = e.server.length) (hnew : e.server ∉ names b c)
    (hfits : e.server.length < 50) {seq : List (Ptr × LinkedList.Entry Ptr)} (hlinked : Linked e.conns seq) :
    Listed lookup { b.setEntry p (some e) with connTab := t } c' (update lists p (connsOf seq)) := by
  have hself : (b.setEntry p (some e)).keyAt p = e.server := keyAt_of (update_self ..)
  have hold : ∀ y ∈ c.items, y.2.stuff ≠ p := by
    intro y hy heq
    obtain ⟨e', -, he', -⟩ := h.entry y hy
    rw [heq, hfresh] at he'
    cases he'
  have hkeep : ∀ y ∈ c.items, (b.setEntry p (some e)).keyAt y.2.stuff = b.keyAt y.2.stuff :=
    fun y hy => keyAt_setEntry_of_ne _ (hold y hy)
  have hnames : (names { b.setEntry p (some e) with connTab := t } c').Perm (e.server :: names b c) := by
    have hmap := hperm.map fun y => (b.setEntry p (some e)).keyAt y.2.stuff
    have hname : (b.setEntry p (some e)).keyAt item.stuff = e.server := by rw [hstuff, hself]
    rw [List.map_cons, List.map_congr_left hkeep, hname] at hmap
    exact hmap
  have hmem : ∀ y ∈ c'.items, y = (i, item) ∨ y ∈ c.items := fun y hy => List.mem_cons.mp (hperm.mem_iff.mp hy)
  refine ⟨hplaced, fun y hy => ?_, fun y hy => ?_, hnames.nodup_iff.mpr (List.nodup_cons.mpr ⟨hnew, h.nodup⟩), fun y hy => ?_,
    fun q hq => ?_, fun server hserver => ?_⟩
  · obtain rfl | hy := hmem y hy
    · have hname : (b.setEntry p (some e)).keyAt item.key = e.server := by rw [hkey, hself]
      exact ⟨hhashed.1.trans (congrArg lookup hname.symm), hhashed.2.trans (congrArg List.length hname.symm)⟩
    · have hsame : (b.setEntry p (some e)).keyAt y.2.key = b.keyAt y.2.key := by
        rw [h.itself y hy]
        exact hkeep y hy
      exact ⟨(h.hashed y hy).hval.trans (congrArg lookup hsame.symm), (h.hashed y hy).keyl.trans (congrArg List.length hsame.symm)⟩
  · obtain rfl | hy := hmem y hy
    · exact hkey.trans hstuff.symm
    · exact h.itself y hy
  · obtain rfl | hy := hmem y hy
    · refine ⟨e, seq, ?_, hlinked, ?_⟩
      · rw [hstuff]
        exact update_self ..
      · rw [hstuff, update_self]
    · obtain ⟨e', seq', he', hlinked', hdata⟩ := h.entry y hy
      refine ⟨e', seq', (update_of_ne (hold y hy) _ _).trans he', hlinked', ?_⟩
      rw [update_of_ne (hold y hy)]
      exact hdata
  · by_cases hne : q = p
    · exact ⟨(i, item), hperm.mem_iff.mpr List.mem_cons_self, hstuff.trans hne.symm⟩
    · obtain ⟨y, hy, hyq⟩ := h.only q ((update_of_ne hne _ _).symm.trans_ne hq)
      exact ⟨y, hperm.mem_iff.mpr (List.mem_cons_of_mem _ hy), hyq⟩
  · obtain rfl | hserver := List.mem_cons.mp (hnames.mem_iff.mp hserver)
    · exact hfits
    · exact h.fits server hserver

theorem Listed.hfind (h : Listed lookup b c lists) (server : Bytes) :
    (server ∉ names b c ∧ (∀ y ∈ c.items, ¬y.2.Matches lookup b.keyAt server) ∧
        hfind lookup b.keyAt b.connTab server = .ok (false, b.connTab)) ∨
      ∃ x t' c' rest, x ∈ c.items ∧ b.keyAt x.2.stuff = server ∧ hfind lookup b.keyAt b.connTab server = .ok (true, t') ∧
        Listed lookup { b with connTab := t' } c' lists ∧ c'.items = c.items ∧ c'.rest = x :: rest ∧ HashTab.current t' = .ok x.2 := by
  have hkeyAt : ∀ y ∈ c.items, b.keyAt y.2.key = b.keyAt y.2.stuff := fun y hy => congrArg b.keyAt (h.itself y hy)
  obtain ⟨hnone, hcall⟩ | ⟨x, t', c', hx, hmatch, hcall, hplaced, hitems, hcurrent⟩ := HashTab.hfind_spec lookup b.keyAt h.placed server
  · refine .inl ⟨fun hmem => ?_, hnone, hcall⟩
    obtain ⟨y, hy, hserver⟩ := List.mem_map.mp hmem
    exact hnone y hy ((h.hashed y hy).matches_iff.mpr ((hkeyAt y hy).trans hserver))
  · obtain ⟨rest, hrest⟩ := List.head?_eq_some_iff.mp hcurrent
    refine .inr ⟨x, t', c', rest, hx, ?_, hcall, ?_, hitems, hrest, HashTab.current_spec hplaced hcurrent⟩
    · rw [← hkeyAt x hx]
      exact (h.hashed x hx).matches_iff.mp hmatch
    · exact h.moved hplaced hitems rfl

end Listed

end BeagleCache.ConnectionBase
