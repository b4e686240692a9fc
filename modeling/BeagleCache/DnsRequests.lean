import BeagleCache.DnsCache
import BeagleCache.Transition

/-! The name resolution of the proxy: `checkDNSCacheAndConnect`, `scheduleResolve` and `handleDNSHelperRead`. A connection
whose server is not in the DNS cache waits in the list of the request for that server, of which there is one in
`dnsTranTab`; the reply of the helper takes the request out of the table and lets all its connections go on. -/

namespace BeagleCache

open Function

namespace Dns

/-- `DNSRequest`, with the string in its `server`; the helper sends its address back in the reply. -/
structure DNSRequest (κ : Type) where
  server : Bytes
  connList : List κ

/-- The name resolution. The connections are the pointers to them, the requests are at their addresses. -/
structure Resolver (κ : Type) where
  cache : DNSCache
  requests : Nat → DNSRequest κ
  /-- The requests in the table, whose keys are the strings in them. -/
  dnsTranTab : List Nat
  /-- What the helpers have not answered yet. -/
  asked : List Nat
  /-- The calls of `connectServerLazy`, with the `dnsInfo` of the connection. -/
  connected : List (κ × DNSRep)
  /-- The calls of `delConnectionLazy`. -/
  deleted : List κ
  /-- Of the history: what was given to `scheduleResolve`, with its server. -/
  queued : List (κ × Bytes)
  /-- Of the history: the servers the cache was used for, and the last reply it got for a server. -/
  uses : List Bytes
  stored : Bytes → Option DNSRep

variable {κ : Type} [DecidableEq κ]

/-- `hfind` in `dnsTranTab`. -/
def findRequest (s : Resolver κ) (server : Bytes) : Option Nat :=
  s.dnsTranTab.find? fun addr => (s.requests addr).server = server

/-- `scheduleResolve` of the connection `ci`; `addr` is the address `malloc` gives a new request. -/
def scheduleResolve (s : Resolver κ) (ci : κ) (server : Bytes) (addr : Nat) : Run (Resolver κ) :=
  match findRequest s server with
  | some found =>
      .ok { s with
        requests := update s.requests found
          { s.requests found with connList := ci :: (s.requests found).connList }
        queued := s.queued ++ [(ci, server)] }
  | none => do
      inBounds (server.length + 1 ≤ serverSize)
      return { s with
        requests := update s.requests addr ⟨server, [ci]⟩
        dnsTranTab := addr :: s.dnsTranTab
        asked := s.asked ++ [addr]
        queued := s.queued ++ [(ci, server)] }

variable (lookup : Bytes → BitVec 32)

/-- `checkDNSCacheAndConnect`: its answer and the state. -/
def checkDNSCacheAndConnect (s : Resolver κ) (ci : κ) (server : Bytes) (addr : Nat) : Run (Int × Resolver κ) :=
  match getDNSInfo lookup s.cache server with
  | some rep =>
      match updateDNSUsage lookup s.cache server with
      | none => .ok (-1, s)
      | some cache =>
          .ok (0, { s with cache := cache, connected := s.connected ++ [(ci, rep)], uses := s.uses ++ [server] })
  | none => do
      let s ← scheduleResolve s ci server addr
      return (0, s)

/-- `handleDNSHelperRead` of the reply `rep`: its answer and the state. -/
def handleDNSHelperRead (s : Resolver κ) (rep : DNSRep) : Run (Int × Resolver κ) :=
  let request := s.requests rep.entry
  let s := { s with asked := s.asked.erase rep.entry }
  match findRequest s request.server with
  | none => .ok (-1, s)
  | some found => do
      let s := { s with dnsTranTab := s.dnsTranTab.erase found }
      if rep.status = 1 then do
        let updated ← updateDNSCache lookup s.cache request.server rep
        match updated with
        | none => return (-1, s)
        | some cache =>
            return (0, { s with
              cache := cache
              connected := s.connected ++ request.connList.map fun ci => (ci, rep)
              uses := s.uses ++ [request.server]
              stored := update s.stored request.server (some rep) })
      else return (0, { s with deleted := s.deleted ++ request.connList })

/-- What happens to the name resolution. -/
inductive Event (κ : Type)
  /-- `checkDNSCacheAndConnect` is called for a new connection. -/
  | connect (ci : κ) (server : Bytes) (addr : Nat)
  /-- A helper answers. -/
  | reply (rep : DNSRep)

/-- A connection comes once, `malloc` gives memory that is not in use, and a helper answers what it was asked. -/
def Enabled (s : Resolver κ) : Event κ → Prop
  | .connect ci _ addr => ci ∉ s.queued.map Prod.fst ∧ ci ∉ s.connected.map Prod.fst ∧ addr ∉ s.dnsTranTab
  | .reply rep => rep.entry ∈ s.asked

def next (s : Resolver κ) : Event κ → Run (Int × Resolver κ)
  | .connect ci server addr => checkDNSCacheAndConnect lookup s ci server addr
  | .reply rep => handleDNSHelperRead lookup s rep

/-- The name resolution when the proxy starts. -/
def start (memory : Nat → DNSRep) (requests : Nat → DNSRequest κ) : Resolver κ :=
  ⟨initDNSCache memory, requests, [], [], [], [], [], [], fun _ => none⟩

/-- The name resolution over time. -/
def resolution (memory : Nat → DNSRep) (requests : Nat → DNSRequest κ) : Transition.System (Resolver κ) (Event κ) where
  init s := s = start memory requests
  step s e s' := Enabled s e ∧ ∃ answer, next lookup s e = .ok (answer, s')

/-! ## What is kept -/

/-- The connections that wait for a reply. -/
def pending (s : Resolver κ) : List κ := s.dnsTranTab.flatMap fun addr => (s.requests addr).connList

/-- No connection is lost, and the cache is in order. -/
structure Sound (s : Resolver κ) : Prop where
  linked : Linked lookup s.cache
  /-- The cache has the servers that were used last, in the order of their last uses. -/
  recent : servers s.cache <:+ s.uses.dedup
  /-- It answers with the last reply for the server. -/
  last : ∀ key ∈ servers s.cache, getDNSInfo lookup s.cache key = s.stored key
  short : ∀ key ∈ servers s.cache, key.length < serverSize
  /-- Each request in the table is with the helpers once, and there is one request for a server at most. -/
  asked : s.asked.Perm s.dnsTranTab
  single : (s.dnsTranTab.map fun addr => (s.requests addr).server).Nodup
  /-- Nothing that is in the cache is asked for. -/
  absent : ∀ addr ∈ s.dnsTranTab, (s.requests addr).server ∉ servers s.cache
  fits : ∀ addr ∈ s.dnsTranTab, (s.requests addr).server.length < serverSize
  /-- What waits in a request was queued for its server. -/
  waits : ∀ addr ∈ s.dnsTranTab, ∀ ci ∈ (s.requests addr).connList, (ci, (s.requests addr).server) ∈ s.queued
  /-- A connection that was queued waits in one request, or was connected once, or was deleted once. -/
  once : ∀ ci ∈ s.queued.map Prod.fst,
    (pending s).count ci + (s.connected.map Prod.fst).count ci + s.deleted.count ci = 1
  distinct : (s.queued.map Prod.fst).Nodup
  gone : ∀ ci ∈ s.deleted, ci ∈ s.queued.map Prod.fst

/-- What an event does. A new connection is connected with what the cache has, or it waits for the reply for its server
and the others wait on; the reply for a request lets its connections go on, and no others. -/
def Moves (s s' : Resolver κ) : Event κ → Prop
  | .connect ci server _ =>
      (server ∈ servers s.cache ∧ ∃ rep, s.stored server = some rep ∧ s'.connected = s.connected ++ [(ci, rep)] ∧
        s'.deleted = s.deleted ∧ s'.queued = s.queued ∧ s'.dnsTranTab = s.dnsTranTab ∧ s'.requests = s.requests) ∨
      (server ∉ servers s.cache ∧ s'.connected = s.connected ∧ s'.deleted = s.deleted ∧ s'.queued = s.queued ++ [(ci, server)] ∧
        s'.cache = s.cache ∧
        (∃ addr ∈ s'.dnsTranTab, (s'.requests addr).server = server ∧ ci ∈ (s'.requests addr).connList) ∧
        ∀ addr ∈ s.dnsTranTab, addr ∈ s'.dnsTranTab ∧ (s'.requests addr).server = (s.requests addr).server ∧
          ∀ other ∈ (s.requests addr).connList, other ∈ (s'.requests addr).connList)
  | .reply rep =>
      rep.entry ∈ s.dnsTranTab ∧ s'.dnsTranTab = s.dnsTranTab.erase rep.entry ∧ s'.requests = s.requests ∧
        s'.queued = s.queued ∧
      ((rep.status = 1 ∧ s'.connected = s.connected ++ (s.requests rep.entry).connList.map (fun ci => (ci, rep)) ∧
          s'.deleted = s.deleted ∧ (s.requests rep.entry).server ∉ servers s.cache ∧
          getDNSInfo lookup s'.cache (s.requests rep.entry).server = some rep ∧
          (servers s'.cache = servers s.cache ++ [(s.requests rep.entry).server] ∨
            -- the evicted server was used before all that stay
            ∃ evicted held before after, servers s.cache = evicted :: held ∧
              servers s'.cache = held ++ [(s.requests rep.entry).server] ∧ s.uses = before ++ evicted :: after ∧
              evicted ∉ after ∧ ∀ key ∈ held, key ∈ after)) ∨
        (rep.status ≠ 1 ∧ s'.connected = s.connected ∧ s'.deleted = s.deleted ++ (s.requests rep.entry).connList ∧
          s'.cache = s.cache))

/-- An event is handled: the answer is zero, and all is well afterwards. -/
def Handled (s : Resolver κ) (e : Event κ) : Prop :=
  ∃ s', next lookup s e = .ok (0, s') ∧ Sound lookup s' ∧ Moves lookup s s' e

/-- The server fits into `server[ 100 ]`, and one that is to be stored does not begin with the byte that marks an
entry without a server. -/
def Allowed (s : Resolver κ) : Event κ → Prop
  | .connect _ server _ => server.length < serverSize
  | .reply rep => rep.status = 1 → (s.requests rep.entry).server.head? ≠ some noServer

variable {lookup} {s : Resolver κ}

theorem sound_start (memory : Nat → DNSRep) (requests : Nat → DNSRequest κ) : Sound lookup (start memory requests) where
  linked := linked_init lookup memory
  recent := by
    rw [start, servers_init]
    exact List.nil_suffix
  last key h := by
    rw [start, servers_init] at h
    exact (List.not_mem_nil h).elim
  short key h := by
    rw [start, servers_init] at h
    exact (List.not_mem_nil h).elim
  asked := List.Perm.refl []
  single := List.nodup_nil
  absent _ h := (List.not_mem_nil h).elim
  fits _ h := (List.not_mem_nil h).elim
  waits _ h := (List.not_mem_nil h).elim
  once _ h := (List.not_mem_nil h).elim
  distinct := List.nodup_nil
  gone _ h := (List.not_mem_nil h).elim

omit [DecidableEq κ] in
theorem findRequest_none_iff {server : Bytes} :
    findRequest s server = none ↔ ∀ addr ∈ s.dnsTranTab, (s.requests addr).server ≠ server := by
  rw [findRequest, List.find?_eq_none]
  simp

omit [DecidableEq κ] in
theorem findRequest_some {server : Bytes} {addr : Nat} (h : findRequest s server = some addr) :
    addr ∈ s.dnsTranTab ∧ (s.requests addr).server = server :=
  ⟨List.mem_of_find?_eq_some h, by simpa using List.find?_some h⟩

theorem Sound.findRequest_eq (h : Sound lookup s) {addr : Nat} (haddr : addr ∈ s.dnsTranTab) :
    findRequest s (s.requests addr).server = some addr := by
  cases hfound : findRequest s (s.requests addr).server with
  | none => exact (findRequest_none_iff.mp hfound addr haddr rfl).elim
  | some found =>
      obtain ⟨hin, hserver⟩ := findRequest_some hfound
      rw [List.inj_on_of_nodup_map h.single hin haddr hserver]

theorem Sound.tab (h : Sound lookup s) : s.dnsTranTab.Nodup := h.single.of_map _

omit [DecidableEq κ] in
theorem pending_perm {addr : Nat} (haddr : addr ∈ s.dnsTranTab) :
    (pending s).Perm ((s.requests addr).connList ++ (s.dnsTranTab.erase addr).flatMap fun a => (s.requests a).connList) :=
  (List.perm_cons_erase haddr).flatMap_right _

omit [DecidableEq κ] in
theorem mem_pending {ci : κ} : ci ∈ pending s ↔ ∃ addr ∈ s.dnsTranTab, ci ∈ (s.requests addr).connList := List.mem_flatMap

theorem Sound.queued_of_pending (h : Sound lookup s) {ci : κ} (hci : ci ∈ pending s) : ci ∈ s.queued.map Prod.fst := by
  obtain ⟨addr, haddr, hmem⟩ := mem_pending.mp hci
  exact List.mem_map_of_mem (h.waits addr haddr ci hmem)

/-! ## A new connection -/

/-- What the counts of a queued connection do not see of a new one. -/
theorem count_connected_new {ci other : κ} {rep : DNSRep} (hne : other ≠ ci) :
    ((s.connected ++ [(ci, rep)]).map Prod.fst).count other = (s.connected.map Prod.fst).count other := by
  rw [List.map_append, List.count_append, List.map_cons, List.map_nil, List.count_singleton, if_neg (by simpa using Ne.symm hne)]
  rfl

theorem Sound.connect_hit (h : Sound lookup s) {ci : κ} {server : Bytes} {addr : Nat} (hnew : ci ∉ s.queued.map Prod.fst)
    (hserver : server ∈ servers s.cache) : Handled lookup s (.connect ci server addr) := by
  obtain ⟨c, hupdate, hlinked, hservers, hinfo⟩ := h.linked.updateDNSUsage_spec hserver
  have hmem : ∀ key, key ∈ servers c ↔ key ∈ servers s.cache := by
    intro key
    rw [hservers]
    exact ((List.perm_append_singleton server _).trans (List.perm_cons_erase hserver).symm).mem_iff
  cases hrep : getDNSInfo lookup s.cache server with
  | none => exact (h.linked.getDNSInfo_none_iff.mp hrep hserver).elim
  | some rep =>
      refine ⟨{ s with cache := c, connected := s.connected ++ [(ci, rep)], uses := s.uses ++ [server] }, ?_, ?_, ?_⟩
      · rw [next, checkDNSCacheAndConnect, hrep]
        simp only
        rw [hupdate]
      · refine ⟨hlinked, ?_, ?_, ?_, h.asked, h.single, ?_, h.fits, h.waits, ?_, h.distinct, h.gone⟩
        · simp only
          rw [hservers]
          exact Recency.suffix_use h.recent hserver
        · intro key hkey
          exact (hinfo key).trans (h.last key ((hmem key).mp hkey))
        · intro key hkey
          exact h.short key ((hmem key).mp hkey)
        · intro addr haddr hkey
          exact h.absent addr haddr ((hmem _).mp hkey)
        · intro other hother
          have hne : other ≠ ci := fun heq => hnew (heq ▸ hother)
          simp only
          rw [count_connected_new hne]
          exact h.once other hother
      · exact .inl ⟨hserver, rep, (h.last server hserver).symm.trans hrep, rfl, rfl, rfl, rfl, rfl⟩

theorem Sound.count_new (h : Sound lookup s) {ci : κ} (hnew : ci ∉ s.queued.map Prod.fst) :
    (pending s).count ci = 0 ∧ s.deleted.count ci = 0 :=
  ⟨List.count_eq_zero_of_not_mem fun hci => hnew (h.queued_of_pending hci),
    List.count_eq_zero_of_not_mem fun hci => hnew (h.gone ci hci)⟩

theorem queued_distinct (h : Sound lookup s) {ci : κ} (hnew : ci ∉ s.queued.map Prod.fst) (server : Bytes) :
    ((s.queued ++ [(ci, server)]).map Prod.fst).Nodup := by
  rw [List.map_append, List.nodup_append]
  refine ⟨h.distinct, List.nodup_singleton ci, ?_⟩
  rintro other hother _ hmem rfl
  have heq : other = ci := by simpa using hmem
  exact hnew (heq ▸ hother)

theorem Sound.once_queued (h : Sound lookup s) {ci : κ} (server : Bytes) (hnew : ci ∉ s.queued.map Prod.fst)
    (hnotyet : ci ∉ s.connected.map Prod.fst) {now : List κ}
    (hnow : ∀ other, now.count other = (pending s).count other + if other = ci then 1 else 0) :
    ∀ other ∈ (s.queued ++ [(ci, server)]).map Prod.fst,
      now.count other + (s.connected.map Prod.fst).count other + s.deleted.count other = 1 := by
  intro other hother
  rw [List.map_append, List.mem_append, List.map_cons, List.map_nil, List.mem_singleton] at hother
  rw [hnow other]
  obtain hold | rfl := hother
  · have hne : other ≠ ci := fun heq => hnew (heq ▸ hold)
    rw [if_neg hne, Nat.add_zero]
    exact h.once other hold
  · obtain ⟨hpending, hdeleted⟩ := h.count_new hnew
    rw [hpending, hdeleted, List.count_eq_zero_of_not_mem hnotyet, if_pos rfl]

theorem checkDNSCacheAndConnect_miss {ci : κ} {server : Bytes} {addr : Nat} (h : Sound lookup s)
    (hserver : server ∉ servers s.cache) : checkDNSCacheAndConnect lookup s ci server addr =
      scheduleResolve s ci server addr >>= fun s' => .ok (0, s') := by
  rw [checkDNSCacheAndConnect, h.linked.getDNSInfo_none_iff.mpr hserver]
  rfl

theorem count_cons_eq (l : List κ) (ci other : κ) : (ci :: l).count other = l.count other + if other = ci then 1 else 0 := by
  rw [List.count_cons]
  congr 1
  by_cases hother : other = ci
  · rw [if_pos hother, if_pos (by simp [hother])]
  · rw [if_neg hother, if_neg (by simpa using Ne.symm hother)]

/-- What a connection that is queued leaves in order, in a request that was there or in a new one. -/
theorem Sound.queue (h : Sound lookup s) {ci : κ} {server : Bytes} {s' : Resolver κ} (hnew : ci ∉ s.queued.map Prod.fst)
    (hnotyet : ci ∉ s.connected.map Prod.fst) (hcache : s'.cache = s.cache ∧ s'.uses = s.uses ∧ s'.stored = s.stored)
    (hconnected : s'.connected = s.connected) (hdeleted : s'.deleted = s.deleted) (hqueued : s'.queued = s.queued ++ [(ci, server)])
    (hasked : s'.asked.Perm s'.dnsTranTab) (hsingle : (s'.dnsTranTab.map fun addr => (s'.requests addr).server).Nodup)
    (hservers : ∀ a ∈ s'.dnsTranTab, (s'.requests a).server ∉ servers s.cache ∧ (s'.requests a).server.length < serverSize)
    (hwaits : ∀ a ∈ s'.dnsTranTab, ∀ other ∈ (s'.requests a).connList,
      (other, (s'.requests a).server) ∈ s.queued ∨ (other, (s'.requests a).server) = (ci, server))
    (hcount : ∀ other, (pending s').count other = (pending s).count other + if other = ci then 1 else 0) : Sound lookup s' where
  linked := hcache.1 ▸ h.linked
  recent := by
    rw [hcache.1, hcache.2.1]
    exact h.recent
  last := by
    rw [hcache.1, hcache.2.2]
    exact h.last
  short := hcache.1 ▸ h.short
  asked := hasked
  single := hsingle
  absent a ha := by
    rw [hcache.1]
    exact (hservers a ha).1
  fits a ha := (hservers a ha).2
  waits a ha other hother := by
    rw [hqueued, List.mem_append, List.mem_singleton]
    exact hwaits a ha other hother
  once other hother := by
    rw [hqueued] at hother
    rw [hconnected, hdeleted]
    exact h.once_queued server hnew hnotyet hcount other hother
  distinct := by
    rw [hqueued]
    exact queued_distinct h hnew server
  gone other hother := by
    rw [hdeleted] at hother
    rw [hqueued, List.map_append]
    exact List.mem_append_left _ (h.gone other hother)

theorem Sound.connect_join (h : Sound lookup s) {ci : κ} {server : Bytes} {addr found : Nat}
    (hnew : ci ∉ s.queued.map Prod.fst) (hnotyet : ci ∉ s.connected.map Prod.fst) (hserver : server ∉ servers s.cache)
    (hfound : findRequest s server = some found) : Handled lookup s (.connect ci server addr) := by
  obtain ⟨hin, rfl⟩ := findRequest_some hfound
  obtain ⟨joined, hjoined⟩ : ∃ joined, joined = { s with
    requests := update s.requests found { s.requests found with connList := ci :: (s.requests found).connList }
    queued := s.queued ++ [(ci, (s.requests found).server)] } := ⟨_, rfl⟩
  have hkeep : ∀ a, (joined.requests a).server = (s.requests a).server := by
    intro a
    rw [hjoined]
    by_cases ha : a = found
    · simp only [ha, update_self]
    · simp only [update_of_ne ha]
  have hlist : ∀ a, (joined.requests a).connList =
      if a = found then ci :: (s.requests found).connList else (s.requests a).connList := by
    intro a
    rw [hjoined]
    by_cases ha : a = found
    · simp only [ha, update_self, if_true]
    · simp only [update_of_ne ha, if_neg ha]
  have htab : joined.dnsTranTab = s.dnsTranTab := by rw [hjoined]
  have hqueued : joined.queued = s.queued ++ [(ci, (s.requests found).server)] := by rw [hjoined]
  have hcount : ∀ other, (pending joined).count other = (pending s).count other + if other = ci then 1 else 0 := by
    intro other
    have hrest : ((s.dnsTranTab.erase found).flatMap fun a => (joined.requests a).connList) =
        (s.dnsTranTab.erase found).flatMap fun a => (s.requests a).connList := by
      apply List.flatMap_congr
      intro a ha
      have hne : a ≠ found := ((h.tab.mem_erase_iff).mp ha).1
      rw [hlist a, if_neg hne]
    rw [(pending_perm (htab ▸ hin)).count_eq, (pending_perm hin).count_eq, htab, hrest, hlist found, if_pos rfl,
      List.cons_append, count_cons_eq]
  refine ⟨joined, ?_, ?_, ?_⟩
  · rw [next, checkDNSCacheAndConnect_miss h hserver, scheduleResolve, hfound, hjoined]
    rfl
  · have hsingle : (joined.dnsTranTab.map fun a => (joined.requests a).server).Nodup := by
      simp only [hkeep, htab]
      exact h.single
    have hcache : joined.cache = s.cache ∧ joined.uses = s.uses ∧ joined.stored = s.stored := by
      rw [hjoined]
      exact ⟨rfl, rfl, rfl⟩
    have hasked : joined.asked.Perm joined.dnsTranTab := by
      rw [hjoined]
      exact h.asked
    refine h.queue hnew hnotyet hcache (by rw [hjoined]) (by rw [hjoined]) hqueued hasked hsingle ?_ ?_ hcount
    · intro a ha
      rw [hkeep a]
      exact ⟨h.absent a (htab ▸ ha), h.fits a (htab ▸ ha)⟩
    · intro a ha other hother
      rw [hkeep a]
      rw [hlist a] at hother
      by_cases hne : a = found
      · subst hne
        rw [if_pos rfl] at hother
        obtain rfl | hother := List.mem_cons.mp hother
        · exact .inr rfl
        · exact .inl (h.waits a hin other hother)
      · rw [if_neg hne] at hother
        exact .inl (h.waits a (htab ▸ ha) other hother)
  · refine .inr ⟨hserver, by rw [hjoined], by rw [hjoined], hqueued, by rw [hjoined], ?_, ?_⟩
    · refine ⟨found, htab ▸ hin, hkeep found, ?_⟩
      rw [hlist found, if_pos rfl]
      exact List.mem_cons_self
    · intro a ha
      refine ⟨htab ▸ ha, hkeep a, ?_⟩
      intro other hother
      rw [hlist a]
      by_cases hne : a = found
      · rw [if_pos hne]
        exact List.mem_cons_of_mem ci (hne ▸ hother)
      · rwa [if_neg hne]

theorem Sound.connect_new (h : Sound lookup s) {ci : κ} {server : Bytes} {addr : Nat} (hnew : ci ∉ s.queued.map Prod.fst)
    (hnotyet : ci ∉ s.connected.map Prod.fst) (haddr : addr ∉ s.dnsTranTab) (hserver : server ∉ servers s.cache)
    (hfits : server.length < serverSize) (hfound : findRequest s server = none) :
    Handled lookup s (.connect ci server addr) := by
  obtain ⟨asked, hasked⟩ : ∃ asked : Resolver κ, asked = { s with
    requests := update s.requests addr ⟨server, [ci]⟩
    dnsTranTab := addr :: s.dnsTranTab
    asked := s.asked ++ [addr]
    queued := s.queued ++ [(ci, server)] } := ⟨_, rfl⟩
  have hold : ∀ a ∈ s.dnsTranTab, asked.requests a = s.requests a := by
    intro a ha
    have hne : a ≠ addr := fun heq => haddr (heq ▸ ha)
    rw [hasked]
    exact update_of_ne hne ..
  have hself : asked.requests addr = ⟨server, [ci]⟩ := by
    rw [hasked]
    exact update_self ..
  have htab : asked.dnsTranTab = addr :: s.dnsTranTab := by rw [hasked]
  have hqueued : asked.queued = s.queued ++ [(ci, server)] := by rw [hasked]
  have hpending : pending asked = ci :: pending s := by
    rw [pending, htab, List.flatMap_cons, hself, pending]
    refine congrArg (fun l => ci :: l) (List.flatMap_congr ?_)
    intro a ha
    rw [hold a ha]
  have hcount : ∀ other, (pending asked).count other = (pending s).count other + if other = ci then 1 else 0 := by
    intro other
    rw [hpending, count_cons_eq]
  refine ⟨asked, ?_, ?_, ?_⟩
  · rw [next, checkDNSCacheAndConnect_miss h hserver, scheduleResolve, hfound]
    simp only
    rw [inBounds_of (by omega), hasked]
    rfl
  · have hservers : (asked.dnsTranTab.map fun a => (asked.requests a).server) =
        server :: s.dnsTranTab.map fun a => (s.requests a).server := by
      rw [htab, List.map_cons, hself]
      refine congrArg (fun l => server :: l) (List.map_congr_left ?_)
      intro a ha
      rw [hold a ha]
    have hsingle : (asked.dnsTranTab.map fun a => (asked.requests a).server).Nodup := by
      rw [hservers, List.nodup_cons]
      refine ⟨?_, h.single⟩
      intro hmem
      obtain ⟨a, ha, heq⟩ := List.mem_map.mp hmem
      exact findRequest_none_iff.mp hfound a ha heq
    have hcache : asked.cache = s.cache ∧ asked.uses = s.uses ∧ asked.stored = s.stored := by
      rw [hasked]
      exact ⟨rfl, rfl, rfl⟩
    have hperm : asked.asked.Perm asked.dnsTranTab := by
      rw [hasked]
      exact (List.perm_append_singleton addr s.asked).trans (h.asked.cons addr)
    refine h.queue hnew hnotyet hcache (by rw [hasked]) (by rw [hasked]) hqueued hperm hsingle ?_ ?_ hcount
    · intro a ha
      rw [htab, List.mem_cons] at ha
      obtain rfl | ha := ha
      · rw [hself]
        exact ⟨hserver, hfits⟩
      · rw [hold a ha]
        exact ⟨h.absent a ha, h.fits a ha⟩
    · intro a ha other hother
      rw [htab, List.mem_cons] at ha
      obtain rfl | ha := ha
      · rw [hself] at hother ⊢
        rw [List.mem_singleton.mp hother]
        exact .inr rfl
      · rw [hold a ha] at hother ⊢
        exact .inl (h.waits a ha other hother)
  · refine .inr ⟨hserver, by rw [hasked], by rw [hasked], hqueued, by rw [hasked], ?_, ?_⟩
    · refine ⟨addr, htab ▸ List.mem_cons_self, ?_, ?_⟩
      · rw [hself]
      · rw [hself]
        exact List.mem_cons_self
    · intro a ha
      refine ⟨htab ▸ List.mem_cons_of_mem addr ha, ?_, ?_⟩
      · rw [hold a ha]
      · intro other hother
        rwa [hold a ha]

/-! ## A reply -/

/-- The state in which the request of a reply has left the table. -/
def answered (s : Resolver κ) (addr : Nat) : Resolver κ :=
  { s with asked := s.asked.erase addr, dnsTranTab := s.dnsTranTab.erase addr }

section Reply

variable {addr : Nat}

theorem count_pending_answered (haddr : addr ∈ s.dnsTranTab) (ci : κ) :
    (pending s).count ci = (s.requests addr).connList.count ci + (pending (answered s addr)).count ci := by
  rw [(pending_perm haddr).count_eq, List.count_append]
  rfl

/-- What a reply leaves in order, whatever it says. -/
theorem Sound.answer (h : Sound lookup s) (haddr : addr ∈ s.dnsTranTab) {s' : Resolver κ} (hasked : s'.asked = s.asked.erase addr)
    (htab : s'.dnsTranTab = s.dnsTranTab.erase addr) (hrequests : s'.requests = s.requests) (hqueued : s'.queued = s.queued)
    (hlinked : Linked lookup s'.cache) (hrecent : servers s'.cache <:+ s'.uses.dedup)
    (hlast : ∀ key ∈ servers s'.cache, getDNSInfo lookup s'.cache key = s'.stored key)
    (hservers : ∀ key ∈ servers s'.cache, key ∈ servers s.cache ∨ key = (s.requests addr).server)
    (hmoved : ∀ ci, (s'.connected.map Prod.fst).count ci + s'.deleted.count ci =
      (s.connected.map Prod.fst).count ci + s.deleted.count ci + (s.requests addr).connList.count ci)
    (hgone : ∀ ci ∈ s'.deleted, ci ∈ s.deleted ∨ ci ∈ (s.requests addr).connList) : Sound lookup s' where
  linked := hlinked
  recent := hrecent
  last := hlast
  short key hkey := by
    obtain hold | rfl := hservers key hkey
    · exact h.short key hold
    · exact h.fits addr haddr
  asked := by
    rw [hasked, htab]
    exact h.asked.erase addr
  single := by
    rw [htab, hrequests]
    exact h.single.sublist ((List.erase_sublist ..).map _)
  absent a ha := by
    rw [htab, h.tab.mem_erase_iff] at ha
    rw [hrequests]
    intro hkey
    obtain hold | heq := hservers _ hkey
    · exact h.absent a ha.2 hold
    · exact ha.1 (List.inj_on_of_nodup_map h.single ha.2 haddr heq)
  fits a ha := by
    rw [htab, h.tab.mem_erase_iff] at ha
    rw [hrequests]
    exact h.fits a ha.2
  waits a ha := by
    rw [htab, h.tab.mem_erase_iff] at ha
    rw [hrequests, hqueued]
    exact h.waits a ha.2
  once ci hci := by
    have hsplit := count_pending_answered haddr ci
    have hpending : pending s' = pending (answered s addr) := by
      rw [pending, htab, hrequests]
      rfl
    have hbefore := h.once ci (hqueued ▸ hci)
    have hafter := hmoved ci
    rw [hpending]
    omega
  distinct := hqueued ▸ h.distinct
  gone ci hci := by
    rw [hqueued]
    obtain hold | hmem := hgone ci hci
    · exact h.gone ci hold
    · exact List.mem_map_of_mem (h.waits addr haddr ci hmem)

theorem Sound.findRequest_answered (h : Sound lookup s) (haddr : addr ∈ s.dnsTranTab) :
    findRequest { s with asked := s.asked.erase addr } (s.requests addr).server = some addr := h.findRequest_eq haddr

theorem Sound.reply_negative (h : Sound lookup s) {rep : DNSRep} (hin : rep.entry ∈ s.dnsTranTab) (hstatus : rep.status ≠ 1) :
    Handled lookup s (.reply rep) := by
  refine ⟨{ answered s rep.entry with deleted := s.deleted ++ (s.requests rep.entry).connList }, ?_, ?_, ?_⟩
  · rw [next, handleDNSHelperRead]
    simp only
    rw [h.findRequest_answered hin]
    simp only
    rw [if_neg hstatus]
    rfl
  · refine h.answer hin rfl rfl rfl rfl h.linked h.recent h.last (fun key hkey => .inl hkey) ?_ ?_
    · intro ci
      simp only [List.count_append]
      rw [Nat.add_assoc]
      rfl
    · intro ci hci
      exact List.mem_append.mp hci
  · exact ⟨hin, rfl, rfl, rfl, .inr ⟨hstatus, rfl, rfl, rfl⟩⟩

theorem Sound.reply_positive (h : Sound lookup s) {rep : DNSRep} (hin : rep.entry ∈ s.dnsTranTab) (hstatus : rep.status = 1)
    (hfirst : (s.requests rep.entry).server.head? ≠ some noServer) : Handled lookup s (.reply rep) := by
  have habsent := h.absent rep.entry hin
  obtain ⟨c, hupdate, hlinked, hservers, hself, hothers⟩ :=
    h.linked.updateDNSCache_spec (h.fits rep.entry hin) hfirst habsent rep
  have hmem : ∀ key ∈ servers c, key ∈ servers s.cache ∨ key = (s.requests rep.entry).server := by
    intro key hkey
    obtain hall | ⟨evicted, held, hold, hnow⟩ := hservers
    · rw [hall, List.mem_append, List.mem_singleton] at hkey
      exact hkey
    · rw [hnow, List.mem_append, List.mem_singleton] at hkey
      rw [hold]
      exact hkey.imp_left (List.mem_cons_of_mem evicted)
  refine ⟨{ answered s rep.entry with
    cache := c
    connected := s.connected ++ (s.requests rep.entry).connList.map fun ci => (ci, rep)
    uses := s.uses ++ [(s.requests rep.entry).server]
    stored := update s.stored (s.requests rep.entry).server (some rep) }, ?_, ?_, ?_⟩
  · rw [next, handleDNSHelperRead]
    simp only
    rw [h.findRequest_answered hin]
    simp only
    rw [if_pos hstatus, hupdate]
    rfl
  · refine h.answer hin rfl rfl rfl rfl hlinked ?_ ?_ hmem ?_ (fun ci hci => .inl hci)
    · obtain hall | ⟨evicted, held, hold, hnow⟩ := hservers
      · simp only
        rw [hall]
        exact Recency.suffix_store h.recent habsent
      · have hheld : held <:+ s.uses.dedup := (List.suffix_cons evicted held).trans (hold ▸ h.recent)
        have hnew : (s.requests rep.entry).server ∉ held := fun hkey =>
          habsent (hold ▸ List.mem_cons_of_mem evicted hkey)
        simp only
        rw [hnow]
        exact Recency.suffix_store hheld hnew
    · intro key hkey
      by_cases hkeyserver : key = (s.requests rep.entry).server
      · simp only
        rw [hkeyserver, hself, update_self]
      · simp only
        rw [hothers key hkey hkeyserver, update_of_ne hkeyserver]
        exact h.last key ((hmem key hkey).resolve_right hkeyserver)
    · intro ci
      have hfst : ((s.connected ++ (s.requests rep.entry).connList.map fun ci => (ci, rep)).map Prod.fst) =
          s.connected.map Prod.fst ++ (s.requests rep.entry).connList := by
        rw [List.map_append, List.map_map]
        refine congrArg (fun l => s.connected.map Prod.fst ++ l) ?_
        exact List.map_id _
      simp only [hfst, List.count_append]
      exact Nat.add_right_comm ..
  · refine ⟨hin, rfl, rfl, rfl, .inl ⟨hstatus, rfl, rfl, habsent, hself, ?_⟩⟩
    obtain hall | ⟨evicted, held, hold, hnow⟩ := hservers
    · exact .inl hall
    · obtain ⟨before, after, huses, hafter, hheld⟩ := Recency.least_recent (hold ▸ h.recent)
      exact .inr ⟨evicted, held, before, after, hold, hnow, huses, hafter, hheld⟩

end Reply

/-! ## Every event -/

theorem Sound.handled (h : Sound lookup s) {e : Event κ} (he : Enabled s e) (hallowed : Allowed s e) : Handled lookup s e := by
  cases e with
  | connect ci server addr =>
      obtain ⟨hnew, hnotyet, haddr⟩ := he
      by_cases hserver : server ∈ servers s.cache
      · exact h.connect_hit hnew hserver
      · cases hfound : findRequest s server with
        | none => exact h.connect_new hnew hnotyet haddr hserver hallowed hfound
        | some found => exact h.connect_join hnew hnotyet hserver hfound
  | reply rep =>
      have hin : rep.entry ∈ s.dnsTranTab := h.asked.mem_iff.mp he
      by_cases hstatus : rep.status = 1
      · exact h.reply_positive hin hstatus (hallowed hstatus)
      · exact h.reply_negative hin hstatus

/-- An event that does not meet the condition is not handled: the string runs over the end of the request, or the table
has an item that no entry stands for. -/
theorem Sound.not_handled (h : Sound lookup s) {e : Event κ} (he : Enabled s e) (hallowed : ¬ Allowed s e) :
    ¬ Handled lookup s e := by
  rintro ⟨s', hnext, hsound, -⟩
  cases e with
  | connect ci server addr =>
      have hlong : ¬ server.length + 1 ≤ serverSize := fun hfits => hallowed (Nat.lt_of_succ_le hfits)
      have hserver : server ∉ servers s.cache := fun hmem => hallowed (h.short server hmem)
      have hfound : findRequest s server = none := by
        rw [findRequest_none_iff]
        rintro a ha rfl
        exact hallowed (h.fits a ha)
      rw [next, checkDNSCacheAndConnect_miss h hserver, scheduleResolve, hfound] at hnext
      simp only [inBounds, if_neg hlong] at hnext
      cases hnext
  | reply rep =>
      have hin : rep.entry ∈ s.dnsTranTab := h.asked.mem_iff.mp he
      obtain ⟨hstatus, hfirst⟩ := Classical.not_imp.mp hallowed
      rw [not_not] at hfirst
      rw [next, handleDNSHelperRead] at hnext
      simp only at hnext
      rw [h.findRequest_answered hin] at hnext
      simp only at hnext
      rw [if_pos hstatus] at hnext
      obtain ⟨updated, hupdate, hnext⟩ := Run.bind_eq_ok.mp hnext
      cases updated with
      | none => cases hnext
      | some c =>
          cases hnext
          exact h.linked.updateDNSCache_unlinked (h.fits rep.entry hin) hfirst (h.absent rep.entry hin) hupdate hsound.linked

theorem Sound.handled_iff (h : Sound lookup s) {e : Event κ} (he : Enabled s e) : Handled lookup s e ↔ Allowed s e :=
  ⟨fun hhandled => by_contra fun hallowed => h.not_handled he hallowed hhandled, h.handled he⟩

theorem sound_invariant (lookup : Bytes → BitVec 32) (memory : Nat → DNSRep) (requests : Nat → DNSRequest κ) :
    ((resolution lookup memory requests).restrict Allowed).Invariant (Sound lookup) where
  init s hs := by
    rw [hs]
    exact sound_start memory requests
  step s e s' h hstep := by
    obtain ⟨hallowed, he, answer, hnext⟩ := hstep
    obtain ⟨s₁, hnext₁, hsound, -⟩ := h.handled he hallowed
    rw [hnext] at hnext₁
    cases hnext₁
    exact hsound

/-- In every run whose events meet the condition no connection is lost and the cache is in order, and an event that can
come next is handled exactly when it meets the condition as well. -/
theorem resolution_sound_iff (lookup : Bytes → BitVec 32) (memory : Nat → DNSRep) (requests : Nat → DNSRequest κ)
    {events : List (Event κ)} {s : Resolver κ}
    (hrun : ((resolution lookup memory requests).restrict Allowed).Runs events s) :
    Sound lookup s ∧ ∀ e, Enabled s e → (Handled lookup s e ↔ Allowed s e) := by
  have hsound := (sound_invariant lookup memory requests).holds hrun
  exact ⟨hsound, fun e he => hsound.handled_iff he⟩

/-- A resolver for runs on fixed input. -/
def sampleStart : Resolver Nat := start (fun _ => ⟨[], 0, 0⟩) fun _ => ⟨[], []⟩

/-- A connection waits for its server. -/
def sampleAsked : Resolver Nat :=
  { sampleStart with
    requests := update sampleStart.requests 4096 ⟨[0x77, 0x77], [7]⟩
    dnsTranTab := [4096]
    asked := [4096]
    queued := [(7, [0x77, 0x77])] }

theorem sample_runs : ((resolution (fun _ => 0) (fun _ => ⟨[], 0, 0⟩) fun _ => ⟨[], []⟩).restrict Allowed).Runs
    [Event.connect 7 [0x77, 0x77] 4096] sampleAsked := by
  have hallowed : Allowed sampleStart (.connect 7 [0x77, 0x77] 4096) := by
    rw [Allowed, serverSize]
    decide
  have henabled : Enabled sampleStart (.connect 7 [0x77, 0x77] 4096) :=
    ⟨List.not_mem_nil, List.not_mem_nil, List.not_mem_nil⟩
  have hstart : ((resolution (fun _ => 0) (fun _ => ⟨[], 0, 0⟩) fun _ => ⟨[], []⟩).restrict Allowed).Runs [] sampleStart := .start rfl
  exact hstart.step ⟨hallowed, henabled, 0, rfl⟩

theorem resolution_sound_sample : Sound (fun _ => 0) sampleAsked ∧
    ∀ e, Enabled sampleAsked e → (Handled (fun _ => 0) sampleAsked e ↔ Allowed sampleAsked e) :=
  resolution_sound_iff (fun _ => 0) (fun _ => ⟨[], 0, 0⟩) (fun _ => ⟨[], []⟩) sample_runs

/-- A server of 120 bytes runs over the list of connections of its request. -/
theorem long_server_lost : Enabled sampleStart (.connect 7 (List.replicate 120 0x61) 4096) ∧
    next (fun _ => 0) sampleStart (.connect 7 (List.replicate 120 0x61) 4096) = .error .overrun ∧
    ¬ ∀ e, Enabled sampleStart e → Handled (fun _ => 0) sampleStart e := by
  have henabled : Enabled sampleStart (.connect 7 (List.replicate 120 0x61) 4096) :=
    ⟨List.not_mem_nil, List.not_mem_nil, List.not_mem_nil⟩
  have hnext : next (fun _ => 0) sampleStart (.connect 7 (List.replicate 120 0x61) 4096) = .error .overrun := by
    have hsound : Sound (fun _ => 0) sampleStart := sound_start _ _
    have habsent : List.replicate 120 0x61 ∉ servers sampleStart.cache := by
      rw [sampleStart, start, servers_init]
      exact List.not_mem_nil
    have hfound : findRequest sampleStart (List.replicate 120 0x61) = none := rfl
    have hlong : ¬ (List.replicate 120 (0x61 : Byte)).length + 1 ≤ serverSize := by
      rw [List.length_replicate, serverSize]
      decide
    rw [next, checkDNSCacheAndConnect_miss hsound habsent, scheduleResolve, hfound]
    simp only [inBounds, if_neg hlong]
    rfl
  refine ⟨henabled, hnext, ?_⟩
  intro hall
  obtain ⟨s', hrun, -⟩ := hall _ henabled
  rw [hnext] at hrun
  cases hrun

end Dns

end BeagleCache
