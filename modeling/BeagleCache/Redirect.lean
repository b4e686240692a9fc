import BeagleCache.ListSort
import BeagleCache.Mrc
import BeagleCache.Peers

/-! `PickPeerToRedirect`, `peer.c`: a chunk belongs to the peer with the highest random weight, a hash of the name of the chunk and
the one of the peer. The live peers and their weights are put into an array, which `quickSort` orders from the highest weight to
the lowest one; the first entry is the choice. -/

namespace BeagleCache.Redirect

open ListSort Function Run

/-- `ChunkHashString`. A byte of the name is a signed character. -/
def chunkHashString (name : Sha1Name) (hash : BitVec 32) : BitVec 32 :=
  name.bytes.foldl (fun hash c => hash + (hash.rotateLeft 19 + c.signExtend 32)) hash

/-- `WrandHash`. -/
def wrandHash (url_hash svr_hash : BitVec 32) : BitVec 32 :=
  let url_digest := url_hash &&& 0x7FFFFFFF
  let svr_digest := svr_hash &&& 0x7FFFFFFF
  (1103515245 * ((1103515245 * svr_digest + 12345) ^^^ url_digest) + 12345) &&& 0x7FFFFFFF

/-- `ServerWeight`. -/
structure ServerWeight where
  index : Nat
  weight : BitVec 32
  deriving DecidableEq

/-- An entry of `g_PeerInfo` with the hash of its name. -/
structure HashedPeer extends PeerInfo where
  addrHash : BitVec 32

/-! ## The sort -/

/-- `swap` of two entries of an array of the given size. -/
def swap (size : Nat) (server_weight_ : Nat → ServerWeight) (left right : Nat) : Run (Nat → ServerWeight) := do
  inBounds (left < size ∧ right < size)
  return update (update server_weight_ left (server_weight_ right)) right (server_weight_ left)

/-- The first inner loop, which has incremented `i` already: up to an entry that is not above the pivot. `n` entries of the array
are left. -/
def scanUp (server_weight_ : Nat → ServerWeight) (curWeight : ServerWeight) : Nat → Nat → Run Nat
  | 0, _ => .error .overrun
  | n + 1, i => if curWeight.weight < (server_weight_ i).weight then scanUp server_weight_ curWeight n (i + 1) else .ok i

/-- The second inner loop: down to an entry that is not below the pivot, or to 0. -/
def scanDown (size : Nat) (server_weight_ : Nat → ServerWeight) (curWeight : ServerWeight) : Nat → Run Nat
  | 0 => .ok 0
  | j + 1 => do
      inBounds (j < size)
      if curWeight.weight ≤ (server_weight_ j).weight then return j else scanDown size server_weight_ curWeight j

/-- The loop around the two, with `i` as it is after its next increment; it ends with the place of the pivot. -/
def partition (size : Nat) (curWeight : ServerWeight) : Nat → (Nat → ServerWeight) → Nat → Nat → Run ((Nat → ServerWeight) × Nat)
  | 0, _, _, _ => .error .hang
  | n + 1, server_weight_, i, j => do
      let i ← scanUp server_weight_ curWeight (size - i) i
      let j ← scanDown size server_weight_ curWeight j
      if j ≤ i then return (server_weight_, i)
      else do
        let server_weight_ ← swap size server_weight_ i j
        partition size curWeight n server_weight_ (i + 1) j

/-- `quickSort` of an array of the given size. Where `i` is 0, `i - 1` is not above `left` either. -/
def quickSort (size : Nat) : Nat → (Nat → ServerWeight) → Nat → Nat → Run (Nat → ServerWeight)
  | 0, _, _, _ => .error .hang
  | n + 1, server_weight_, left, right =>
      if left < right then do
        inBounds (right < size)
        let curWeight := server_weight_ right
        let (server_weight_, i) ← partition size curWeight (right - left + 1) server_weight_ left right
        let server_weight_ ← swap size server_weight_ i right
        let server_weight_ ← quickSort size n server_weight_ left (i - 1)
        quickSort size n server_weight_ (i + 1) right
      else .ok server_weight_

/-! ### The array is ordered -/

/-- The order of the sort, from the highest weight to the lowest. -/
def rank (s : ServerWeight) : Int := -s.weight.toNat

theorem rank_le {x y : ServerWeight} : rank x ≤ rank y ↔ y.weight ≤ x.weight := by
  rw [rank, rank, BitVec.le_def]
  omega

theorem swap_spec {size : Nat} {a : Nat → ServerWeight} {left right : Nat} (hleft : left < size) (hright : right < size) :
    swap size a left right = .ok (a ∘ Equiv.swap left right) := by
  have hswap : update (update a left (a right)) right (a left) = a ∘ Equiv.swap left right := by
    funext k
    by_cases hr : k = right
    · rw [hr, update_self, Function.comp_apply, Equiv.swap_apply_right]
    · by_cases hl : k = left
      · subst hl
        rw [update_of_ne hr, update_self, Function.comp_apply, Equiv.swap_apply_left]
      · rw [update_of_ne hr, update_of_ne hl, Function.comp_apply, Equiv.swap_apply_of_ne_of_ne hl hr]
  rw [swap, inBounds_of ⟨hleft, hright⟩, hswap]
  rfl

/-- The pivot itself stops the way up. -/
theorem scanUp_spec {size hi : Nat} {a : Nat → ServerWeight} {cur : ServerWeight} (hhi : hi < size) (hpivot : a hi = cur)
    (i : Nat) (hi' : i ≤ hi) :
    ∃ m, scanUp a cur (size - i) i = .ok m ∧ i ≤ m ∧ m ≤ hi ∧ (∀ k, i ≤ k → k < m → cur.weight < (a k).weight) ∧
      (a m).weight ≤ cur.weight := by
  generalize hn : size - i = n
  induction n generalizing i with
  | zero => omega
  | succ n ih =>
      rw [scanUp]
      by_cases hgo : cur.weight < (a i).weight
      · have hne : i ≠ hi := by
          rintro rfl
          rw [hpivot] at hgo
          exact BitVec.lt_irrefl _ hgo
        obtain ⟨m, hm, hle, hmhi, hseen, hstop⟩ := ih (i + 1) (by omega) (by omega)
        refine ⟨m, by rw [if_pos hgo, hm], by omega, hmhi, fun k hk hlt => ?_, hstop⟩
        by_cases hki : k = i
        · rw [hki]
          exact hgo
        · exact hseen k (by omega) hlt
      · exact ⟨i, if_neg hgo, Nat.le_refl i, hi', fun k hk hlt => absurd hlt (Nat.not_lt.mpr hk), BitVec.not_lt.mp hgo⟩

/-- The bound 0 stops the way down. -/
theorem scanDown_spec {size : Nat} (a : Nat → ServerWeight) (cur : ServerWeight) (j : Nat) (hj : j ≤ size) :
    ∃ m, scanDown size a cur j = .ok m ∧ m ≤ j ∧ (∀ k, m < k → k < j → (a k).weight < cur.weight) ∧
      (m = 0 ∨ m < j ∧ cur.weight ≤ (a m).weight) := by
  induction j with
  | zero => exact ⟨0, rfl, Nat.le_refl 0, fun k hk hlt => absurd hk (by omega), .inl rfl⟩
  | succ j ih =>
      rw [scanDown, inBounds_of (show j < size from hj), ok_bind]
      by_cases hstop : cur.weight ≤ (a j).weight
      · exact ⟨j, if_pos hstop, Nat.le_succ j, fun k hk hlt => absurd hk (by omega), .inr ⟨Nat.lt_succ_self j, hstop⟩⟩
      · obtain ⟨m, hm, hle, hseen, hend⟩ := ih (by omega)
        refine ⟨m, by rw [if_neg hstop, hm], by omega, fun k hk hlt => ?_, hend.imp_right fun h => ⟨by omega, h.2⟩⟩
        by_cases hkj : k = j
        · rw [hkj]
          exact BitVec.not_le.mp hstop
        · exact hseen k hk (by omega)

/-- Between two rounds: what is before `i` is not below the pivot, what is from `j` on not above it. -/
structure Parting (lo hi : Nat) (start : Nat → ServerWeight) (cur : ServerWeight) (a : Nat → ServerWeight) (i j : Nat) : Prop where
  lo_le : lo ≤ i
  le : i ≤ j
  le_hi : j ≤ hi
  pivot : a hi = cur
  before : ∀ k, lo ≤ k → k < i → cur.weight ≤ (a k).weight
  behind : ∀ k, j ≤ k → k < hi → (a k).weight ≤ cur.weight
  moved : Rearranges lo hi start a

/-- Where the loop ends the pivot goes between the two sides. -/
structure Parted (lo hi : Nat) (start : Nat → ServerWeight) (cur : ServerWeight) (a : Nat → ServerWeight) (i : Nat) : Prop where
  lo_le : lo ≤ i
  le_hi : i ≤ hi
  pivot : a hi = cur
  before : ∀ k, lo ≤ k → k < i → cur.weight ≤ (a k).weight
  behind : ∀ k, i ≤ k → k < hi → (a k).weight ≤ cur.weight
  moved : Rearranges lo hi start a

theorem partition_spec {size lo hi : Nat} {start a : Nat → ServerWeight} {cur : ServerWeight} {n i j : Nat} (hhi : hi < size)
    (hn : hi - i < n) (h : Parting lo hi start cur a i j) :
    ∃ b m, partition size cur n a i j = .ok (b, m) ∧ Parted lo hi start cur b m := by
  induction n generalizing a i j with
  | zero => exact absurd hn (Nat.not_lt_zero _)
  | succ n ih =>
      have hij := h.le
      have hjhi := h.le_hi
      have hlo := h.lo_le
      obtain ⟨m, hm, him, hmhi, hup, hmcur⟩ := scanUp_spec hhi h.pivot i (by omega)
      obtain ⟨l, hl, hlj, hdown, hlcur⟩ := scanDown_spec a cur j (show j ≤ size by omega)
      have hbefore : ∀ k, lo ≤ k → k < m → cur.weight ≤ (a k).weight := by
        intro k hk hlt
        by_cases hki : k < i
        · exact h.before k hk hki
        · exact BitVec.le_of_lt (hup k (by omega) hlt)
      rw [partition, hm, ok_bind, hl, ok_bind]
      by_cases hmeet : l ≤ m
      · refine ⟨a, m, if_pos hmeet, by omega, hmhi, h.pivot, hbefore, fun k hk hlt => ?_, h.moved⟩
        by_cases hkm : k = m
        · rw [hkm]
          exact hmcur
        · by_cases hkj : k < j
          · exact BitVec.le_of_lt (hdown k (by omega) hkj)
          · exact h.behind k (by omega) hlt
      · rw [if_neg hmeet, swap_spec (by omega) (by omega), ok_bind]
        obtain ⟨hlj', hlcur⟩ : l < j ∧ cur.weight ≤ (a l).weight := hlcur.resolve_left (by omega)
        have hother : ∀ k, k ≠ m → k ≠ l → (a ∘ Equiv.swap m l) k = a k := fun k hkm hkl => by
          rw [Function.comp_apply, Equiv.swap_apply_of_ne_of_ne hkm hkl]
        apply ih (by omega)
        refine ⟨by omega, by omega, by omega, ?_, fun k hk hlt => ?_, fun k hk hlt => ?_,
          h.moved.trans (Rearranges.swap a ⟨by omega, hmhi⟩ ⟨by omega, by omega⟩)⟩
        · rw [hother hi (by omega) (by omega)]
          exact h.pivot
        · by_cases hkm : k = m
          · rw [hkm, Function.comp_apply, Equiv.swap_apply_left]
            exact hlcur
          · rw [hother k hkm (by omega)]
            exact hbefore k hk (by omega)
        · by_cases hkl : k = l
          · rw [hkl, Function.comp_apply, Equiv.swap_apply_right]
            exact hmcur
          · rw [hother k (by omega) hkl]
            by_cases hkj : k < j
            · exact BitVec.le_of_lt (hdown k (by omega) hkj)
            · exact h.behind k (by omega) hlt

/-- `quickSort` stays inside of the array and ends. The places between `left` and `right` have their entries in descending order of
the weight afterwards, the others the ones they had. -/
theorem quickSort_spec (size n : Nat) (a : Nat → ServerWeight) (left right : Nat) (hn : right - left < n)
    (hright : right < size) : ∃ b, quickSort size n a left right = .ok b ∧ Sorts rank left right a b := by
  induction n generalizing a left right with
  | zero => exact absurd hn (Nat.not_lt_zero _)
  | succ n ih =>
      rw [quickSort]
      by_cases hlt : left < right
      · have hstart : Parting left right a (a right) a left right :=
          ⟨Nat.le_refl _, hlt.le, Nat.le_refl _, rfl, fun k hk hlt' => absurd hlt' (Nat.not_lt.mpr hk),
            fun k hk hlt' => absurd hlt' (Nat.not_lt.mpr hk), Rearranges.refl left right a⟩
        obtain ⟨b, i, hb, hparted⟩ := partition_spec hright (show right - left < right - left + 1 by omega) hstart
        have hlo := hparted.lo_le
        have hhi := hparted.le_hi
        rw [if_pos hlt, inBounds_of hright, ok_bind]
        dsimp only
        rw [hb, ok_bind]
        dsimp only
        rw [swap_spec (by omega) hright, ok_bind]
        have hpivot : (b ∘ Equiv.swap i right) i = a right := by
          rw [Function.comp_apply, Equiv.swap_apply_left, hparted.pivot]
        have hother : ∀ k, k ≠ i → k ≠ right → (b ∘ Equiv.swap i right) k = b k := fun k hki hkr => by
          rw [Function.comp_apply, Equiv.swap_apply_of_ne_of_ne hki hkr]
        have hmoved : Rearranges left right b (b ∘ Equiv.swap i right) := Rearranges.swap b ⟨hlo, hhi⟩ ⟨hlt.le, Nat.le_refl _⟩
        obtain ⟨c, hc, hleft⟩ := ih (b ∘ Equiv.swap i right) left (i - 1) (by omega) (by omega)
        rw [hc, ok_bind]
        obtain ⟨d, hd, hrightside⟩ := ih c (i + 1) right (by omega) hright
        have habove : ∀ k, i < k → k ≤ right → rank ((b ∘ Equiv.swap i right) i) ≤ rank ((b ∘ Equiv.swap i right) k) := by
          intro k hk hkr
          rw [rank_le, hpivot]
          by_cases hat : k = right
          · rw [hat, Function.comp_apply, Equiv.swap_apply_right]
            exact hparted.behind i (Nat.le_refl i) (by omega)
          · rw [hother k (by omega) hat]
            exact hparted.behind k hk.le (by omega)
        have hbelow : ∀ k, left ≤ k → k < i → rank ((b ∘ Equiv.swap i right) k) ≤ rank ((b ∘ Equiv.swap i right) i) := by
          intro k hk hki
          rw [rank_le, hpivot, hother k (by omega) (by omega)]
          exact hparted.before k hk hki
        obtain ⟨hre, hasc⟩ := Sorts.sides hlo hhi hbelow habove hleft hrightside
        exact ⟨d, hd, fun _ => hparted.moved.trans (hmoved.trans hre), fun hge => absurd hlt hge, hasc⟩
      · exact ⟨a, if_neg hlt, Sorts.refl hlt⟩

/-! ## The choice -/

/-- The loop of `RhrwPickPeer`, which leaves the local proxy out: the array and the number of its entries. -/
def rateLive (chunkHash : BitVec 32) (localIdx : Nat) :
    Nat → List HashedPeer → (Nat → ServerWeight) → Nat → Run ((Nat → ServerWeight) × Nat)
  | _, [], weights, numReady => .ok (weights, numReady)
  | i, pi :: rest, weights, numReady =>
      if i = localIdx then rateLive chunkHash localIdx (i + 1) rest weights numReady
      else if pi.isAlive = true then do
        inBounds (numReady < maxPeerSize)
        rateLive chunkHash localIdx (i + 1) rest
          (update weights numReady ⟨i, wrandHash chunkHash pi.addrHash⟩) (numReady + 1)
      else rateLive chunkHash localIdx (i + 1) rest weights numReady

/-- `RhrwPickPeer` with `g_LocalInfo->idx`; `none` is the result -1. -/
def rhrwPickPeer (peers : List HashedPeer) (localIdx : Nat) (chunkName : Sha1Name) (weights : Nat → ServerWeight) :
    Run (Option Nat) := do
  let chunkHash := chunkHashString chunkName 0
  let (weights, numReady) ← rateLive chunkHash localIdx 0 peers weights 0
  if numReady < 1 then return none
  else if numReady = 1 then return some (weights 0).index
  else do
    let weights ← quickSort maxPeerSize (numReady + 1) weights 0 (numReady - 1)
    return some (weights 0).index

/-- `PickPeerToRedirect`, with what the calls before have left in `g_Weights`. -/
def pickPeerToRedirect (peers : List HashedPeer) (localIdx : Nat) (g_Weights : Nat → ServerWeight) (sha1Name : Sha1Name) :
    Run (Option Nat) :=
  rhrwPickPeer peers localIdx sha1Name g_Weights

/-- The entries of the array before it is sorted. -/
def rated (chunkHash : BitVec 32) (localIdx : Nat) : Nat → List HashedPeer → List ServerWeight
  | _, [] => []
  | i, pi :: rest =>
      if i ≠ localIdx ∧ pi.isAlive = true then ⟨i, wrandHash chunkHash pi.addrHash⟩ :: rated chunkHash localIdx (i + 1) rest
      else rated chunkHash localIdx (i + 1) rest

section Rate

variable {chunkHash : BitVec 32} {localIdx : Nat}

theorem length_rated (chunkHash : BitVec 32) (localIdx i : Nat) (peers : List HashedPeer) :
    (rated chunkHash localIdx i peers).length ≤ peers.length := by
  induction peers generalizing i with
  | nil => exact Nat.le_refl 0
  | cons pi rest ih =>
      rw [rated]
      split
      · exact Nat.succ_le_succ (ih (i + 1))
      · exact (ih (i + 1)).trans (Nat.le_succ _)

theorem mem_rated {s : ServerWeight} {i : Nat} {peers : List HashedPeer} : s ∈ rated chunkHash localIdx i peers ↔
    ∃ k pi, peers[k]? = some pi ∧ pi.isAlive = true ∧ i + k ≠ localIdx ∧ s = ⟨i + k, wrandHash chunkHash pi.addrHash⟩ := by
  induction peers generalizing i with
  | nil => simp [rated]
  | cons pi rest ih =>
      have hrest : s ∈ rated chunkHash localIdx (i + 1) rest ↔ ∃ k pi', (pi :: rest)[k + 1]? = some pi' ∧ pi'.isAlive = true ∧
          i + (k + 1) ≠ localIdx ∧ s = ⟨i + (k + 1), wrandHash chunkHash pi'.addrHash⟩ := by
        rw [ih]
        simp only [List.getElem?_cons_succ, Nat.add_assoc, Nat.add_comm 1]
      rw [rated]
      constructor
      · intro hs
        split at hs
        · next hlive =>
            rcases List.mem_cons.mp hs with hs | hs
            · exact ⟨0, pi, rfl, hlive.2, hlive.1, hs⟩
            · obtain ⟨k, pi', hk⟩ := hrest.mp hs
              exact ⟨k + 1, pi', hk⟩
        · obtain ⟨k, pi', hk⟩ := hrest.mp hs
          exact ⟨k + 1, pi', hk⟩
      · rintro ⟨k, pi', hpi', hlive, hne, hs⟩
        cases k with
        | zero =>
            obtain rfl : pi = pi' := Option.some.inj hpi'
            rw [if_pos ⟨hne, hlive⟩]
            exact List.mem_cons.mpr (.inl hs)
        | succ k =>
            have hmem := hrest.mpr ⟨k, pi', hpi', hlive, hne, hs⟩
            split
            · exact List.mem_cons_of_mem _ hmem
            · exact hmem

theorem rateLive_spec (i : Nat) (peers : List HashedPeer) (weights : Nat → ServerWeight) (numReady : Nat)
    (hroom : numReady + (rated chunkHash localIdx i peers).length ≤ maxPeerSize) :
    ∃ w, rateLive chunkHash localIdx i peers weights numReady = .ok (w, numReady + (rated chunkHash localIdx i peers).length) ∧
      (∀ k < numReady, w k = weights k) ∧
      ∀ k s, (rated chunkHash localIdx i peers)[k]? = some s → w (numReady + k) = s := by
  induction peers generalizing i weights numReady with
  | nil => exact ⟨weights, rfl, fun _ _ => rfl, fun k s hs => by simp [rated] at hs⟩
  | cons pi rest ih =>
      by_cases hlive : i ≠ localIdx ∧ pi.isAlive = true
      · rw [rated, if_pos hlive, List.length_cons] at hroom ⊢
        rw [rateLive, if_neg hlive.1, if_pos hlive.2, inBounds_of (by omega), ok_bind]
        obtain ⟨w, hw, hkept, hput⟩ := ih (i + 1) (update weights numReady ⟨i, wrandHash chunkHash pi.addrHash⟩)
          (numReady + 1) (by omega)
        refine ⟨w, by rw [hw]; congr 2; omega, fun k hk => ?_, fun k s hs => ?_⟩
        · rw [hkept k (by omega), update_of_ne (by omega)]
        · cases k with
          | zero =>
              rw [Nat.add_zero, hkept numReady (Nat.lt_succ_self numReady), update_self]
              exact Option.some.inj hs
          | succ k =>
              rw [← hput k s hs]
              congr 1
              omega
      · rw [rated, if_neg hlive] at hroom ⊢
        obtain ⟨w, hw, hkept, hput⟩ := ih (i + 1) weights numReady hroom
        refine ⟨w, ?_, hkept, hput⟩
        rw [rateLive]
        by_cases hlocal : i = localIdx
        · rw [if_pos hlocal, hw]
        · rw [if_neg hlocal, if_neg (fun halive => hlive ⟨hlocal, halive⟩), hw]

end Rate

/-- A live peer that is not the local proxy itself. -/
def Redirectable (peers : List HashedPeer) (localIdx k : Nat) (pi : HashedPeer) : Prop :=
  peers[k]? = some pi ∧ pi.isAlive = true ∧ k ≠ localIdx

/-- The weight of a peer for a chunk. -/
def weightOf (chunkName : Sha1Name) (pi : HashedPeer) : BitVec 32 := wrandHash (chunkHashString chunkName 0) pi.addrHash

/-- The highest random weight: none of the peers has a higher one than the chosen peer. -/
def Highest (peers : List HashedPeer) (localIdx : Nat) (chunkName : Sha1Name) : Option Nat → Prop
  | none => ∀ k pi, ¬ Redirectable peers localIdx k pi
  | some k => ∃ pi, Redirectable peers localIdx k pi ∧
      ∀ j pj, Redirectable peers localIdx j pj → weightOf chunkName pj ≤ weightOf chunkName pi

theorem mem_rated_iff {peers : List HashedPeer} {localIdx : Nat} {chunkName : Sha1Name} {s : ServerWeight} :
    s ∈ rated (chunkHashString chunkName 0) localIdx 0 peers ↔
      ∃ pi, Redirectable peers localIdx s.index pi ∧ s.weight = weightOf chunkName pi := by
  rw [mem_rated]
  constructor
  · rintro ⟨k, pi, hpi, hlive, hne, rfl⟩
    rw [Nat.zero_add] at hne ⊢
    exact ⟨pi, ⟨hpi, hlive, hne⟩, rfl⟩
  · rintro ⟨pi, ⟨hpi, hlive, hne⟩, hweight⟩
    refine ⟨s.index, pi, hpi, hlive, by rwa [Nat.zero_add], ?_⟩
    rw [Nat.zero_add]
    exact congrArg (ServerWeight.mk s.index) hweight

/-- The first entry of the sorted array has the highest weight. -/
theorem rhrwPickPeer_highest {peers : List HashedPeer} (hsize : peers.length ≤ maxPeerSize) (localIdx : Nat)
    (chunkName : Sha1Name) (weights : Nat → ServerWeight) :
    ∃ r, rhrwPickPeer peers localIdx chunkName weights = .ok r ∧ Highest peers localIdx chunkName r := by
  have hlen := length_rated (chunkHashString chunkName 0) localIdx 0 peers
  obtain ⟨w, hw, -, hput⟩ := @rateLive_spec (chunkHashString chunkName 0) localIdx 0 peers weights 0 (by omega)
  have hmem := @mem_rated_iff peers localIdx chunkName
  generalize rated (chunkHashString chunkName 0) localIdx 0 peers = entries at hlen hw hput hmem
  rw [Nat.zero_add] at hw
  simp only [Nat.zero_add] at hput
  -- an entry that is not below the others is a choice
  have hchoice : ∀ s ∈ entries, (∀ t ∈ entries, t.weight ≤ s.weight) → Highest peers localIdx chunkName (some s.index) := by
    intro s hs hmax
    obtain ⟨pi, hpi, hweight⟩ := hmem.mp hs
    refine ⟨pi, hpi, fun j pj hpj => ?_⟩
    rw [← hweight]
    exact hmax ⟨j, weightOf chunkName pj⟩ (hmem.mpr ⟨pj, hpj, rfl⟩)
  rw [rhrwPickPeer, hw, ok_bind]
  dsimp only
  by_cases hnone : entries.length < 1
  · refine ⟨none, if_pos hnone, fun k pi hpi => ?_⟩
    have hin : (⟨k, weightOf chunkName pi⟩ : ServerWeight) ∈ entries := hmem.mpr ⟨pi, hpi, rfl⟩
    exact absurd (List.length_pos_of_mem hin) (by omega)
  · rw [if_neg hnone]
    have hentry : ∀ k, 0 ≤ k → k ≤ entries.length - 1 → w k ∈ entries := by
      intro k _ hk
      rw [hput k _ (List.getElem?_eq_getElem (by omega))]
      exact List.getElem_mem _
    have hfrom : ∀ t ∈ entries, ∃ k, k ≤ entries.length - 1 ∧ w k = t := by
      intro t ht
      obtain ⟨k, hk, hget⟩ := List.mem_iff_getElem.mp ht
      exact ⟨k, by omega, hput k t (by rw [List.getElem?_eq_getElem hk, hget])⟩
    by_cases hone : entries.length = 1
    · refine ⟨some (w 0).index, if_pos hone, hchoice _ (hentry 0 (Nat.le_refl 0) (Nat.zero_le _)) fun t ht => ?_⟩
      obtain ⟨k, hk, rfl⟩ := hfrom t ht
      obtain rfl : k = 0 := by omega
      exact BitVec.le_refl _
    · obtain ⟨b, hb, hsorts⟩ := quickSort_spec maxPeerSize (entries.length + 1) w 0 (entries.length - 1) (by omega)
        (by omega)
      rw [if_neg hone, hb, ok_bind]
      have hre := hsorts.rearranges (Nat.le_refl 0) (Nat.le_refl (entries.length - 1))
      refine ⟨some (b 0).index, rfl, hchoice _ (hre.forall_mem (p := (· ∈ entries)) hentry 0 (Nat.le_refl 0) (Nat.zero_le _))
        fun t ht => ?_⟩
      obtain ⟨k, hk, rfl⟩ := hfrom t ht
      exact hre.symm.forall_mem (p := fun x => x.weight ≤ (b 0).weight)
        (fun j hj hle => rank_le.mp (hsorts.2.2 0 j (Nat.le_refl 0) hj hle)) k (Nat.zero_le k) hk

/-! ### Disruption -/

/-- No two of the peers have the same weight for the chunk. -/
def Distinct (peers : List HashedPeer) (localIdx : Nat) (chunkName : Sha1Name) : Prop :=
  ∀ j pj k pk, Redirectable peers localIdx j pj → Redirectable peers localIdx k pk →
    weightOf chunkName pj = weightOf chunkName pk → j = k

/-- The peer with index `k` is marked dead, or alive. -/
def mark (peers : List HashedPeer) (k : Nat) (isAlive : Bool) : List HashedPeer :=
  peers.modify k fun pi => { pi with isAlive := isAlive }

section Disruption

variable {peers : List HashedPeer} {localIdx : Nat} {chunkName : Sha1Name} {r r' : Option Nat} {k : Nat}

theorem Highest.unique (hdistinct : Distinct peers localIdx chunkName) (h : Highest peers localIdx chunkName r)
    (h' : Highest peers localIdx chunkName r') : r = r' := by
  cases r with
  | none =>
      cases r' with
      | none => rfl
      | some j' =>
          obtain ⟨pj', hj', -⟩ := h'
          exact absurd hj' (h j' pj')
  | some j =>
      obtain ⟨pj, hj, hmax⟩ := h
      cases r' with
      | none => exact absurd hj (h' j pj)
      | some j' =>
          obtain ⟨pj', hj', hmax'⟩ := h'
          rw [hdistinct j pj j' pj' hj hj' (BitVec.le_antisymm (hmax' j pj hj) (hmax j' pj' hj'))]

theorem redirectable_dead {j : Nat} {pj : HashedPeer} :
    Redirectable (mark peers k false) localIdx j pj ↔ Redirectable peers localIdx j pj ∧ j ≠ k := by
  unfold Redirectable mark
  rw [List.getElem?_modify]
  by_cases hjk : k = j
  · subst hjk
    simp only [if_true, ne_eq, not_true_eq_false, and_false, iff_false, not_and]
    intro hget halive
    obtain ⟨pi, -, rfl⟩ := Option.map_eq_some_iff.mp hget
    cases halive
  · simp [hjk, Ne.symm hjk]

theorem redirectable_alive {j : Nat} {pj : HashedPeer} (h : Redirectable (mark peers k true) localIdx j pj) :
    Redirectable peers localIdx j pj ∨ j = k ∧ ∃ pk, peers[k]? = some pk ∧ pj = { pk with isAlive := true } := by
  obtain ⟨hget, halive, hlocal⟩ := h
  unfold mark at hget
  rw [List.getElem?_modify] at hget
  by_cases hjk : k = j
  · subst hjk
    obtain ⟨pk, hpk, rfl⟩ := Option.map_eq_some_iff.mp (by simpa using hget)
    exact .inr ⟨rfl, pk, hpk, rfl⟩
  · exact .inl ⟨by simpa [hjk] using hget, halive, hlocal⟩

theorem redirectable_mark_of_ne {j : Nat} {pj : HashedPeer} (isAlive : Bool) (hjk : j ≠ k) (h : Redirectable peers localIdx j pj) :
    Redirectable (mark peers k isAlive) localIdx j pj := by
  obtain ⟨hget, halive, hlocal⟩ := h
  refine ⟨?_, halive, hlocal⟩
  rw [mark, List.getElem?_modify, hget]
  simp [Ne.symm hjk]

/-- Another peer than the chosen one dies. -/
theorem Highest.dead (h : Highest peers localIdx chunkName r) (hother : r ≠ some k) :
    Highest (mark peers k false) localIdx chunkName r := by
  cases r with
  | none => exact fun j pj hj => h j pj (redirectable_dead.mp hj).1
  | some c =>
      obtain ⟨pc, hc, hmax⟩ := h
      exact ⟨pc, redirectable_dead.mpr ⟨hc, fun heq => hother (congrArg some heq)⟩,
        fun j pj hj => hmax j pj (redirectable_dead.mp hj).1⟩

theorem Distinct.dead (h : Distinct peers localIdx chunkName) : Distinct (mark peers k false) localIdx chunkName :=
  fun i pi j pj hi hj => h i pi j pj (redirectable_dead.mp hi).1 (redirectable_dead.mp hj).1

/-- A peer below the chosen one comes back: the highest weight is the one it was, and it is still the weight of one peer only. -/
theorem Highest.alive {c : Nat} {pk pc : HashedPeer} (hdistinct : Distinct peers localIdx chunkName)
    (h : Highest peers localIdx chunkName (some c)) (hpk : peers[k]? = some pk) (hpc : peers[c]? = some pc)
    (hless : weightOf chunkName pk < weightOf chunkName pc) (hr' : Highest (mark peers k true) localIdx chunkName r') :
    r' = some c := by
  obtain ⟨pc', hc, hmax⟩ := h
  obtain rfl : pc' = pc := Option.some.inj (hc.1.symm.trans hpc)
  have hck : c ≠ k := by
    rintro rfl
    obtain rfl : pc' = pk := Option.some.inj (hc.1.symm.trans hpk)
    exact BitVec.lt_irrefl _ hless
  have hc' := redirectable_mark_of_ne true hck hc
  cases r' with
  | none => exact absurd hc' (hr' c pc')
  | some j =>
      obtain ⟨pj, hj, hmax'⟩ := hr'
      have hge := hmax' c pc' hc'
      rcases redirectable_alive hj with hold | ⟨-, pk', hpk', rfl⟩
      · rw [hdistinct j pj c pc' hold hc (BitVec.le_antisymm (hmax j pj hold) hge)]
      · obtain rfl : pk = pk' := Option.some.inj (hpk.symm.trans hpk')
        exact absurd hge (BitVec.not_le.mpr hless)

end Disruption

theorem Highest.none_iff {peers : List HashedPeer} {localIdx : Nat} {chunkName : Sha1Name} {r : Option Nat}
    (h : Highest peers localIdx chunkName r) : r = none ↔ ∀ k pi, ¬ Redirectable peers localIdx k pi := by
  constructor
  · rintro rfl
    exact h
  · intro hnone
    cases r with
    | none => rfl
    | some k =>
        obtain ⟨pi, hpi, -⟩ := h
        exact absurd hpi (hnone k pi)

theorem length_mark (peers : List HashedPeer) (k : Nat) (isAlive : Bool) : (mark peers k isAlive).length = peers.length :=
  List.length_modify _ _ _

/-- **Redirection by the highest random weight**, among the live peers other than the local proxy. The choice of a chunk changes
neither when another peer dies nor when one with a smaller weight comes back. -/
theorem redirect_to_highest (peers : List HashedPeer) (hsize : peers.length ≤ maxPeerSize) (localIdx : Nat)
    (g_Weights : Nat → ServerWeight) (sha1Name : Sha1Name) :
    (∃ r, pickPeerToRedirect peers localIdx g_Weights sha1Name = .ok r ∧
      (r = none ↔ ∀ k pi, ¬ Redirectable peers localIdx k pi) ∧
      ∀ k, r = some k → ∃ pi, Redirectable peers localIdx k pi ∧
        ∀ j pj, Redirectable peers localIdx j pj → weightOf sha1Name pj ≤ weightOf sha1Name pi) ∧
    (∀ size n a left right, right - left < n → right < size → ∃ b, quickSort size n a left right = .ok b ∧
      Rearranges left right a b ∧ ∀ i j, left ≤ i → i ≤ j → j ≤ right → (b j).weight ≤ (b i).weight) ∧
    (Distinct peers localIdx sha1Name → ∀ r, pickPeerToRedirect peers localIdx g_Weights sha1Name = .ok r →
      (∀ k, r ≠ some k → ∀ weights, pickPeerToRedirect (mark peers k false) localIdx weights sha1Name = .ok r) ∧
      ∀ k c pk pc, r = some c → peers[k]? = some pk → peers[c]? = some pc → weightOf sha1Name pk < weightOf sha1Name pc →
        ∀ weights, pickPeerToRedirect (mark peers k true) localIdx weights sha1Name = .ok r) := by
  obtain ⟨r, hr, hhighest⟩ := rhrwPickPeer_highest hsize localIdx sha1Name g_Weights
  refine ⟨⟨r, hr, hhighest.none_iff, ?_⟩, fun size n a left right hn hright => ?_, fun hdistinct r' hr' => ?_⟩
  · rintro k rfl
    exact hhighest
  · obtain ⟨b, hb, hsorts⟩ := quickSort_spec size n a left right hn hright
    exact ⟨b, hb, hsorts.rearranges (Nat.le_refl left) (Nat.le_refl right),
      fun i j hi hij hj => rank_le.mp (hsorts.2.2 i j hi hij hj)⟩
  · obtain rfl : r = r' := Except.ok.inj (hr.symm.trans hr')
    constructor
    · intro k hother weights
      obtain ⟨r', hr', hdead⟩ := rhrwPickPeer_highest ((length_mark peers k false).trans_le hsize) localIdx sha1Name weights
      rw [pickPeerToRedirect, hr', hdead.unique hdistinct.dead (hhighest.dead hother)]
    · rintro k c pk pc rfl hpk hpc hless weights
      obtain ⟨r', hr', halive⟩ := rhrwPickPeer_highest ((length_mark peers k true).trans_le hsize) localIdx sha1Name weights
      rw [pickPeerToRedirect, hr', hhighest.alive hdistinct hpk hpc hless halive]

/-- Three live peers, the local proxy first, and a dead one. -/
def samplePeers : List HashedPeer :=
  [⟨⟨1, true, true, 0⟩, 17⟩, ⟨⟨2, true, false, 0⟩, 40⟩, ⟨⟨3, true, false, 0⟩, 41⟩, ⟨⟨4, false, false, 0⟩, 42⟩]

theorem redirect_sample : pickPeerToRedirect samplePeers 0 (fun _ => ⟨0, 0⟩) default = .ok (some 2) ∧
    (∀ weights, pickPeerToRedirect (mark samplePeers 1 false) 0 weights default = .ok (some 2)) ∧
    ∀ weights, pickPeerToRedirect (mark samplePeers 3 true) 0 weights default = .ok (some 2) := by
  have hpick : pickPeerToRedirect samplePeers 0 (fun _ => ⟨0, 0⟩) default = .ok (some 2) := by decide
  have hdistinct : Distinct samplePeers 0 default := by
    rintro j pj k pk ⟨hj, hlj, hnj⟩ ⟨hk, hlk, hnk⟩ heq
    have hj4 : j < 4 := (List.getElem?_eq_some_iff.mp hj).1
    have hk4 : k < 4 := (List.getElem?_eq_some_iff.mp hk).1
    interval_cases j <;> interval_cases k <;> first | rfl | (cases hj; cases hk; revert heq hlj hlk hnj hnk; decide)
  obtain ⟨hdead, halive⟩ := (redirect_to_highest samplePeers (by decide) 0 (fun _ => ⟨0, 0⟩) default).2.2 hdistinct (some 2) hpick
  exact ⟨hpick, hdead 1 (by decide), halive 3 2 _ _ rfl rfl rfl (by decide)⟩

/-- The local proxy is never picked: where it is the only live peer there is none. -/
theorem local_not_picked : ¬ ∀ (peers : List HashedPeer) (localIdx : Nat) (g_Weights : Nat → ServerWeight) (sha1Name : Sha1Name),
    peers.length ≤ maxPeerSize → ∃ r, pickPeerToRedirect peers localIdx g_Weights sha1Name = .ok r ∧
      (r = none ↔ ∀ pi ∈ peers, pi.isAlive = false) := by
  intro h
  obtain ⟨r, hr, hnone⟩ := h [⟨⟨1, true, true, 0⟩, 17⟩] 0 (fun _ => ⟨0, 0⟩) default (by decide)
  cases hr
  exact absurd (hnone.mp rfl _ List.mem_cons_self) (by decide)

end BeagleCache.Redirect
