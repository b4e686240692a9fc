import BeagleCache.HashTable

/-! The iterators of hashtable_itr.c. An iterator is at an entry of a chain, with the entry before it in the chain; while nothing else
changes the table it comes to every entry once, whichever of them it removes. -/

namespace BeagleCache.HashTable

open Chains Transition Dictionary Function Run

variable {K V : Type}

/-- `struct hashtable_itr` without `h`. -/
structure Itr where
  e : Option Ptr
  parent : Option Ptr
  index : Nat
  deriving DecidableEq

/-- `hashtable_iterator`, with memory for the iterator. -/
def hashtableIterator (h : Hashtable K V) : Itr :=
  if h.entrycount = 0 then ⟨none, none, h.tablelength⟩
  else match nextFrom h.table 0 h.tablelength with
    | some i => ⟨h.table i, none, i⟩
    | none => ⟨none, none, h.tablelength⟩

/-- The entry of an iterator. -/
def itrEntry (h : Hashtable K V) (itr : Itr) : Run (Cell Ptr (Entry K V)) :=
  match itr.e with
  | some e => h.entry e
  | none => .error .overrun

def hashtableIteratorKey (h : Hashtable K V) (itr : Itr) : Run K := do
  let c ← itrEntry h itr
  return c.body.k

def hashtableIteratorValue (h : Hashtable K V) (itr : Itr) : Run V := do
  let c ← itrEntry h itr
  return c.body.v

/-- `hashtable_iterator_advance`; `false` for zero. -/
def hashtableIteratorAdvance (h : Hashtable K V) (itr : Itr) : Run (Bool × Itr) :=
  match itr.e with
  | none => .ok (false, itr)
  | some e => do
      let c ← h.entry e
      match c.next with
      | some next => return (true, ⟨some next, some e, itr.index⟩)
      | none =>
          let j := itr.index + 1
          if h.tablelength ≤ j then return (false, ⟨none, none, j⟩)
          else match nextFrom h.table j h.tablelength with
            | some j => return (true, ⟨h.table j, none, j⟩)
            | none => return (false, ⟨none, none, h.tablelength⟩)

/-- `hashtable_iterator_remove`. -/
def hashtableIteratorRemove (h : Hashtable K V) (itr : Itr) : Run (Bool × Itr × Hashtable K V) :=
  match itr.e with
  | none => .error .overrun
  | some rememberE => do
      let c ← h.entry rememberE
      let h ← h.setLink itr.index itr.parent c.next
      let h := { h with entrycount := h.entrycount - 1 }
      let r ← hashtableIteratorAdvance h itr
      let itr := if r.2.parent = some rememberE then { r.2 with parent := itr.parent } else r.2
      let h ← h.free rememberE
      return (r.1, itr, h)

/-- An entry that is kept is passed by `hashtable_iterator_advance`. -/
def turn (kept : Bool) (h : Hashtable K V) (itr : Itr) : Run (Bool × Itr × Hashtable K V) :=
  match kept with
  | true => do
      let r ← hashtableIteratorAdvance h itr
      return (r.1, r.2, h)
  | false => hashtableIteratorRemove h itr

/-- A loop over a table that is not empty: `do`, a turn at the entry, `while` it came to another one. -/
def sweep (keep : K → V → Bool) : Nat → Hashtable K V → Itr → Run (List (K × V) × Hashtable K V)
  | 0, _, _ => .error .hang
  | fuel + 1, h, itr => do
      let k ← hashtableIteratorKey h itr
      let v ← hashtableIteratorValue h itr
      let r ← turn (keep k v) h itr
      if r.1 then do
        let rest ← sweep keep fuel r.2.2 r.2.1
        return ((k, v) :: rest.1, rest.2)
      else return ([(k, v)], r.2.2)

/-! ## Where an iterator is -/

section Standing

variable {hashfn : K → BitVec 32} {h : Hashtable K V} {chains : Nat → List (Ptr × Entry K V)} {itr : Itr} {x : Ptr × Entry K V}
  {passed rest : List (Ptr × Entry K V)} {i j n : Nat}

/-- An iterator is at an entry, behind those of `passed` and before those of `rest`. -/
structure Standing (h : Hashtable K V) (chains : Nat → List (Ptr × Entry K V)) (itr : Itr) (passed : List (Ptr × Entry K V))
    (x : Ptr × Entry K V) (rest : List (Ptr × Entry K V)) : Prop where
  at_entry : ∃ i before after, i < h.tablelength ∧ chains i = before ++ x :: after ∧ itr = ⟨some x.1, linkBehind before, i⟩ ∧
    passed = items i chains ++ before ∧ rest = after ++ itemsFrom h.tablelength chains (i + 1)

theorem Standing.items_eq (hat : Standing h chains itr passed x rest) : items h.tablelength chains = passed ++ x :: rest := by
  obtain ⟨i, before, after, hi, hchain, -, rfl, rfl⟩ := hat.at_entry
  calc items h.tablelength chains = items i chains ++ (chains i ++ itemsFrom h.tablelength chains (i + 1)) := by
        rw [items_split hi.le, itemsFrom_succ hi]
    _ = items i chains ++ before ++ x :: (after ++ itemsFrom h.tablelength chains (i + 1)) := by
        rw [hchain, List.append_assoc, List.append_assoc, List.cons_append]

theorem Standing.entry (hl : Linked hashfn h chains) (hat : Standing h chains itr passed x rest) :
    ∃ next, itrEntry h itr = .ok ⟨x.2, next⟩ := by
  obtain ⟨i, before, after, hi, hchain, rfl, -, -⟩ := hat.at_entry
  have hall := hl.layout.chain i hi
  rw [hchain] at hall
  exact ⟨first after, entry_of hall.cell⟩

theorem iterator_spec (hl : Linked hashfn h chains) (hcount : hashtableCount h ≠ 0) :
    ∃ x rest, Standing h chains (hashtableIterator h) [] x rest := by
  have hnonempty : items h.tablelength chains ≠ [] := by
    intro hnil
    refine hcount (hl.count.trans ?_)
    rw [hnil, List.length_nil]
  obtain ⟨-, hnil⟩ | ⟨i, x, after, hnext, -, hi, hhead, hchain, hempty⟩ := nextFrom_spec hl.layout.heads 0
  · rw [itemsFrom_zero] at hnil
    exact absurd hnil hnonempty
  · refine ⟨x, _, ⟨i, [], after, hi, hchain, ?_, ?_, rfl⟩⟩
    · have hentries : h.entrycount ≠ 0 := hcount
      rw [hashtableIterator, if_neg hentries, hnext]
      show Itr.mk (h.table i) none i = _
      rw [hhead]
      rfl
    · rw [items_skip (Nat.zero_le i) hempty]
      rfl

/-- `hashtable_iterator_advance` at an entry of a chain: the next one of the chain, or else the first one of a later chain. -/
theorem advance_cases (hs : Shaped hashfn h chains) (hi : i < h.tablelength) {before after : List (Ptr × Entry K V)}
    (hchain : chains i = before ++ x :: after) (parent : Option Ptr) :
    (∃ y ys, after = y :: ys ∧ hashtableIteratorAdvance h ⟨some x.1, parent, i⟩ = .ok (true, ⟨some y.1, some x.1, i⟩)) ∨
      after = [] ∧ ((∃ l, itemsFrom h.tablelength chains (i + 1) = [] ∧
          hashtableIteratorAdvance h ⟨some x.1, parent, i⟩ = .ok (false, ⟨none, none, l⟩)) ∨
        ∃ j y ys, i < j ∧ j < h.tablelength ∧ chains j = y :: ys ∧ (∀ l, i + 1 ≤ l → l < j → chains l = []) ∧
          hashtableIteratorAdvance h ⟨some x.1, parent, i⟩ = .ok (true, ⟨some y.1, none, j⟩)) := by
  have hall := hs.layout.chain i hi
  rw [hchain] at hall
  have hcell := entry_of hall.cell
  cases after with
  | cons y ys =>
      refine .inl ⟨y, ys, rfl, ?_⟩
      simp only [hashtableIteratorAdvance, hcell, ok_bind, first_cons]
      rfl
  | nil =>
      refine .inr ⟨rfl, ?_⟩
      by_cases hlast : h.tablelength ≤ i + 1
      · refine .inl ⟨i + 1, itemsFrom_of_le hlast, ?_⟩
        simp only [hashtableIteratorAdvance, hcell, ok_bind, first_nil, if_pos hlast]
        rfl
      · obtain ⟨hnext, hnil⟩ | ⟨j, y, ys, hnext, hle, hj, hhead, hbehind, hempty⟩ := nextFrom_spec hs.layout.heads (i + 1)
        · refine .inl ⟨h.tablelength, hnil, ?_⟩
          simp only [hashtableIteratorAdvance, hcell, ok_bind, first_nil, if_neg hlast, hnext]
          rfl
        · refine .inr ⟨j, y, ys, hle, hj, hbehind, hempty, ?_⟩
          simp only [hashtableIteratorAdvance, hcell, ok_bind, first_nil, if_neg hlast, hnext, hhead]
          rfl

/-- An iterator advances to the entry that comes next, unless it is at the last one. -/
theorem advance_spec (hs : Shaped hashfn h chains) (hat : Standing h chains itr passed x rest) :
    ∃ r, hashtableIteratorAdvance h itr = .ok r ∧
      ((r.1 = false ∧ rest = []) ∨ ∃ y ys, r.1 = true ∧ rest = y :: ys ∧ Standing h chains r.2 (passed ++ [x]) y ys) := by
  obtain ⟨i, before, after, hi, hchain, rfl, rfl, rfl⟩ := hat.at_entry
  obtain ⟨y, ys, rfl, hcall⟩ | ⟨rfl, ⟨l, hnil, hcall⟩ | ⟨j, y, ys, hlt, hj, hbehind, hempty, hcall⟩⟩ :=
    advance_cases hs hi hchain (linkBehind before)
  · refine ⟨_, hcall, .inr ⟨y, _, rfl, rfl, ⟨i, before ++ [x], ys, hi, ?_, ?_, ?_, rfl⟩⟩⟩
    · rw [hchain, List.append_assoc, List.singleton_append]
    · rw [linkBehind, List.getLast?_concat]
      rfl
    · rw [List.append_assoc]
  · refine ⟨_, hcall, .inl ⟨rfl, ?_⟩⟩
    rw [hnil, List.append_nil]
  · refine ⟨_, hcall, .inr ⟨y, _, rfl, ?_, ⟨j, [], ys, hj, hbehind, rfl, ?_, rfl⟩⟩⟩
    · rw [List.nil_append, itemsFrom_skip hlt hj.le hempty, itemsFrom_succ hj, hbehind, List.cons_append]
    · rw [items_skip hlt hempty, items_succ, hchain, List.append_nil, List.append_assoc]

/-- `hashtable_iterator_advance` reads the entry and what the table has at later places. -/
theorem advance_congr {h' : Hashtable K V} {e : Ptr} (hentry : h'.entry e = h.entry e) (hlength : h'.tablelength = h.tablelength)
    (hslots : ∀ j, i < j → h'.table j = h.table j) (parent : Option Ptr) :
    hashtableIteratorAdvance h' ⟨some e, parent, i⟩ = hashtableIteratorAdvance h ⟨some e, parent, i⟩ := by
  have hnext : nextFrom h'.table (i + 1) h.tablelength = nextFrom h.table (i + 1) h.tablelength := nextFrom_congr hslots
  simp only [hashtableIteratorAdvance, hentry, hnext, hlength]
  cases hfound : nextFrom h.table (i + 1) h.tablelength with
  | none => rfl
  | some j => simp only [hslots j (nextFrom_ge hfound)]

/-- `hashtable_iterator_remove` advances behind its change of the chain as before it. -/
theorem advance_kept {h' : Hashtable K V} {e : Ptr} (hkept : Kept h h' i e) (count : Nat) (parent : Option Ptr) :
    hashtableIteratorAdvance { h' with entrycount := count } ⟨some e, parent, i⟩ = hashtableIteratorAdvance h ⟨some e, parent, i⟩ := by
  refine advance_congr ?_ hkept.tablelength (fun j hj => hkept.slots j (Nat.ne_of_gt hj)) parent
  unfold Hashtable.entry
  rw [hkept.entry]

/-- `hashtable_iterator_remove` takes the entry out, and the iterator is at the one that comes next, unless it was the last one. -/
theorem remove_spec (hl : Linked hashfn h chains) (hat : Standing h chains itr passed x rest) :
    ∃ r chains', hashtableIteratorRemove h itr = .ok r ∧ Linked hashfn r.2.2 chains' ∧
      ((r.1 = false ∧ rest = [] ∧ items r.2.2.tablelength chains' = passed) ∨
        ∃ y ys, r.1 = true ∧ rest = y :: ys ∧ Standing r.2.2 chains' r.2.1 passed y ys) := by
  obtain ⟨i, before, after, hi, hchain, rfl, rfl, rfl⟩ := hat.at_entry
  obtain ⟨h', h'', hset, hkept, hfree, hlength, hcount, hshaped⟩ := hl.unlink hi hchain (h.entrycount - 1)
  have hcell : h.nodes x.1 = some ⟨x.2, first after⟩ := by
    have hall := hl.layout.chain i hi
    rw [hchain] at hall
    exact hall.cell
  have hmiddle : (chains i).Perm (x :: (before ++ after)) := by
    rw [hchain]
    exact List.perm_middle
  have hlinked : Linked hashfn h'' (update chains i (before ++ after)) := by
    refine ⟨hshaped, ?_⟩
    have hless := (flatMap_update_less List.nodup_range (List.mem_range.mpr hi) hmiddle).length_eq
    rw [List.length_cons, ← hl.count] at hless
    rw [hcount, hless, hlength]
    rfl
  have hitems : items i (update chains i (before ++ after)) = items i chains := items_update (le_refl i)
  have hsucc : items (i + 1) (update chains i (before ++ after)) = items i chains ++ (before ++ after) := by
    rw [items_succ, hitems, update_self]
  obtain ⟨y, ys, rfl, hcall⟩ | ⟨rfl, ⟨l, hnil, hcall⟩ | ⟨j, y, ys, hlt, hj, hbehind, hempty, hcall⟩⟩ :=
    advance_cases hl.toShaped hi hchain (linkBehind before)
  · refine ⟨(true, ⟨some y.1, linkBehind before, i⟩, h''), _, ?_, hlinked, .inr ⟨y, _, rfl, rfl, ⟨i, before, ys, ?_, ?_, rfl, ?_, ?_⟩⟩⟩
    · simp only [hashtableIteratorRemove, entry_of hcell, ok_bind, hset, hkept.entrycount, advance_kept hkept, hcall, hfree]
      rfl
    · rwa [hlength]
    · rw [update_self]
    · rw [hitems]
    · rw [hlength, itemsFrom_update (Nat.lt_succ_self i)]
      rfl
  · refine ⟨(false, ⟨none, none, l⟩, h''), _, ?_, hlinked, .inl ⟨rfl, ?_, ?_⟩⟩
    · simp only [hashtableIteratorRemove, entry_of hcell, ok_bind, hset, hkept.entrycount, advance_kept hkept, hcall, hfree]
      rfl
    · rw [hnil, List.append_nil]
    · rw [hlength, items_split (Nat.succ_le_of_lt hi), itemsFrom_update (Nat.lt_succ_self i), hnil, hsucc]
      simp only [List.append_nil]
  · refine ⟨(true, ⟨some y.1, none, j⟩, h''), _, ?_, hlinked, .inr ⟨y, _, rfl, ?_, ⟨j, [], ys, ?_, ?_, rfl, ?_, rfl⟩⟩⟩
    · simp only [hashtableIteratorRemove, entry_of hcell, ok_bind, hset, hkept.entrycount, advance_kept hkept, hcall, hfree]
      rfl
    · rw [hlength, itemsFrom_update (Nat.lt_succ_of_lt hlt), List.nil_append, itemsFrom_skip hlt hj.le hempty, itemsFrom_succ hj,
        hbehind, List.cons_append]
    · rwa [hlength]
    · rw [update_of_ne (Nat.ne_of_gt hlt), hbehind, List.nil_append]
    · have hskip : ∀ l, i + 1 ≤ l → l < j → update chains i (before ++ []) l = [] := by
        intro l hil hlj
        rw [update_of_ne (Nat.ne_of_gt hil), hempty l hil hlj]
      rw [items_skip hlt hskip, hsucc, List.append_nil, List.append_nil]

/-! ## A loop over a table -/

theorem turn_spec (hl : Linked hashfn h chains) (hat : Standing h chains itr passed x rest) (keep : Ptr × Entry K V → Bool) :
    ∃ r chains', turn (keep x) h itr = .ok r ∧ Linked hashfn r.2.2 chains' ∧
      ((r.1 = false ∧ rest = [] ∧ items r.2.2.tablelength chains' = passed ++ [x].filter keep) ∨
        ∃ y ys, r.1 = true ∧ rest = y :: ys ∧ Standing r.2.2 chains' r.2.1 (passed ++ [x].filter keep) y ys) := by
  cases hkeep : keep x with
  | true =>
      obtain ⟨r, hcall, hcases⟩ := advance_spec hl.toShaped hat
      have hkept : [x].filter keep = [x] := List.filter_cons_of_pos hkeep
      refine ⟨(r.1, r.2, h), chains, ?_, hl, ?_⟩
      · rw [turn, hcall]
        rfl
      · rw [hkept]
        refine hcases.imp_left fun ⟨hend, hnil⟩ => ⟨hend, hnil, ?_⟩
        rw [hat.items_eq, hnil]
  | false =>
      obtain ⟨r, chains', hcall, hl', hcases⟩ := remove_spec hl hat
      have hgone : [x].filter keep = [] := List.filter_cons_of_neg (Bool.eq_false_iff.mp hkeep)
      refine ⟨r, chains', hcall, hl', ?_⟩
      rwa [hgone, List.append_nil]

/-- A loop from where an iterator is visits that entry and all behind it, and leaves the ones that it keeps. -/
theorem sweep_spec (keep : K → V → Bool) {fuel : Nat} (hl : Linked hashfn h chains) (hat : Standing h chains itr passed x rest)
    (hfuel : rest.length < fuel) : ∃ h' chains', sweep keep fuel h itr = .ok (pairs (x :: rest), h') ∧ Linked hashfn h' chains' ∧
      items h'.tablelength chains' = passed ++ (x :: rest).filter fun x => keep x.2.k x.2.v := by
  induction rest generalizing fuel h chains itr passed x with
  | nil =>
      obtain ⟨fuel, rfl⟩ := Nat.exists_eq_add_one.mpr hfuel
      obtain ⟨next, hentry⟩ := hat.entry hl
      obtain ⟨r, chains', hcall, hl', ⟨hend, -, hitems⟩ | ⟨y, ys, -, hcons, -⟩⟩ := turn_spec hl hat fun x => keep x.2.k x.2.v
      · refine ⟨r.2.2, chains', ?_, hl', hitems⟩
        simp only [sweep, hashtableIteratorKey, hashtableIteratorValue, hentry, ok_bind, pure_eq_ok, hcall, hend]
        rfl
      · cases hcons
  | cons y ys ih =>
      obtain ⟨fuel, rfl⟩ := Nat.exists_eq_add_one.mpr hfuel.pos
      obtain ⟨next, hentry⟩ := hat.entry hl
      obtain ⟨r, chains', hcall, hl', ⟨-, hnil, -⟩ | ⟨z, zs, hmore, hcons, hat'⟩⟩ := turn_spec hl hat fun x => keep x.2.k x.2.v
      · cases hnil
      · cases hcons
        obtain ⟨h'', chains'', hrest, hl'', hitems⟩ := ih hl' hat' (Nat.lt_of_succ_lt_succ hfuel)
        refine ⟨h'', chains'', ?_, hl'', ?_⟩
        · simp only [sweep, hashtableIteratorKey, hashtableIteratorValue, hentry, ok_bind, pure_eq_ok, hcall, hmore, hrest]
          rfl
        · rw [hitems, List.append_assoc, ← List.filter_append, List.singleton_append]

end Standing

/-! ## After any calls -/

section Runs

variable {hashfn : K → BitVec 32} {limit : Nat → Nat} [DecidableEq K] {h : Hashtable K V} {calls : List (Event K V)}

/-- A loop over a table that is not empty ends. It visits every entry once, and behind it the table has those that it kept. -/
theorem hashtable_iterator_sweep (hrun : (tableSystem hashfn limit).Runs calls h) (hcount : hashtableCount h ≠ 0) (keep : K → V → Bool) :
    ∃ visited h', sweep keep (hashtableCount h) h (hashtableIterator h) = .ok (visited, h') ∧ Holds hashfn h visited ∧
      Holds hashfn h' (visited.filter fun kv => keep kv.1 kv.2) ∧
      hashtableCount h' = (visited.filter fun kv => keep kv.1 kv.2).length := by
  obtain ⟨m, -, chains, hl, -⟩ := table_simulates_bag.runs hrun
  obtain ⟨x, rest, hat⟩ := iterator_spec hl hcount
  have hitems : items h.tablelength chains = x :: rest := hat.items_eq
  have hlength : hashtableCount h = rest.length + 1 := by rw [hashtableCount, hl.count, hitems, List.length_cons]
  have hfuel : rest.length < hashtableCount h := by
    rw [hlength]
    exact Nat.lt_succ_self _
  obtain ⟨h', chains', hcall, hl', hleft⟩ := sweep_spec keep hl hat hfuel
  have hpairs : pairs (items h'.tablelength chains') = (pairs (x :: rest)).filter fun kv => keep kv.1 kv.2 := by
    rw [hleft, List.nil_append, pairs, pairs, List.filter_map]
    rfl
  refine ⟨pairs (x :: rest), h', hcall, ⟨chains, hl, ?_⟩, ⟨chains', hl', ?_⟩, ?_⟩
  · rw [hitems]
  · rw [hpairs]
  · calc hashtableCount h' = (items h'.tablelength chains').length := hl'.count
      _ = (pairs (items h'.tablelength chains')).length := (List.length_map _).symm
      _ = ((pairs (x :: rest)).filter fun kv => keep kv.1 kv.2).length := by rw [hpairs]

/-- Two entries, of which the one with the larger key is kept. -/
theorem hashtable_iterator_sweep_pair : ∃ (h : Hashtable Nat Nat) (visited : List (Nat × Nat)) (h' : Hashtable Nat Nat),
    sweep (fun k _ => decide (1 < k)) (hashtableCount h) h (hashtableIterator h) = .ok (visited, h') ∧ Holds (fun _ => 0) h visited ∧
      Holds (fun _ => 0) h' (visited.filter fun kv => decide (1 < kv.1)) := by
  have hstart : (tableSystem (fun _ => 0) id).Runs [] (⟨fun _ => none, fun _ => none, 53, 0, 53, 0⟩ : Hashtable Nat Nat) :=
    .start ⟨16, rfl⟩
  have hone := hstart.step (@TableStep.inserted _ _ _ _ _ _ _ 1 10 .malloced 0 rfl rfl)
  have htwo := hone.step (@TableStep.inserted _ _ _ _ _ _ _ 54 20 .malloced 1 rfl rfl)
  obtain ⟨visited, h', hcall, hholds, hleft, -⟩ := hashtable_iterator_sweep htwo (Nat.succ_ne_zero _) fun k _ => decide (1 < k)
  exact ⟨_, visited, h', hcall, hholds, hleft⟩

end Runs

end BeagleCache.HashTable
