import BeagleCache.HashTableItr

/-! Hash tables whose values are pointers to memory of their own. Such a table with that memory holds a value for every key; a value is
read and written in place, and is freed when its entry is removed. -/

namespace BeagleCache.TableStore

open HashTable Chains Dictionary Function

variable {K α : Type}

/-- A table of pointers, with what is at the pointers. -/
structure Store (K α : Type) where
  ht : Hashtable K Ptr
  values : Ptr → Option α

/-- What `malloc` gives for a new value and its entry, and what it gives a table that grows. -/
structure Malloc where
  value : Ptr
  entry : Ptr
  memory : TableMemory

/-- The memory is new, and a table does not grow in place. -/
structure Malloc.Fresh (t : Store K α) (a : Malloc) : Prop where
  value : t.values a.value = none
  entry : t.ht.nodes a.entry = none
  memory : a.memory ≠ .realloced

/-- A read of a value. -/
def Store.read (t : Store K α) (p : Ptr) : Run α :=
  match t.values p with
  | some a => .ok a
  | none => .error .overrun

/-- A change of a value in place. -/
def Store.write (t : Store K α) (p : Ptr) (a : α) : Run (Store K α) := do
  let _ ← t.read p
  return { t with values := update t.values p (some a) }

/-- `free` of a value. -/
def Store.free (t : Store K α) (p : Ptr) : Run (Store K α) := do
  let _ ← t.read p
  return { t with values := update t.values p none }

section Functions

variable (hashfn : K → BitVec 32) (limit : Nat → Nat)

/-- A new value, put in by `hashtable_insert`. -/
def Store.insert (t : Store K α) (k : K) (a : α) (m : Malloc) : Run (Store K α) := do
  let r ← hashtableInsert hashfn limit t.ht k m.value m.memory (some m.entry)
  if r.1 = 0 then .error .exit
  else return ⟨r.2, update t.values m.value (some a)⟩

variable [DecidableEq K]

def Store.search (t : Store K α) (k : K) : Run (Option Ptr) := hashtableSearch hashfn t.ht k

/-- `hashtable_remove`, with the pointer that it gives. -/
def Store.remove (t : Store K α) (k : K) : Run (Option Ptr × Store K α) := do
  let r ← hashtableRemove hashfn t.ht k
  return (r.1, { t with ht := r.2 })

end Functions

/-- A loop that frees every value of a table and removes its entry. -/
def Store.drain : Nat → Store K α → Itr → Run (Store K α)
  | 0, _, _ => .error .hang
  | fuel + 1, t, itr => do
      let p ← hashtableIteratorValue t.ht itr
      let t ← t.free p
      let r ← hashtableIteratorRemove t.ht itr
      let t := { t with ht := r.2.2 }
      if r.1 then Store.drain fuel t r.2.1 else return t

/-! ## What a table holds -/

section Holds

variable {hashfn : K → BitVec 32} {limit : Nat → Nat} {t : Store K α} {m : K → Option α} {k : K} {p : Ptr} {a : α}

/-- There is one pointer for every key with a value, and no other value is allocated. -/
structure Points (values : Ptr → Option α) (f : K → Option Ptr) (m : K → Option α) : Prop where
  apart : ∀ k k' p, f k = some p → f k' = some p → k = k'
  owned : ∀ p, values p ≠ none → ∃ k, f k = some p
  valued : ∀ k p, f k = some p → values p ≠ none
  value : ∀ k, m k = (f k).bind values

/-- The table holds the values of a map. -/
def Stores (hashfn : K → BitVec 32) (t : Store K α) (m : K → Option α) : Prop := ∃ f, HoldsMap hashfn t.ht f ∧ Points t.values f m

theorem read_of (hp : t.values p = some a) : t.read p = .ok a := by
  unfold Store.read
  rw [hp]

theorem free_of (hp : t.values p ≠ none) : t.free p = .ok { t with values := update t.values p none } := by
  obtain ⟨a, ha⟩ := Option.ne_none_iff_exists'.mp hp
  unfold Store.free
  rw [read_of ha]
  rfl

namespace Points

variable {values : Ptr → Option α} {f : K → Option Ptr}

theorem none_iff (h : Points values f m) : f k = none ↔ m k = none := by
  rw [h.value k]
  constructor
  · intro hnone
    rw [hnone]
    rfl
  · intro hnone
    by_contra hsome
    obtain ⟨p, hp⟩ := Option.ne_none_iff_exists'.mp hsome
    rw [hp] at hnone
    exact h.valued k p hp hnone

theorem some_value (h : Points values f m) (hk : f k = some p) : ∃ a, values p = some a ∧ m k = some a := by
  obtain ⟨a, ha⟩ := Option.ne_none_iff_exists'.mp (h.valued k p hk)
  refine ⟨a, ha, ?_⟩
  rw [h.value k, hk]
  exact ha

variable [DecidableEq K]

/-- A value is changed in place. -/
theorem write (h : Points values f m) (hk : f k = some p) (b : α) :
    Points (update values p (some b)) f (update m k (some b)) where
  apart := h.apart
  owned := by
    intro q hq
    by_cases hqp : q = p
    · subst hqp
      exact ⟨k, hk⟩
    · rw [update_of_ne hqp] at hq
      exact h.owned q hq
  valued := by
    intro j q hj
    by_cases hqp : q = p
    · subst hqp
      rw [update_self]
      exact Option.some_ne_none b
    · rw [update_of_ne hqp]
      exact h.valued j q hj
  value := by
    intro j
    by_cases hj : j = k
    · subst hj
      rw [update_self, hk, Option.bind_some, update_self]
    · rw [update_of_ne hj, h.value j]
      refine Option.bind_congr fun q hq => (update_of_ne ?_ _ _).symm
      rintro rfl
      exact hj (h.apart j k q hq hk)

theorem insert (h : Points values f m) (hk : f k = none) (hp : values p = none) (a : α) :
    Points (update values p (some a)) (update f k (some p)) (update m k (some a)) := by
  have hother : ∀ j q, f j = some q → q ≠ p := by
    rintro j q hj rfl
    exact h.valued j q hj hp
  refine ⟨?_, ?_, ?_, ?_⟩
  · intro j j' q hj hj'
    by_cases hjk : j = k <;> by_cases hjk' : j' = k
    · rw [hjk, hjk']
    · subst hjk
      rw [update_self] at hj
      rw [update_of_ne hjk'] at hj'
      exact absurd (Option.some.inj hj).symm (hother j' q hj')
    · subst hjk'
      rw [update_self] at hj'
      rw [update_of_ne hjk] at hj
      exact absurd (Option.some.inj hj').symm (hother j q hj)
    · rw [update_of_ne hjk] at hj
      rw [update_of_ne hjk'] at hj'
      exact h.apart j j' q hj hj'
  · intro q hq
    by_cases hqp : q = p
    · subst hqp
      exact ⟨k, update_self ..⟩
    · rw [update_of_ne hqp] at hq
      obtain ⟨j, hj⟩ := h.owned q hq
      refine ⟨j, ?_⟩
      rwa [update_of_ne]
      rintro rfl
      exact Option.some_ne_none q (hj.symm.trans hk)
  · intro j q hj
    by_cases hqp : q = p
    · rw [hqp, update_self]
      exact Option.some_ne_none a
    · by_cases hjk : j = k
      · subst hjk
        rw [update_self] at hj
        exact absurd (Option.some.inj hj).symm hqp
      · rw [update_of_ne hjk] at hj
        rw [update_of_ne hqp]
        exact h.valued j q hj
  · intro j
    by_cases hjk : j = k
    · subst hjk
      rw [update_self, update_self, Option.bind_some, update_self]
    · rw [update_of_ne hjk, update_of_ne hjk, h.value j]
      exact Option.bind_congr fun q hq => (update_of_ne (hother j q hq) _ _).symm

theorem remove (h : Points values f m) (hk : f k = some p) :
    Points (update values p none) (update f k none) (update m k none) := by
  have hstill : ∀ j q, update f k none j = some q → j ≠ k ∧ f j = some q ∧ q ≠ p := by
    intro j q hj
    have hjk : j ≠ k := by
      rintro rfl
      rw [update_self] at hj
      cases hj
    rw [update_of_ne hjk] at hj
    refine ⟨hjk, hj, ?_⟩
    rintro rfl
    exact hjk (h.apart j k q hj hk)
  refine ⟨?_, ?_, ?_, ?_⟩
  · intro j j' q hj hj'
    exact h.apart j j' q (hstill j q hj).2.1 (hstill j' q hj').2.1
  · intro q hq
    have hqp : q ≠ p := by
      rintro rfl
      exact hq (update_self ..)
    rw [update_of_ne hqp] at hq
    obtain ⟨j, hj⟩ := h.owned q hq
    refine ⟨j, ?_⟩
    rwa [update_of_ne]
    rintro rfl
    exact hqp (Option.some.inj (hj.symm.trans hk))
  · intro j q hj
    rw [update_of_ne (hstill j q hj).2.2]
    exact h.valued j q (hstill j q hj).2.1
  · intro j
    by_cases hj : j = k
    · subst hj
      rw [update_self, update_self]
      rfl
    · rw [update_of_ne hj, update_of_ne hj, h.value j]
      refine Option.bind_congr fun q hq => (update_of_ne ?_ _ _).symm
      rintro rfl
      exact hj (h.apart j k q hq hk)

end Points

variable [DecidableEq K]

/-- The value of a key is at a pointer, where it is read and changed in place. -/
structure Has (hashfn : K → BitVec 32) (t : Store K α) (m : K → Option α) (k : K) (p : Ptr) (a : α) : Prop where
  value : m k = some a
  read : t.read p = .ok a
  write : ∀ b, ∃ t', t.write p b = .ok t' ∧ Stores hashfn t' (update m k (some b))

theorem Points.has {f : K → Option Ptr} (hf : HoldsMap hashfn t.ht f) (hpoints : Points t.values f m) (hk : f k = some p) :
    ∃ a, Has hashfn t m k p a := by
  obtain ⟨a, ha, hvalue⟩ := hpoints.some_value hk
  refine ⟨a, hvalue, read_of ha, fun b => ?_⟩
  refine ⟨{ t with values := update t.values p (some b) }, ?_, f, hf, hpoints.write hk b⟩
  rw [Store.write, read_of ha]
  rfl

theorem Stores.search (h : Stores hashfn t m) (k : K) : (m k = none ∧ t.search hashfn k = .ok none) ∨
    ∃ a p, t.search hashfn k = .ok (some p) ∧ Has hashfn t m k p a := by
  obtain ⟨f, hf, hpoints⟩ := h
  have hsearch : t.search hashfn k = .ok (f k) := hf.search k
  cases hk : f k with
  | none => exact .inl ⟨hpoints.none_iff.mp hk, by rw [hsearch, hk]⟩
  | some p =>
      obtain ⟨a, hhas⟩ := Points.has hf hpoints hk
      exact .inr ⟨a, p, by rw [hsearch, hk], hhas⟩

variable (limit) in
theorem Stores.insert (h : Stores hashfn t m) (hnone : m k = none) {n : Malloc} (hfresh : n.Fresh t) (a : α) :
    ∃ t', t.insert hashfn limit k a n = .ok t' ∧ Stores hashfn t' (update m k (some a)) ∧
      Has hashfn t' (update m k (some a)) k n.value a := by
  obtain ⟨f, hf, hpoints⟩ := h
  have hk := hpoints.none_iff.mpr hnone
  obtain ⟨ht, hcall, hholds⟩ := hf.insert limit hk hfresh.entry hfresh.memory n.value
  have hpoints' := hpoints.insert hk hfresh.value a
  obtain ⟨b, hhas⟩ := Points.has (t := ⟨ht, update t.values n.value (some a)⟩) hholds hpoints' (update_self ..)
  have hb : b = a := by
    have hvalue := hhas.value
    rw [update_self] at hvalue
    exact (Option.some.inj hvalue).symm
  refine ⟨⟨ht, update t.values n.value (some a)⟩, ?_, ⟨_, hholds, hpoints'⟩, hb ▸ hhas⟩
  rw [Store.insert, hcall]
  rfl

/-- An entry is removed, and its value freed. -/
theorem Stores.remove (h : Stores hashfn t m) (k : K) : (m k = none ∧ ∃ t', t.remove hashfn k = .ok (none, t') ∧ Stores hashfn t' m) ∨
    ∃ a p t' t'', m k = some a ∧ t.remove hashfn k = .ok (some p, t') ∧ t'.read p = .ok a ∧ t'.free p = .ok t'' ∧
      Stores hashfn t'' (update m k none) := by
  obtain ⟨f, hf, hpoints⟩ := h
  obtain ⟨ht, hcall, hholds⟩ := hf.remove k
  have hremove : t.remove hashfn k = .ok (f k, { t with ht := ht }) := by
    rw [Store.remove, hcall]
    rfl
  cases hk : f k with
  | none =>
      refine .inl ⟨hpoints.none_iff.mp hk, { t with ht := ht }, by rw [hremove, hk], f, ?_, hpoints⟩
      rwa [← hk, update_eq_self] at hholds
  | some p =>
      obtain ⟨a, ha, hvalue⟩ := hpoints.some_value hk
      have hcalled : t.remove hashfn k = .ok (some p, { t with ht := ht }) := by rw [hremove, hk]
      have hfree : Store.free { t with ht := ht } p = .ok ⟨ht, update t.values p none⟩ := free_of (hpoints.valued k p hk)
      exact .inr ⟨a, p, _, ⟨ht, update t.values p none⟩, hvalue, hcalled, read_of ha, hfree, _, hholds, hpoints.remove hk⟩

omit [DecidableEq K] in
theorem Stores.count (h : Stores hashfn t m) : hashtableCount t.ht = {k | m k ≠ none}.ncard := by
  obtain ⟨f, hf, hpoints⟩ := h
  rw [hf.count]
  refine congrArg Set.ncard (Set.ext fun k => ?_)
  rw [Set.mem_ofPred_eq, Set.mem_ofPred_eq]
  exact not_congr hpoints.none_iff

omit [DecidableEq K] in
/-- The values that the entries point to, each allocated once. -/
theorem Points.entries {f : K → Option Ptr} {h : Hashtable K Ptr} {chains : Nat → List (Ptr × Entry K Ptr)}
    {values : Ptr → Option α} (hpoints : Points values f m) (hbag : BagOf ↑(pairs (items h.tablelength chains)) f) :
    ((items h.tablelength chains).map fun x => x.2.v).Nodup ∧
      ∀ p, values p ≠ none ↔ p ∈ (items h.tablelength chains).map fun x => x.2.v := by
  have hvalues : (items h.tablelength chains).map (fun x => x.2.v) = (pairs (items h.tablelength chains)).map Prod.snd := by
    rw [pairs, List.map_map]
    rfl
  have hmem : ∀ k p, (k, p) ∈ pairs (items h.tablelength chains) ↔ f k = some p := fun k p => hbag.mem k p
  rw [hvalues]
  refine ⟨?_, fun p => ?_⟩
  · refine List.Nodup.map_on ?_ (List.Nodup.of_map Prod.fst (Multiset.coe_nodup.mp hbag.nodup))
    rintro ⟨k, p⟩ hkp ⟨k', p'⟩ hkp' heq
    cases heq
    rw [hpoints.apart k k' p ((hmem k p).mp hkp) ((hmem k' p).mp hkp')]
  · constructor
    · intro hp
      obtain ⟨k, hk⟩ := hpoints.owned p hp
      exact List.mem_map.mpr ⟨(k, p), (hmem k p).mpr hk, rfl⟩
    · intro hp
      obtain ⟨⟨k, q⟩, hkq, rfl⟩ := List.mem_map.mp hp
      exact hpoints.valued k q ((hmem k q).mp hkq)

omit [DecidableEq K] in
theorem drain_spec {chains : Nat → List (Ptr × Entry K Ptr)} {itr : Itr} {x : Ptr × Entry K Ptr} {rest : List (Ptr × Entry K Ptr)}
    {fuel : Nat} (hl : Linked hashfn t.ht chains) (hat : Standing t.ht chains itr [] x rest) (hfuel : rest.length < fuel)
    (hnodup : ((x :: rest).map fun x => x.2.v).Nodup) (hvalues : ∀ p, t.values p ≠ none ↔ p ∈ (x :: rest).map fun x => x.2.v) :
    ∃ ht chains', t.drain fuel itr = .ok ⟨ht, fun _ => none⟩ ∧ Linked hashfn ht chains' ∧ items ht.tablelength chains' = [] := by
  induction rest generalizing t fuel chains itr x with
  | nil =>
      obtain ⟨fuel, rfl⟩ := Nat.exists_eq_add_one.mpr hfuel
      obtain ⟨next, hentry⟩ := hat.entry hl
      have hfree : t.free x.2.v = .ok { t with values := update t.values x.2.v none } :=
        free_of ((hvalues x.2.v).mpr List.mem_cons_self)
      have hnone : update t.values x.2.v none = fun _ => none := by
        funext p
        by_cases hp : p = x.2.v
        · rw [hp, update_self]
        · rw [update_of_ne hp]
          by_contra hsome
          exact hp (List.mem_singleton.mp ((hvalues p).mp hsome))
      obtain ⟨r, chains', hcall, hl', ⟨hend, -, hitems⟩ | ⟨y, ys, -, hcons, -⟩⟩ := remove_spec hl hat
      · refine ⟨r.2.2, chains', ?_, hl', hitems⟩
        simp only [Store.drain, hashtableIteratorValue, hentry, Run.ok_bind, Run.pure_eq_ok, hfree, hcall, hend, hnone]
        rfl
      · cases hcons
  | cons y ys ih =>
      obtain ⟨fuel, rfl⟩ := Nat.exists_eq_add_one.mpr hfuel.pos
      obtain ⟨next, hentry⟩ := hat.entry hl
      have hfree : t.free x.2.v = .ok { t with values := update t.values x.2.v none } :=
        free_of ((hvalues x.2.v).mpr List.mem_cons_self)
      obtain ⟨r, chains', hcall, hl', ⟨-, hnil, -⟩ | ⟨z, zs, hmore, hcons, hat'⟩⟩ := remove_spec hl hat
      · cases hnil
      · cases hcons
        rw [List.map_cons, List.nodup_cons] at hnodup
        have hleft : ∀ p, update t.values x.2.v none p ≠ none ↔ p ∈ (y :: ys).map fun x => x.2.v := by
          intro p
          by_cases hp : p = x.2.v
          · subst hp
            rw [update_self]
            exact iff_of_false (fun hne => hne rfl) hnodup.1
          · rw [update_of_ne hp, hvalues p, List.map_cons, List.mem_cons]
            exact or_iff_right hp
        obtain ⟨ht, chains'', hrest, hl'', hitems⟩ := ih (t := ⟨r.2.2, update t.values x.2.v none⟩) hl' hat'
          (Nat.lt_of_succ_lt_succ hfuel) hnodup.2 hleft
        refine ⟨ht, chains'', ?_, hl'', hitems⟩
        simp only [Store.drain, hashtableIteratorValue, hentry, Run.ok_bind, Run.pure_eq_ok, hfree, hcall, hmore]
        exact hrest

omit [DecidableEq K] in
/-- There is memory that a table does not use. -/
theorem Stores.fresh (h : Stores hashfn t m) : ∃ n : Malloc, n.Fresh t := by
  obtain ⟨f, ⟨bag, ⟨chains, hl, rfl⟩, hbag⟩, hpoints⟩ := h
  obtain ⟨-, hvalues⟩ := hpoints.entries hbag
  obtain ⟨p, hp⟩ := Infinite.exists_notMem_finset ((items t.ht.tablelength chains).map fun x => x.2.v).toFinset
  obtain ⟨e, he⟩ := Infinite.exists_notMem_finset (keys (items t.ht.tablelength chains)).toFinset
  rw [List.mem_toFinset] at hp he
  have hmemory : TableMemory.malloced ≠ .realloced := by decide
  refine ⟨⟨p, e, .malloced⟩, ?_, hl.fresh_iff.mpr he, hmemory⟩
  by_contra hused
  exact hp ((hvalues p).mp hused)

omit [DecidableEq K] in
/-- A table without entries has nothing. -/
theorem Stores.of_count (h : Stores hashfn t m) (hcount : hashtableCount t.ht = 0) : (m = fun _ => none) ∧ t.values = fun _ => none := by
  obtain ⟨f, ⟨bag, ⟨chains, hl, rfl⟩, hbag⟩, hpoints⟩ := h
  have hnil : items t.ht.tablelength chains = [] := List.length_eq_zero_iff.mp (hl.count.symm.trans hcount)
  obtain ⟨-, hvalues⟩ := hpoints.entries hbag
  rw [hnil] at hvalues hbag
  refine ⟨funext fun k => hpoints.none_iff.mp (hbag.none_iff.mp fun p => List.not_mem_nil), funext fun p => ?_⟩
  by_contra hp
  exact List.not_mem_nil ((hvalues p).mp hp)

omit [DecidableEq K] in
/-- A loop that frees the values and removes the entries leaves nothing of a table. -/
theorem Stores.drain (h : Stores hashfn t m) (hcount : hashtableCount t.ht ≠ 0) :
    ∃ t', t.drain (hashtableCount t.ht) (hashtableIterator t.ht) = .ok t' ∧ Stores hashfn t' (fun _ => none) ∧
      t'.values = fun _ => none := by
  obtain ⟨f, ⟨bag, ⟨chains, hl, rfl⟩, hbag⟩, hpoints⟩ := h
  obtain ⟨x, rest, hat⟩ := iterator_spec hl hcount
  have hitems : items t.ht.tablelength chains = x :: rest := hat.items_eq
  obtain ⟨hnodup, hvalues⟩ := hpoints.entries hbag
  rw [hitems] at hnodup hvalues
  have hfuel : rest.length < hashtableCount t.ht := by
    rw [hashtableCount, hl.count, hitems]
    exact Nat.lt_succ_self _
  obtain ⟨ht, chains', hcall, hl', hnil⟩ := drain_spec hl hat hfuel hnodup hvalues
  refine ⟨⟨ht, fun _ => none⟩, hcall, ⟨fun _ => none, ⟨0, ⟨chains', hl', ?_⟩, .empty⟩, ?_⟩, rfl⟩
  · rw [hnil]
    rfl
  · exact ⟨fun _ _ _ hk => absurd hk (Option.some_ne_none _).symm, fun _ hp => absurd rfl hp,
      fun _ _ hk => absurd hk (Option.some_ne_none _).symm, fun _ => rfl⟩

omit [DecidableEq K] in
theorem stores_create {minsize : Nat} {h : Hashtable K Ptr} (hcreate : createHashtable limit minsize = some h) :
    Stores hashfn (⟨h, fun _ => none⟩ : Store K α) fun _ => none := by
  refine ⟨fun _ => none, ?_, fun _ _ _ hk => absurd hk (Option.some_ne_none _).symm, fun _ hp => absurd rfl hp,
    fun _ _ hk => absurd hk (Option.some_ne_none _).symm, fun _ => rfl⟩
  have hempty : items h.tablelength (fun _ => ([] : List (Ptr × Entry K Ptr))) = [] := List.flatMap_eq_nil_iff.mpr fun _ _ => rfl
  refine ⟨0, ⟨fun _ => [], linked_create hcreate, ?_⟩, .empty⟩
  rw [hempty, pairs, List.map_nil, Multiset.coe_nil]

end Holds

end BeagleCache.TableStore
