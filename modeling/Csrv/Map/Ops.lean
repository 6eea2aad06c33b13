import Csrv.Lib.OrderedMap
import Csrv.Map.Resize

/-!
# The table refines an insertion-ordered map

`Refines m s`: the table `m` stores the ordered map `s`. Each operation of `map.c` ends and
computes what its counterpart on ordered maps does: `hashmap_get` looks up, `hashmap_remove`
erases, `hashmap_set_free` inserts and runs the callback exactly on an overwritten entry, and
`hashmap_iterate` passes the first entries in order to its callback, all of them exactly if none
lies behind the first `iterateLimit` nodes of the list.
-/

namespace Csrv.Map

open LinearProbe Rounding Threaded

/-- The table `m` with list `order`: its layout, its counters and its load. -/
structure Rep (m : Hashmap) (order : List ℕ) : Prop where
  layout : Layout m order none
  cap_eq : ∃ j, m.capacity = hashmapDefaultCapacity * hashmapResizeFactor ^ j
  count_eq : m.count = order.length
  tomb_eq : m.tombstoneCount + (m.entriesOf order).length = m.count
  load : 4 * toFloat m.count ≤ 3 * m.capacity

/-- The table `m` stores the ordered map `s`. -/
def Refines (m : Hashmap) (s : OrderedMap Key ℕ) : Prop :=
  ∃ order, Rep m order ∧ m.entriesOf order = s.entries

/-- The list nodes from `p` on, at most `fuel` of them. -/
def nodesFrom (buckets : ℕ → Bucket) : ℕ → Option ℕ → List ℕ
  | 0, _ => []
  | _ + 1, none => []
  | fuel + 1, some i => i :: nodesFrom buckets fuel (buckets i).next

namespace Hashmap

/-- The used buckets in the order of the list. -/
def nodes (m : Hashmap) : List ℕ := nodesFrom m.buckets m.capacity m.first

/-- Every entry is among the nodes that `hashmap_iterate` visits. -/
def Within (m : Hashmap) : Prop := ∀ i ∈ m.nodes.drop iterateLimit, (m.buckets i).key = none

end Hashmap

/-- What a table that stores `s` answers for the key `k`. -/
def answer (s : OrderedMap Key ℕ) (k : Key) : Bool × ℕ :=
  match s.find? k with
  | some v => (true, v)
  | none => (false, 0)

/-! ## The load test -/

/-- The counters of a table, which decide when it grows. -/
structure Counters where
  capacity : ℕ
  count : ℕ
  tombstoneCount : ℕ

def Hashmap.counters (m : Hashmap) : Counters := ⟨m.capacity, m.count, m.tombstoneCount⟩

namespace Counters

def full (c : Counters) : Bool := toFloat (3 * toFloat c.capacity) < 4 * toFloat (c.count + 1)

/-- A resize, if the load test asks for one. -/
def grow (c : Counters) : Counters :=
  if c.full then ⟨c.capacity * hashmapResizeFactor, c.count - c.tombstoneCount, 0⟩ else c

/-- One more bucket in use. -/
def add (c : Counters) : Counters := { c with count := c.count + 1 }

/-- One more tombstone. -/
def bury (c : Counters) : Counters := { c with tombstoneCount := c.tombstoneCount + 1 }

end Counters

section Load

variable {c : Counters} {j n cap : ℕ}

theorem toFloat_of_le (h : n ≤ 2 ^ 24) : toFloat n = n := roundBits_of_le (by decide) h

theorem toFloat_error : 2 ^ 24 * toFloat n ≤ 2 ^ 24 * n + n ∧ 2 ^ 24 * n ≤ 2 ^ 24 * toFloat n + n :=
  roundBits_error

/-- The capacities of a table and their load limits are `float`s. -/
theorem Counters.full_iff (h : c.capacity = hashmapDefaultCapacity * hashmapResizeFactor ^ j) :
    c.full = true ↔ 3 * c.capacity < 4 * toFloat (c.count + 1) := by
  have h₁ : toFloat c.capacity = c.capacity := by
    rw [h]
    exact roundBits_mul_two_pow (by decide) j
  have h₂ : toFloat (3 * c.capacity) = 3 * c.capacity := by
    rw [h, ← Nat.mul_assoc]
    exact roundBits_mul_two_pow (by decide) j
  rw [full, h₁, h₂, decide_eq_true_iff]

/-- A resize for one more bucket doubles a table that is small for its content. -/
theorem Counters.grow_le {k : ℕ}
    (hcap : c.capacity = hashmapDefaultCapacity * hashmapResizeFactor ^ j)
    (hcount : c.count + 1 ≤ k) : c.grow.count ≤ c.count ∧
      c.grow.tombstoneCount ≤ c.tombstoneCount ∧ c.grow.capacity ≤ max c.capacity (3 * k) := by
  unfold Counters.grow
  split_ifs with hfull
  · have hload := (Counters.full_iff hcap).mp hfull
    have herr := toFloat_error (n := c.count + 1)
    refine ⟨Nat.sub_le _ _, Nat.zero_le _, le_max_of_le_right ?_⟩
    show c.capacity * 2 ≤ 3 * k
    omega
  · exact ⟨le_rfl, le_rfl, le_max_left _ _⟩

/-- A number that passes the load test as a `float`. -/
theorem le_of_load (h : 4 * toFloat n ≤ 3 * cap) : 10 * n ≤ 8 * cap := by
  have := toFloat_error (n := n)
  omega

end Load

section Rep

variable {m : Hashmap} {order : List ℕ} {s : OrderedMap Key ℕ} {k : Key} {v : ℕ}

theorem Rep.cap_ge (hR : Rep m order) : hashmapDefaultCapacity ≤ m.capacity := by
  obtain ⟨j, hj⟩ := hR.cap_eq
  rw [hj]
  exact Nat.le_mul_of_pos_right _ (Nat.pow_pos (by decide))

theorem Rep.room (hR : Rep m order) : order.length < m.capacity := by
  have h₁ := le_of_load hR.load
  have h₂ := hR.layout.cap_pos
  have h₃ := hR.count_eq
  omega

/-- Below half of the range of an `int` nothing overflows. -/
theorem Refines.ints (h : Refines m s) (hcap : m.capacity < 2 ^ 30) : m.Ints := by
  obtain ⟨order, hR, -⟩ := h
  have hroom := hR.room
  have hcount := hR.count_eq
  have htomb := hR.tomb_eq
  exact ⟨by unfold hashmapResizeFactor; omega, by omega, by omega⟩

theorem create_refines : Refines hashmapCreate .empty := by
  refine ⟨[], ⟨⟨by decide, List.nodup_nil, fun i => ?_, rfl, rfl, ?_, ?_, ?_⟩, ⟨0, rfl⟩, rfl, rfl,
    by decide⟩, rfl⟩
  · exact ⟨fun h => absurd h List.not_mem_nil, fun h => absurd h.2 Bucket.not_busy_empty⟩
  · intro i k _ hk
    cases hk
  · intro i k _ hk
    cases hk
  · intro i j k _ _ hk
    cases hk

theorem Rep.find?_eq_some_iff (hR : Rep m order) (hs : m.entriesOf order = s.entries) :
    s.find? k = some v ↔ ∃ i < m.capacity, (m.buckets i).key = some k ∧ (m.buckets i).value = v := by
  rw [OrderedMap.find?_eq_some_iff, ← hs, hR.layout.mem_entriesOf]

theorem Rep.find?_eq_none_iff (hR : Rep m order) (hs : m.entriesOf order = s.entries) :
    s.find? k = none ↔ ∀ i < m.capacity, (m.buckets i).key ≠ some k := by
  rw [OrderedMap.find?_eq_none_iff, ← hs, hR.layout.key_mem_entriesOf]
  push Not
  rfl

/-- **Get.** -/
theorem hashmapGet_spec (h : Refines m s) : hashmapGet m k = some (answer s k) := by
  obtain ⟨order, hR, hs⟩ := h
  rw [answer]
  cases hf : s.find? k with
  | none =>
    obtain ⟨e, -, he, hfree, -⟩ :=
      hR.layout.findEntry_miss hR.room ((hR.find?_eq_none_iff hs).mp hf)
    simp [hashmapGet, he, Bucket.key_of_not_busy hfree, Bucket.value_of_not_busy hfree]
  | some v =>
    obtain ⟨i, hi, hk, hv⟩ := (hR.find?_eq_some_iff hs).mp hf
    simp [hashmapGet, hR.layout.findEntry_hit hi hk, hk, hv]

/-- A table stores one map. -/
theorem Refines.find?_unique {t : OrderedMap Key ℕ} (hs : Refines m s) (ht : Refines m t)
    (k : Key) : s.find? k = t.find? k := by
  have h : answer s k = answer t k :=
    Option.some.inj ((hashmapGet_spec hs).symm.trans (hashmapGet_spec ht))
  unfold answer at h
  cases hs' : s.find? k <;> cases ht' : t.find? k <;> rw [hs', ht'] at h
  · cases h
  · cases h
  · cases h
    rfl

end Rep

/-! ## Writing one bucket -/

section Write

variable {m : Hashmap} {order : List ℕ} {q : Option ℕ} {i : ℕ} {b : Bucket}

theorem setBucket_of_ne {j : ℕ} (h : j ≠ i) : (m.setBucket i b).buckets j = m.buckets j :=
  Function.update_of_ne h ..

theorem setBucket_self : (m.setBucket i b).buckets i = b := Function.update_self ..

/-- A busy bucket may be overwritten in place by a busy one that is linked alike and holds the
same key or none. -/
theorem Layout.setBucket (hL : Layout m order q) (hi : i ∈ order) (hb : b.Busy)
    (hn : b.next = (m.buckets i).next) (hh : b.hash = (m.buckets i).hash)
    (hk : b.key = (m.buckets i).key ∨ b.key = none) : Layout (m.setBucket i b) order q := by
  have hbusy : ∀ j, (m.setBucket i b).Busy j ↔ m.Busy j := fun j => by
    by_cases hji : j = i
    · subst hji
      rw [Hashmap.Busy, setBucket_self]
      exact iff_of_true hb ((hL.mem_iff j).mp hi).2
    · rw [Hashmap.Busy, setBucket_of_ne hji, Hashmap.Busy]
  have hkey : ∀ j k, ((m.setBucket i b).buckets j).key = some k → (m.buckets j).key = some k := by
    intro j k hj
    by_cases hji : j = i
    · subst hji
      rw [setBucket_self] at hj
      rcases hk with h | h
      · rw [← h, hj]
      · rw [h] at hj
        cases hj
    · rwa [setBucket_of_ne hji] at hj
  have hnext : ∀ j, (m.setBucket i b).nextOf j = m.nextOf j := fun j => by
    by_cases hji : j = i
    · subst hji
      rw [Hashmap.nextOf, setBucket_self, hn, Hashmap.nextOf]
    · rw [Hashmap.nextOf, setBucket_of_ne hji, Hashmap.nextOf]
  refine ⟨hL.cap_pos, hL.nodup, fun j => ?_, ?_, hL.last_eq, ?_, ?_, ?_⟩
  · rw [hL.mem_iff, hbusy]
    rfl
  · exact (seg_congr fun j _ => hnext j).mpr hL.seg
  · intro j k hj hjk
    rw [← hL.hash_eq j k hj (hkey j k hjk)]
    by_cases hji : j = i
    · subst hji
      rw [setBucket_self, hh]
    · rw [setBucket_of_ne hji]
  · intro j k hj hjk
    exact (hL.clear j k hj (hkey j k hjk)).mono fun j hj => (hbusy j).mpr hj
  · intro j j' k hj hj' hjk hjk'
    exact hL.inj j j' k hj hj' (hkey j k hjk) (hkey j' k hjk')

/-- Overwriting one bucket changes the entries at that bucket alone. -/
theorem entriesOf_setBucket (hL : Layout m order q) {k : Key} (hi : i < m.capacity)
    (hk : (m.buckets i).key = some k) :
    (m.setBucket i b).entriesOf order =
      (m.entriesOf order).flatMap fun e => if e.1 = k then b.pair?.toList else [e] := by
  have hpt : ∀ j ∈ order, ((m.setBucket i b).buckets j).pair? =
      if (m.buckets j).key = some k then b.pair? else (m.buckets j).pair? := by
    intro j hj
    by_cases hji : j = i
    · subst hji
      rw [setBucket_self, if_pos hk]
    · rw [setBucket_of_ne hji, if_neg fun h => hji (hL.inj j i k (hL.lt_of_mem hj) hi h hk)]
  rw [Hashmap.entriesOf, List.filterMap_congr hpt, Hashmap.entriesOf]
  generalize order = l
  induction l with
  | nil => rfl
  | cons j l ih =>
    rw [List.filterMap_cons, List.filterMap_cons, ih]
    cases hj : (m.buckets j).key with
    | none => simp [Bucket.pair?, hj]
    | some k' =>
      have he : (m.buckets j).pair? = some (k', (m.buckets j).value) :=
        Bucket.pair?_eq_some.mpr ⟨hj, rfl⟩
      rw [he]
      by_cases hkk : k' = k
      · rw [if_pos (congrArg some hkk), List.flatMap_cons, if_pos hkk]
        cases b.pair? <;> rfl
      · rw [if_neg (mt Option.some.inj hkk), List.flatMap_cons, if_neg hkk]
        rfl

end Write

/-! ## The operations -/

section Ops

variable {m : Hashmap} {s : OrderedMap Key ℕ} {k : Key} {v : ℕ}

theorem erase_entries_eq :
    (s.erase k).entries = s.entries.flatMap fun e => if e.1 = k then [] else [e] := by
  show (s.entries.filter fun e => e.1 ≠ k) = _
  generalize s.entries = l
  induction l with
  | nil => rfl
  | cons e l ih =>
    rw [List.flatMap_cons, ← ih, List.filter_cons]
    by_cases he : e.1 = k <;> simp [he]

theorem overwrite_entries_eq :
    (s.overwrite k v).entries = s.entries.flatMap fun e => if e.1 = k then [(k, v)] else [e] := by
  show (s.entries.map fun e => if e.1 = k then (k, v) else e) = _
  generalize s.entries = l
  induction l with
  | nil => rfl
  | cons e l ih =>
    rw [List.flatMap_cons, ← ih, List.map_cons]
    by_cases he : e.1 = k <;> simp [he]

/-- **Remove.** -/
theorem hashmapRemove_spec (h : Refines m s) :
    ∃ m', hashmapRemove m k = some m' ∧ Refines m' (s.erase k) ∧ m'.counters =
      if s.find? k = none then m.counters else m.counters.bury := by
  obtain ⟨order, hR, hs⟩ := h
  have hL := hR.layout
  cases hf : s.find? k with
  | none =>
    obtain ⟨e, -, he, hfree, -⟩ := hL.findEntry_miss hR.room ((hR.find?_eq_none_iff hs).mp hf)
    refine ⟨m, by simp [hashmapRemove, he, Bucket.key_of_not_busy hfree], ?_⟩
    rw [OrderedMap.erase_of_none hf]
    exact ⟨⟨order, hR, hs⟩, rfl⟩
  | some v =>
    obtain ⟨i, hi, hk, -⟩ := (hR.find?_eq_some_iff hs).mp hf
    -- the tombstone keeps the bucket busy and linked
    let b : Bucket := { m.buckets i with key := none, value := tombstone }
    have hL' : Layout (m.setBucket i b) order none :=
      hL.setBucket (hL.mem_of_key hi hk) (Or.inr (by decide : tombstone ≠ 0)) rfl rfl (Or.inr rfl)
    have hent : (m.setBucket i b).entriesOf order = (s.erase k).entries := by
      rw [entriesOf_setBucket hL hi hk, hs, erase_entries_eq]
      rfl
    have hrem : hashmapRemove m k =
        some { m.setBucket i b with tombstoneCount := m.tombstoneCount + 1 } := by
      simp [hashmapRemove, hL.findEntry_hit hi hk, hk, b, Hashmap.setBucket]
    refine ⟨_, hrem, ⟨order, ⟨⟨hL'.cap_pos, hL'.nodup, hL'.mem_iff, hL'.seg, hL'.last_eq,
      hL'.hash_eq, hL'.clear, hL'.inj⟩, hR.cap_eq, hR.count_eq, ?_, hR.load⟩, hent⟩, rfl⟩
    have htomb := hR.tomb_eq
    have hlen := OrderedMap.length_erase hf
    show m.tombstoneCount + 1 + ((m.setBucket i b).entriesOf order).length = m.count
    rw [hs] at htomb
    rw [hent]
    omega

/-- After the load test there is room for one more entry, and nothing was lost. -/
theorem resizeIfFull_spec (h : Refines m s) :
    ∃ t order, resizeIfFull m = some t ∧ Rep t order ∧ t.entriesOf order = s.entries ∧
      4 * toFloat (t.count + 1) ≤ 3 * t.capacity ∧ t.counters = m.counters.grow := by
  obtain ⟨order, hR, hs⟩ := h
  unfold resizeIfFull
  have hcount := hR.count_eq
  have hcap := hR.cap_ge
  have hload := le_of_load hR.load
  have htomb := hR.tomb_eq
  obtain ⟨j, hj⟩ := hR.cap_eq
  have hfull : needsResize m = true ↔ 3 * m.capacity < 4 * toFloat (m.count + 1) :=
    Counters.full_iff (c := m.counters) hj
  unfold hashmapDefaultCapacity at hcap
  by_cases hn : needsResize m = true
  · rw [if_pos hn]
    rw [hfull] at hn
    have hne : order ≠ [] := by
      rintro rfl
      rw [List.length_nil] at hcount
      rw [hcount, toFloat_of_le (by decide)] at hn
      omega
    obtain ⟨t, ord, ht, hLt, hent, htc, htn, htt, hlen⟩ :=
      hashmapResize_spec hR.layout hR.room.le hne
    rw [hs] at hent hlen htomb
    have h₁ := toFloat_error (n := t.count)
    have h₂ := toFloat_error (n := t.count + 1)
    refine ⟨t, ord, ht, ⟨hLt, ⟨j + 1, ?_⟩, by omega, by rw [hent]; omega, by omega⟩, hent,
      by omega, ?_⟩
    · rw [htc, hj, pow_succ, Nat.mul_assoc]
      rfl
    · have hg : m.counters.full = true := hfull.mpr hn
      rw [Counters.grow, if_pos hg, Hashmap.counters, htc, htn, htt]
      rfl
  · rw [if_neg hn]
    refine ⟨m, order, rfl, hR, hs, ?_, ?_⟩
    · rw [hfull] at hn
      omega
    · have hg : ¬ m.counters.full = true := hn
      rw [Counters.grow, if_neg hg]

/-- **Set.** The callback runs exactly on the entry that is overwritten. -/
theorem hashmapSetFree_spec (h : Refines m s) :
    ∃ m', hashmapSetFree m k v = some (m', (s.find? k).toList.map (k, ·)) ∧
      Refines m' (s.insert k v) ∧ m'.counters =
        if s.find? k = none then m.counters.grow.add else m.counters.grow := by
  obtain ⟨t, order, ht, hR, hs, hroom, hgrow⟩ := resizeIfFull_spec h
  have hL := hR.layout
  have hcount := hR.count_eq
  cases hf : s.find? k with
  | none =>
    have habsent := (hR.find?_eq_none_iff hs).mp hf
    obtain ⟨e, helt, he, hfree, hclear⟩ := hL.findEntry_miss hR.room habsent
    let b : Bucket := ⟨none, some k, hashData k, v⟩
    have hL' : Layout (t.link e b) (order ++ [e]) none :=
      hL.link (b := b) helt hfree rfl rfl hclear habsent
    have hent : (t.link e b).entriesOf (order ++ [e]) = s.entries ++ [(k, v)] := by
      rw [hL.entriesOf_link hfree, hs]
      rfl
    have hset : hashmapSetFree m k v =
        some ({ t.link e b with count := t.count + 1 }, []) := by
      rw [hashmapSetFree, ht]
      simp only [Option.bind_eq_bind, Option.bind_some, he, Bucket.key_of_not_busy hfree,
        Hashmap.link_eq_setBucket b (hL.last_ne hfree), Hashmap.link_count, b]
    refine ⟨_, hset, ⟨order ++ [e], ⟨⟨hL'.cap_pos, hL'.nodup, hL'.mem_iff, hL'.seg, hL'.last_eq,
      hL'.hash_eq, hL'.clear, hL'.inj⟩, ?_, ?_, ?_, ?_⟩, ?_⟩, ?_⟩
    · have := hR.cap_eq
      rwa [← Hashmap.link_capacity t e b] at this
    · simp [hcount]
    · have htomb := hR.tomb_eq
      show (t.link e b).tombstoneCount + ((t.link e b).entriesOf (order ++ [e])).length = t.count + 1
      rw [hs] at htomb
      rw [hent, Hashmap.link_tombstoneCount, List.length_append, List.length_singleton]
      omega
    · show 4 * toFloat (t.count + 1) ≤ 3 * (t.link e b).capacity
      rwa [Hashmap.link_capacity]
    · rw [OrderedMap.insert_of_none hf]
      exact hent
    · rw [if_pos rfl, ← hgrow]
      simp [Hashmap.counters, Counters.add, Hashmap.link_tombstoneCount]
  | some v' =>
    obtain ⟨i, hi, hk, hv⟩ := (hR.find?_eq_some_iff hs).mp hf
    let b : Bucket := { t.buckets i with key := some k, value := v }
    have hL' : Layout (t.setBucket i b) order none :=
      hL.setBucket (hL.mem_of_key hi hk) (Bucket.busy_of_key rfl) rfl rfl (Or.inl hk.symm)
    have hent : (t.setBucket i b).entriesOf order = (s.overwrite k v).entries := by
      rw [entriesOf_setBucket hL hi hk, hs, overwrite_entries_eq]
      rfl
    have hset : hashmapSetFree m k v = some (t.setBucket i b, [(k, v')]) := by
      rw [hashmapSetFree, ht]
      simp only [Option.bind_eq_bind, Option.bind_some, hL.findEntry_hit hi hk, hk, hv, b]
    refine ⟨_, hset, ⟨order, ⟨hL', hR.cap_eq, hR.count_eq, ?_, hR.load⟩, ?_⟩, hgrow⟩
    · have htomb := hR.tomb_eq
      rw [hs] at htomb
      rw [hent, OrderedMap.length_overwrite]
      exact htomb
    · rw [OrderedMap.insert_of_some hf]
      exact hent

theorem iterateFrom_eq {order : List ℕ} {p : Option ℕ} {fuel : ℕ}
    (h : Seg m.nextOf p order none) :
    iterateFrom m.buckets fuel p = m.entriesOf (order.take fuel) := by
  induction fuel generalizing order p with
  | zero => rfl
  | succ fuel ih =>
    cases order with
    | nil =>
      cases h
      rfl
    | cons i order =>
      obtain ⟨rfl, h⟩ := h
      rw [iterateFrom, List.take_succ_cons, Hashmap.entriesOf, List.filterMap_cons, Bucket.pair?]
      have := ih h
      rw [Hashmap.nextOf, Hashmap.entriesOf] at this
      cases (m.buckets i).key <;> simp [this]

/-- **Iterate.** The callback gets a prefix of the entries. -/
theorem prefix_hashmapIterate (h : Refines m s) : hashmapIterate m <+: s.entries := by
  obtain ⟨order, hR, hs⟩ := h
  rw [hashmapIterate, iterateFrom_eq hR.layout.seg, ← hs]
  exact (List.take_prefix _ _).filterMap _

theorem nodes_eq {order : List ℕ} (hR : Rep m order) : m.nodes = order := by
  have h : ∀ {order : List ℕ} {p : Option ℕ} {fuel : ℕ}, Seg m.nextOf p order none →
      order.length ≤ fuel → nodesFrom m.buckets fuel p = order := by
    intro order
    induction order with
    | nil =>
      intro p fuel hs _
      cases hs
      cases fuel <;> rfl
    | cons i order ih =>
      rintro p fuel ⟨rfl, hs⟩ hf
      cases fuel with
      | zero => simp at hf
      | succ fuel =>
        rw [nodesFrom]
        exact congrArg (i :: ·) (ih hs (by simpa using hf))
  exact h hR.layout.seg hR.room.le

/-- **A complete pass.** The callback gets every entry exactly if none lies behind the nodes that
`hashmap_iterate` visits. -/
theorem hashmapIterate_eq_iff (h : Refines m s) : hashmapIterate m = s.entries ↔ m.Within := by
  obtain ⟨order, hR, hs⟩ := h
  have hsplit : m.entriesOf order =
      m.entriesOf (order.take iterateLimit) ++ m.entriesOf (order.drop iterateLimit) := by
    unfold Hashmap.entriesOf
    rw [← List.filterMap_append, List.take_append_drop]
  rw [hashmapIterate, iterateFrom_eq hR.layout.seg, ← hs, hsplit, List.self_eq_append_right,
    Hashmap.Within, nodes_eq hR, Hashmap.entriesOf, List.filterMap_eq_nil_iff]
  simp only [Bucket.pair?, Option.map_eq_none_iff]

theorem length_hashmapIterate_le (m : Hashmap) : (hashmapIterate m).length ≤ iterateLimit := by
  have h : ∀ (fuel : ℕ) (p : Option ℕ), (iterateFrom m.buckets fuel p).length ≤ fuel := by
    intro fuel
    induction fuel with
    | zero => exact fun _ => le_rfl
    | succ fuel ih =>
      intro p
      cases p with
      | none => exact Nat.zero_le _
      | some i =>
        have := ih (m.buckets i).next
        rw [iterateFrom]
        cases (m.buckets i).key with
        | none => exact this.trans (Nat.le_succ _)
        | some k => exact Nat.succ_le_succ this
  exact h _ _

end Ops

end Csrv.Map
