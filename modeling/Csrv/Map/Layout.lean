import Csrv.Lib.Threaded
import Csrv.Map.Table

/-!
# The layout invariant of the table

`Layout m order q`: the used buckets of `m` are exactly the slots `order`, the list starting at
`first` visits them in that order and ends at the pointer `q`, every entry is reachable from the
home slot of its key without passing an empty bucket, and no key occurs twice. A finished table
has `q = none`; inside `hashmap_resize` the pointer `q` still leads into the old array.

`Layout.findEntry_hit` and `Layout.findEntry_miss` say where `find_entry` ends, and `Layout.link`
that appending a fresh entry keeps the layout. Everything about the operations follows from these.
-/

namespace Csrv.Map

open LinearProbe Threaded

namespace Bucket

/-- Neither empty nor never used: an entry or a tombstone. -/
def Busy (b : Bucket) : Prop := b.key ≠ none ∨ b.value ≠ 0

/-- The key and value of a bucket that holds an entry. -/
def pair? (b : Bucket) : Option (Key × ℕ) := b.key.map (·, b.value)

theorem not_busy_empty : ¬ empty.Busy := by simp [Busy, empty]

theorem busy_of_key {b : Bucket} {k : Key} (h : b.key = some k) : b.Busy :=
  Or.inl (by simp [h])

theorem value_of_not_busy {b : Bucket} (h : ¬ b.Busy) : b.value = 0 := by
  simp only [Busy, not_or, not_not] at h
  exact h.2

theorem key_of_not_busy {b : Bucket} (h : ¬ b.Busy) : b.key = none := by
  simp only [Busy, not_or, not_not] at h
  exact h.1

theorem pair?_eq_some {b : Bucket} {k : Key} {v : ℕ} :
    b.pair? = some (k, v) ↔ b.key = some k ∧ b.value = v := by
  simp [pair?]

@[simp] theorem pair?_next (b : Bucket) (p : Option ℕ) : { b with next := p }.pair? = b.pair? :=
  rfl

@[simp] theorem busy_next (b : Bucket) (p : Option ℕ) : { b with next := p }.Busy ↔ b.Busy :=
  Iff.rfl

end Bucket

namespace Hashmap

/-- Bucket `e` becomes `b` and is linked at the end of the list. -/
def link (m : Hashmap) (e : ℕ) (b : Bucket) : Hashmap :=
  ((m.setBucket e b).setLastNext (some e)).setLast (some e)

def nextOf (m : Hashmap) (i : ℕ) : Option ℕ := (m.buckets i).next

def Busy (m : Hashmap) (i : ℕ) : Prop := (m.buckets i).Busy

/-- The entries stored in the slots `order`. -/
def entriesOf (m : Hashmap) (order : List ℕ) : List (Key × ℕ) :=
  order.filterMap fun i => (m.buckets i).pair?

section Link

variable (m : Hashmap) (e : ℕ) (b : Bucket)

@[simp] theorem link_capacity : (m.link e b).capacity = m.capacity := by
  unfold link setLastNext setLast; split <;> rfl

@[simp] theorem link_last : (m.link e b).last = some e := rfl

theorem link_count : (m.link e b).count = m.count := by
  unfold link setLastNext setLast; split <;> rfl

theorem link_tombstoneCount : (m.link e b).tombstoneCount = m.tombstoneCount := by
  unfold link setLastNext setLast; split <;> rfl

theorem link_first : (m.link e b).first = if m.last = none then some e else m.first := by
  unfold link setLastNext setLast setBucket
  cases m.last <;> rfl

variable {m e}

theorem link_self (h : m.last ≠ some e) : (m.link e b).buckets e = b := by
  unfold link setLastNext setLast setBucket
  cases hl : m.last with
  | none => simp
  | some l =>
    rw [hl] at h
    simp [Function.update_of_ne (show e ≠ l from fun he => h (congrArg some he.symm))]

/-- Appending changes no other bucket, save for the link of the last one. -/
theorem link_of_ne {i : ℕ} (h : i ≠ e) : (m.link e b).buckets i =
    { m.buckets i with next := if m.last = some i then some e else (m.buckets i).next } := by
  unfold link setLastNext setLast setBucket
  cases hl : m.last with
  | none => simp [Function.update_of_ne h]
  | some l =>
    by_cases hil : i = l
    · subst hil
      simp [Function.update_of_ne h]
    · simp [Function.update_of_ne hil, Function.update_of_ne h, Ne.symm hil]

/-- The order of the two writes `hashmap_set_free` makes does not matter. -/
theorem link_eq_setBucket (h : m.last ≠ some e) :
    ((m.setLastNext (some e)).setLast (some e)).setBucket e b = m.link e b := by
  unfold link setLastNext setLast setBucket
  cases hl : m.last with
  | none => rfl
  | some l =>
    rw [hl] at h
    have hne : l ≠ e := fun he => h (congrArg some he)
    simp [Function.update_of_ne hne, Function.update_comm hne]

end Link

end Hashmap

/-- The layout of a table whose list visits `order` and ends at `q`. -/
structure Layout (m : Hashmap) (order : List ℕ) (q : Option ℕ) : Prop where
  cap_pos : 0 < m.capacity
  nodup : order.Nodup
  mem_iff : ∀ i, i ∈ order ↔ i < m.capacity ∧ m.Busy i
  seg : Seg m.nextOf m.first order q
  last_eq : m.last = order.getLast?
  hash_eq : ∀ i k, i < m.capacity → (m.buckets i).key = some k → (m.buckets i).hash = hashData k
  clear : ∀ i k, i < m.capacity → (m.buckets i).key = some k →
    Clear m.capacity m.Busy (m.home (hashData k)) i
  inj : ∀ i j k, i < m.capacity → j < m.capacity →
    (m.buckets i).key = some k → (m.buckets j).key = some k → i = j

namespace Layout

variable {m : Hashmap} {order : List ℕ} {q : Option ℕ} {i e : ℕ} {k : Key} {v : ℕ} {b : Bucket}

theorem home_lt (hL : Layout m order q) (h : UInt32) : m.home h < m.capacity :=
  Nat.mod_lt _ hL.cap_pos

theorem mem_of_key (hL : Layout m order q) (hi : i < m.capacity)
    (hk : (m.buckets i).key = some k) : i ∈ order :=
  (hL.mem_iff i).mpr ⟨hi, Bucket.busy_of_key hk⟩

theorem lt_of_mem (hL : Layout m order q) (hi : i ∈ order) : i < m.capacity :=
  ((hL.mem_iff i).mp hi).1

/-- The entries are the keys and values of the buckets. -/
theorem mem_entriesOf (hL : Layout m order q) :
    (k, v) ∈ m.entriesOf order ↔
      ∃ i < m.capacity, (m.buckets i).key = some k ∧ (m.buckets i).value = v := by
  simp only [Hashmap.entriesOf, List.mem_filterMap, Bucket.pair?_eq_some]
  constructor
  · rintro ⟨i, hi, h⟩
    exact ⟨i, hL.lt_of_mem hi, h⟩
  · rintro ⟨i, hi, h⟩
    exact ⟨i, hL.mem_of_key hi h.1, h⟩

theorem key_mem_entriesOf (hL : Layout m order q) :
    k ∈ (m.entriesOf order).map Prod.fst ↔ ∃ i < m.capacity, (m.buckets i).key = some k := by
  simp only [List.mem_map, Prod.exists, exists_and_right, exists_eq_right, hL.mem_entriesOf]
  exact ⟨fun ⟨_, i, hi, hk, _⟩ => ⟨i, hi, hk⟩, fun ⟨i, hi, hk⟩ => ⟨_, i, hi, hk, rfl⟩⟩

/-! ## Where `find_entry` ends -/

theorem findEntry_hit (hL : Layout m order q) (hi : i < m.capacity)
    (hk : (m.buckets i).key = some k) : findEntry m k (hashData k) = some i := by
  refine scan_hit (hL.home_lt _) (hL.clear i k hi hk) (by simp [hk, hL.hash_eq i k hi hk]) ?_
  intro j hj hbusy hji
  -- a busy bucket stops the search only if its key matches, and `i` is the only such bucket
  have hkey : (m.buckets j).key ≠ some k := fun hjk => hji (hL.inj j i k hj hi hjk hk)
  have hfull : ¬ ((m.buckets j).key = none ∧ (m.buckets j).value = 0) := by
    rintro ⟨h₁, h₂⟩
    exact hbusy.elim (· h₁) (· h₂)
  simp only [Bool.or_eq_false_iff, Bool.and_eq_false_iff, Option.isNone_eq_false_iff,
    beq_eq_false_iff_ne, Bool.not_eq_false', Option.isNone_iff_eq_none]
  refine ⟨?_, Or.inr hkey⟩
  by_cases hn : (m.buckets j).key = none
  · exact Or.inr fun hv => hfull ⟨hn, hv⟩
  · exact Or.inl (Option.isSome_iff_ne_none.mpr hn)

theorem findEntry_miss (hL : Layout m order q) (hroom : order.length < m.capacity)
    (hk : ∀ i < m.capacity, (m.buckets i).key ≠ some k) :
    ∃ e < m.capacity, findEntry m k (hashData k) = some e ∧ ¬ m.Busy e ∧
      Clear m.capacity m.Busy (m.home (hashData k)) e := by
  obtain ⟨f, hf, hfree⟩ := exists_free hroom
  have hfb : ¬ m.Busy f := fun hb => hfree ((hL.mem_iff f).mpr ⟨hf, hb⟩)
  have hh := hL.home_lt (hashData k)
  obtain ⟨e, he⟩ : ∃ e, findEntry m k (hashData k) = some e := by
    refine scan_ends hh hf ?_
    simp [Bucket.key_of_not_busy hfb, Bucket.value_of_not_busy hfb]
  have hlt := scan_lt hh he
  have hstop := scan_stop hh he
  refine ⟨e, hlt, he, ?_, scan_clear hh he ?_⟩
  · simp only [Bool.or_eq_true, Bool.and_eq_true, Option.isNone_iff_eq_none, beq_iff_eq] at hstop
    rcases hstop with ⟨h₁, h₂⟩ | ⟨-, h⟩
    · exact fun hb => hb.elim (· h₁) (· h₂)
    · exact absurd h (hk e hlt)
  · intro j hj
    simp only [Bool.or_eq_false_iff, Bool.and_eq_false_iff, Option.isNone_eq_false_iff,
      beq_eq_false_iff_ne, Option.isSome_iff_ne_none] at hj
    exact hj.1

/-! ## Appending an entry -/

theorem last_ne (hL : Layout m order q) (he : ¬ m.Busy e) : m.last ≠ some e := by
  intro h
  rw [hL.last_eq] at h
  exact he (((hL.mem_iff e).mp (List.mem_of_getLast? h)).2)

theorem link_busy (hL : Layout m order q) (he : ¬ m.Busy e) (hb : b.Busy) (i : ℕ) :
    (m.link e b).Busy i ↔ i = e ∨ m.Busy i := by
  by_cases hi : i = e
  · subst hi
    simp [Hashmap.Busy, Hashmap.link_self b (hL.last_ne he), hb]
  · simp [Hashmap.Busy, Hashmap.link_of_ne b hi, hi]

/-- Appending changes no other key. -/
theorem link_key (hL : Layout m order q) (he : ¬ m.Busy e) (i : ℕ) :
    ((m.link e b).buckets i).key = if i = e then b.key else (m.buckets i).key := by
  by_cases hi : i = e
  · subst hi
    rw [if_pos rfl, Hashmap.link_self b (hL.last_ne he)]
  · rw [if_neg hi, Hashmap.link_of_ne b hi]

theorem link_seg (hL : Layout m order q) (he : ¬ m.Busy e) (heo : e ∉ order) :
    Seg (m.link e b).nextOf (m.link e b).first (order ++ [e]) b.next := by
  have hself : (m.link e b).nextOf e = b.next := by
    rw [Hashmap.nextOf, Hashmap.link_self b (hL.last_ne he)]
  rw [seg_concat, Hashmap.link_first, hL.last_eq]
  refine ⟨seg_redirect hL.nodup hL.seg fun i hi => ?_, hself⟩
  have hie : i ≠ e := fun h => heo (h ▸ hi)
  rw [Hashmap.nextOf, Hashmap.link_of_ne b hie, hL.last_eq]
  rfl

/-- **Append.** A fresh entry in an empty bucket that its key can reach keeps the layout. -/
theorem link (hL : Layout m order q) (he : e < m.capacity) (hfree : ¬ m.Busy e)
    (hbk : b.key = some k) (hbh : b.hash = hashData k)
    (hc : Clear m.capacity m.Busy (m.home (hashData k)) e)
    (hk : ∀ i < m.capacity, (m.buckets i).key ≠ some k) :
    Layout (m.link e b) (order ++ [e]) b.next := by
  have hbb : b.Busy := Bucket.busy_of_key hbk
  have hbusy := hL.link_busy hfree hbb
  have hkey := hL.link_key (b := b) hfree
  have heo : e ∉ order := fun h => hfree ((hL.mem_iff e).mp h).2
  have hhome : ∀ h, (m.link e b).home h = m.home h := fun h => by
    rw [Hashmap.home, Hashmap.home, Hashmap.link_capacity]
  refine ⟨by simpa using hL.cap_pos, ?_, ?_, hL.link_seg hfree heo, by simp, ?_, ?_, ?_⟩
  · rw [List.nodup_append]
    refine ⟨hL.nodup, List.nodup_singleton e, ?_⟩
    intro x hx y hy hxy
    rw [List.mem_singleton] at hy
    exact heo (by rwa [← hy, ← hxy])
  · intro i
    rw [List.mem_append, List.mem_singleton, hL.mem_iff, Hashmap.link_capacity, hbusy]
    constructor
    · rintro (⟨h₁, h₂⟩ | rfl)
      · exact ⟨h₁, Or.inr h₂⟩
      · exact ⟨he, Or.inl rfl⟩
    · rintro ⟨h₁, rfl | h₂⟩
      · exact Or.inr rfl
      · exact Or.inl ⟨h₁, h₂⟩
  · intro i k' hi hik
    rw [Hashmap.link_capacity] at hi
    rw [hkey] at hik
    by_cases hie : i = e
    · subst hie
      rw [if_pos rfl, hbk, Option.some.injEq] at hik
      rw [Hashmap.link_self b (hL.last_ne hfree), hbh, hik]
    · rw [if_neg hie] at hik
      rw [Hashmap.link_of_ne b hie]
      exact hL.hash_eq i k' hi hik
  · intro i k' hi hik
    rw [Hashmap.link_capacity] at hi
    rw [Hashmap.link_capacity, hhome]
    have hmono : ∀ j, m.Busy j → (m.link e b).Busy j := fun j hj => (hbusy j).mpr (Or.inr hj)
    rw [hkey] at hik
    by_cases hie : i = e
    · subst hie
      rw [if_pos rfl, hbk, Option.some.injEq] at hik
      exact hik ▸ hc.mono hmono
    · rw [if_neg hie] at hik
      exact (hL.clear i k' hi hik).mono hmono
  · intro i j k' hi hj hik hjk
    rw [Hashmap.link_capacity] at hi hj
    rw [hkey] at hik hjk
    by_cases hie : i = e <;> by_cases hje : j = e
    · rw [hie, hje]
    · rw [if_pos hie, hbk] at hik
      rw [if_neg hje, ← hik] at hjk
      exact absurd hjk (hk j hj)
    · rw [if_pos hje, hbk] at hjk
      rw [if_neg hie, ← hjk] at hik
      exact absurd hik (hk i hi)
    · rw [if_neg hie] at hik
      rw [if_neg hje] at hjk
      exact hL.inj i j k' hi hj hik hjk

theorem entriesOf_link (hL : Layout m order q) (hfree : ¬ m.Busy e) :
    (m.link e b).entriesOf (order ++ [e]) = m.entriesOf order ++ b.pair?.toList := by
  have heo : e ∉ order := fun h => hfree ((hL.mem_iff e).mp h).2
  rw [Hashmap.entriesOf, List.filterMap_append]
  congr 1
  · apply List.filterMap_congr
    intro i hi
    rw [Hashmap.link_of_ne b (fun h : i = e => heo (h ▸ hi)), Bucket.pair?_next]
  · rw [List.filterMap_cons, Hashmap.link_self b (hL.last_ne hfree)]
    cases b.pair? <;> rfl

end Layout

end Csrv.Map
