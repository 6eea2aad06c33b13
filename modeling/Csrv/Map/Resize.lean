import Csrv.Map.Layout

/-!
# `hashmap_resize`

The loop walks the old list once. `Moved m done rest t` is its invariant at the head: the new
table `t` holds the entries of the old slots `done`, in their order, and the link of its last
bucket leads to the first slot of `rest` in the old array. A tombstone only moves that link on
(also when every listed bucket is one, which leaves an empty list), an entry is copied and
appended. At the end the new table has the old entries and no tombstone (`hashmapResize_spec`).
-/

namespace Csrv.Map

open LinearProbe Threaded

namespace Hashmap

@[simp] theorem setLastNext_capacity (m : Hashmap) (p : Option ℕ) :
    (m.setLastNext p).capacity = m.capacity := by
  unfold setLastNext; split <;> rfl

@[simp] theorem setLastNext_last (m : Hashmap) (p : Option ℕ) :
    (m.setLastNext p).last = m.last := by
  unfold setLastNext; split <;> rfl

theorem setLastNext_count (m : Hashmap) (p : Option ℕ) : (m.setLastNext p).count = m.count := by
  unfold setLastNext; split <;> rfl

theorem setLastNext_tombstoneCount (m : Hashmap) (p : Option ℕ) :
    (m.setLastNext p).tombstoneCount = m.tombstoneCount := by
  unfold setLastNext; split <;> rfl

/-- The write changes the link of the last bucket and nothing else of the array. -/
theorem setLastNext_buckets (m : Hashmap) (p : Option ℕ) (i : ℕ) :
    (m.setLastNext p).buckets i =
      { m.buckets i with next := if m.last = some i then p else (m.buckets i).next } := by
  unfold setLastNext setBucket
  cases hl : m.last with
  | none => simp
  | some l =>
    by_cases hil : i = l
    · subst hil
      simp
    · simp [Function.update_of_ne hil, Ne.symm hil]

theorem setLastNext_first (m : Hashmap) (p : Option ℕ) :
    (m.setLastNext p).first = if m.last = none then p else m.first := by
  unfold setLastNext setBucket
  cases m.last <;> rfl

end Hashmap

namespace Layout

variable {m t : Hashmap} {order ord : List ℕ} {p q : Option ℕ} {b : Bucket} {k : Key}

/-- `m->last->next` is where the list arrives. -/
theorem lastNext_eq (hL : Layout m order q) : m.lastNext = q := by
  have hlast := hL.last_eq
  have hseg := hL.seg
  rcases List.eq_nil_or_concat order with rfl | ⟨l, z, rfl⟩
  · rw [Hashmap.lastNext, hlast]
    exact hseg
  · rw [List.concat_eq_append] at hlast hseg
    rw [List.getLast?_concat] at hlast
    rw [Hashmap.lastNext, hlast]
    exact (seg_concat.mp hseg).2

/-- Redirecting the last link changes only where the list arrives. -/
theorem setLastNext (hL : Layout m order q) : Layout (m.setLastNext p) order p := by
  have hbusy : ∀ i, (m.setLastNext p).Busy i ↔ m.Busy i := fun i => by
    rw [Hashmap.Busy, Hashmap.setLastNext_buckets, Bucket.busy_next, Hashmap.Busy]
  have hkey : ∀ i, ((m.setLastNext p).buckets i).key = (m.buckets i).key := fun i => by
    rw [Hashmap.setLastNext_buckets]
  have hhome : ∀ h, (m.setLastNext p).home h = m.home h := fun h => by
    rw [Hashmap.home, Hashmap.home, Hashmap.setLastNext_capacity]
  refine ⟨by simpa using hL.cap_pos, hL.nodup, ?_, ?_, by simpa using hL.last_eq, ?_, ?_, ?_⟩
  · intro i
    rw [hL.mem_iff, Hashmap.setLastNext_capacity, hbusy]
  · rw [Hashmap.setLastNext_first, hL.last_eq]
    refine seg_redirect hL.nodup hL.seg fun i _ => ?_
    rw [Hashmap.nextOf, Hashmap.setLastNext_buckets, hL.last_eq]
    rfl
  · intro i k hi hk
    rw [Hashmap.setLastNext_capacity] at hi
    rw [hkey] at hk
    rw [Hashmap.setLastNext_buckets]
    exact hL.hash_eq i k hi hk
  · intro i k hi hk
    rw [Hashmap.setLastNext_capacity] at hi
    rw [hkey] at hk
    rw [Hashmap.setLastNext_capacity, hhome]
    exact (hL.clear i k hi hk).mono fun j hj => (hbusy j).mpr hj
  · intro i j k hi hj hik hjk
    rw [Hashmap.setLastNext_capacity] at hi hj
    rw [hkey] at hik hjk
    exact hL.inj i j k hi hj hik hjk

theorem entriesOf_setLastNext (m : Hashmap) (p : Option ℕ) (order : List ℕ) :
    (m.setLastNext p).entriesOf order = m.entriesOf order := by
  apply List.filterMap_congr
  intro i _
  rw [Hashmap.setLastNext_buckets, Bucket.pair?_next]

/-- In a table without tombstones `resize_entry` ends at an empty bucket. -/
theorem resizeEntry_spec (hL : Layout t ord q) (hroom : ord.length < t.capacity)
    (hnt : ∀ i, (t.buckets i).key = none → (t.buckets i).value = 0) :
    ∃ e < t.capacity, resizeEntry t b = some e ∧ ¬ t.Busy e ∧
      Clear t.capacity t.Busy (t.home b.hash) e := by
  obtain ⟨f, hf, hfree⟩ := exists_free hroom
  have hfb : ¬ t.Busy f := fun hb => hfree ((hL.mem_iff f).mpr ⟨hf, hb⟩)
  have hh := hL.home_lt b.hash
  obtain ⟨e, he⟩ : ∃ e, resizeEntry t b = some e :=
    scan_ends hh hf (by simp [Bucket.key_of_not_busy hfb])
  have hstop := scan_stop hh he
  simp only [Option.isNone_iff_eq_none] at hstop
  refine ⟨e, scan_lt hh he, he, fun hb => hb.elim (· hstop) (· (hnt e hstop)), ?_⟩
  refine scan_clear hh he fun i hi => Or.inl ?_
  simpa [Option.isSome_iff_ne_none] using hi

end Layout

/-! ## The loop -/

/-- The new table `t` when the old slots `done` have been moved and `rest` remain. -/
structure Moved (m : Hashmap) (done rest : List ℕ) (t : Hashmap) : Prop where
  capacity_eq : t.capacity = m.capacity * hashmapResizeFactor
  count_eq : t.count = m.count - m.tombstoneCount
  tomb_eq : t.tombstoneCount = 0
  noTomb : ∀ i, (t.buckets i).key = none → (t.buckets i).value = 0
  layout : ∃ ord, Layout t ord rest.head? ∧ t.entriesOf ord = m.entriesOf done

/-- Without tombstones every used bucket holds an entry. -/
theorem length_entriesOf {t : Hashmap} {ord : List ℕ} {q : Option ℕ} (hL : Layout t ord q)
    (hnt : ∀ i, (t.buckets i).key = none → (t.buckets i).value = 0) :
    (t.entriesOf ord).length = ord.length := by
  unfold Hashmap.entriesOf
  rw [List.length_filterMap_eq_countP, List.countP_eq_length]
  intro i hi
  have hb := ((hL.mem_iff i).mp hi).2
  have hk : (t.buckets i).key ≠ none := fun hk => hb.elim (· hk) (· (hnt i hk))
  simpa [Bucket.pair?] using Option.isSome_iff_ne_none.mpr hk

section Loop

variable {m : Hashmap} {order : List ℕ} (hL : Layout m order none)
  (hlen : order.length ≤ m.capacity)

include hL in
/-- The old list goes from each slot to the next one. -/
theorem next_of_order {done rest : List ℕ} {c : ℕ} (ho : order = done ++ c :: rest) :
    (m.buckets c).next = rest.head? := by
  obtain ⟨r, -, h⟩ := seg_append.mp (ho ▸ hL.seg)
  have := seg_start (seg_cons.mp h).2
  rw [Hashmap.nextOf] at this
  cases rest with
  | nil => simpa using this
  | cons d rest => simpa using this

theorem entriesOf_concat (done : List ℕ) (c : ℕ) :
    m.entriesOf (done ++ [c]) = m.entriesOf done ++ (m.buckets c).pair?.toList := by
  rw [Hashmap.entriesOf, List.filterMap_append]
  rfl

section Round

variable {done rest : List ℕ} {c : ℕ} {t : Hashmap} {ord : List ℕ} {k : Key}

include hL hlen in
/-- The doubled table has room for the slots that remain. -/
theorem Moved.room (ho : order = done ++ c :: rest) (hM : Moved m done (c :: rest) t)
    (hLt : Layout t ord (some c)) (hent : t.entriesOf ord = m.entriesOf done) :
    ord.length < t.capacity := by
  have h₁ := length_entriesOf hLt hM.noTomb
  have h₂ : (m.entriesOf done).length ≤ done.length := List.length_filterMap_le _ _
  have h₃ : done.length < order.length := by rw [ho]; simp
  have h₄ := hM.capacity_eq
  have h₅ := hL.cap_pos
  rw [hent] at h₁
  unfold hashmapResizeFactor at h₄
  omega

include hL in
/-- The keys moved so far belong to other old slots. -/
theorem key_absent (ho : order = done ++ c :: rest) (hk : (m.buckets c).key = some k)
    (hLt : Layout t ord (some c)) (hent : t.entriesOf ord = m.entriesOf done) :
    ∀ i < t.capacity, (t.buckets i).key ≠ some k := by
  intro i hi hik
  have hcm : c ∈ order := by rw [ho]; simp
  have hmem := hLt.mem_entriesOf.mpr ⟨i, hi, hik, rfl⟩
  rw [hent] at hmem
  obtain ⟨j, hj, hje⟩ := List.mem_filterMap.mp hmem
  have hjo : j ∈ order := by rw [ho]; exact List.mem_append_left _ hj
  have hjc := hL.inj j c k (hL.lt_of_mem hjo) (hL.lt_of_mem hcm) (Bucket.pair?_eq_some.mp hje).1 hk
  have hnodup := hL.nodup
  rw [ho, List.nodup_append] at hnodup
  exact hnodup.2.2 j hj c List.mem_cons_self hjc

/-- A tombstone: the last link skips it. -/
theorem Moved.skip (hM : Moved m done (c :: rest) t) (hnext : (m.buckets c).next = rest.head?)
    (hLt : Layout t ord (some c)) (hent : t.entriesOf ord = m.entriesOf done)
    (hk : (m.buckets c).key = none) :
    Moved m (done ++ [c]) rest (t.setLastNext (m.buckets c).next) := by
  refine ⟨by simpa using hM.capacity_eq, by rw [Hashmap.setLastNext_count, hM.count_eq],
    by rw [Hashmap.setLastNext_tombstoneCount, hM.tomb_eq], ?_, ord, ?_, ?_⟩
  · intro i hi
    rw [Hashmap.setLastNext_buckets] at hi ⊢
    exact hM.noTomb i hi
  · rw [hnext]
    exact hLt.setLastNext
  · rw [Layout.entriesOf_setLastNext, hent, entriesOf_concat]
    simp [Bucket.pair?, hk]

/-- An entry: it is linked behind the last one. -/
theorem Moved.push (hM : Moved m done (c :: rest) t) {e : ℕ} (hfree : ¬ t.Busy e)
    (hLt : Layout t ord (some c)) (hent : t.entriesOf ord = m.entriesOf done)
    (hk : (m.buckets c).key = some k)
    (hL' : Layout (t.link e (m.buckets c)) (ord ++ [e]) rest.head?) :
    Moved m (done ++ [c]) rest (t.link e (m.buckets c)) := by
  refine ⟨by simpa using hM.capacity_eq, by rw [Hashmap.link_count, hM.count_eq],
    by rw [Hashmap.link_tombstoneCount, hM.tomb_eq], ?_, ord ++ [e], hL', ?_⟩
  · intro i hi
    rw [hLt.link_key hfree] at hi
    by_cases hie : i = e
    · rw [if_pos hie, hk] at hi
      cases hi
    · rw [if_neg hie] at hi
      rw [Hashmap.link_of_ne _ hie]
      exact hM.noTomb i hi
  · rw [hLt.entriesOf_link hfree, hent, entriesOf_concat]

include hL hlen in
/-- One round of the loop moves the slot `c`. -/
theorem resizeLoop_round (ho : order = done ++ c :: rest) (hM : Moved m done (c :: rest) t)
    (fuel : ℕ) : ∃ t', Moved m (done ++ [c]) rest t' ∧
      resizeLoop m.buckets (fuel + 1) t =
        if rest = [] then some t' else resizeLoop m.buckets fuel t' := by
  obtain ⟨ord, hLt, hent⟩ := hM.layout
  have hnext := next_of_order hL ho
  have hc : c < m.capacity := hL.lt_of_mem (by rw [ho]; simp)
  have hcur : t.lastNext = some c := hLt.lastNext_eq
  have hend : ∀ t' : Hashmap, ∀ ord', Layout t' ord' rest.head? →
      (t'.lastNext.isNone = true ↔ rest = []) := fun t' ord' h => by
    rw [h.lastNext_eq]
    cases rest <;> simp
  cases hk : (m.buckets c).key with
  | none =>
    refine ⟨t.setLastNext (m.buckets c).next, hM.skip hnext hLt hent hk, ?_⟩
    have hL' : Layout (t.setLastNext (m.buckets c).next) ord rest.head? := by
      rw [hnext]
      exact hLt.setLastNext
    simp only [resizeLoop, hcur, Option.bind_eq_bind, Option.bind_some, hk, Option.isNone_none,
      if_true, hend _ _ hL']
  | some k =>
    obtain ⟨e, he, hre, hfree, hclear⟩ :=
      hLt.resizeEntry_spec (b := m.buckets c) (hM.room hL hlen ho hLt hent) hM.noTomb
    have hhash := hL.hash_eq c k hc hk
    rw [hhash] at hclear
    have hL' := hLt.link he hfree hk hhash hclear (key_absent hL ho hk hLt hent)
    rw [hnext] at hL'
    refine ⟨t.link e (m.buckets c), hM.push hfree hLt hent hk hL', ?_⟩
    have hlink : ((t.setBucket e (m.buckets c)).setLastNext (some e)).setLast (some e) =
        t.link e (m.buckets c) := rfl
    simp only [resizeLoop, hcur, Option.bind_eq_bind, Option.bind_some, hk, Option.isNone_some,
      Bool.false_eq_true, if_false, hre, hlink, hend _ _ hL']

end Round

include hL hlen in
theorem resizeLoop_spec {rest : List ℕ} : ∀ (done : List ℕ) {t : Hashmap} {fuel : ℕ},
    order = done ++ rest → rest ≠ [] → rest.length ≤ fuel → Moved m done rest t →
      ∃ t', resizeLoop m.buckets fuel t = some t' ∧ Moved m order [] t' := by
  induction rest with
  | nil => intro _ _ _ _ h; exact absurd rfl h
  | cons c rest ih =>
    intro done t fuel ho _ hfuel hM
    cases fuel with
    | zero => simp at hfuel
    | succ fuel =>
      obtain ⟨t', hM', hr⟩ := resizeLoop_round hL hlen ho hM fuel
      rw [hr]
      by_cases hrest : rest = []
      · subst hrest
        exact ⟨t', by simp, by rwa [ho]⟩
      · rw [if_neg hrest]
        exact ih _ (by simp [ho]) hrest (by simpa using hfuel) hM'

end Loop

/-- **Resize.** A non-empty list is rebuilt in the doubled table with the same entries. -/
theorem hashmapResize_spec {m : Hashmap} {order : List ℕ} (hL : Layout m order none)
    (hlen : order.length ≤ m.capacity) (hne : order ≠ []) :
    ∃ t ord, hashmapResize m = some t ∧ Layout t ord none ∧ t.entriesOf ord = m.entriesOf order ∧
      t.capacity = m.capacity * 2 ∧ t.count = m.count - m.tombstoneCount ∧
      t.tombstoneCount = 0 ∧ ord.length = (m.entriesOf order).length := by
  have hstart : Moved m [] order { m with
      capacity := m.capacity * hashmapResizeFactor
      buckets := fun _ => .empty
      last := none
      count := m.count - m.tombstoneCount
      tombstoneCount := 0 } := by
    refine ⟨rfl, rfl, rfl, fun _ _ => rfl, [], ?_, rfl⟩
    have hcap := hL.cap_pos
    refine ⟨Nat.mul_pos hcap (by decide), List.nodup_nil, fun i => ?_, ?_, rfl, ?_, ?_, ?_⟩
    · exact ⟨fun h => absurd h List.not_mem_nil, fun h => absurd h.2 Bucket.not_busy_empty⟩
    · have := seg_start hL.seg
      rw [if_neg hne] at this
      simpa using this
    · intro i k _ hk
      cases hk
    · intro i k _ hk
      cases hk
    · intro i j k _ _ hk
      cases hk
  obtain ⟨t, ht, hM⟩ := resizeLoop_spec hL hlen [] rfl hne hlen hstart
  obtain ⟨ord, hLt, hent⟩ := hM.layout
  refine ⟨t, ord, ht, hLt, hent, hM.capacity_eq, hM.count_eq, hM.tomb_eq, ?_⟩
  rw [← hent, length_entriesOf hLt hM.noTomb]

end Csrv.Map
