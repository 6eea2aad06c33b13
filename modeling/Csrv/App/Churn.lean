import Csrv.App.History
import Csrv.App.Ownership
import Mathlib.Data.Finset.Card

/-!
# The size of the cache under reloads

A flush leaves a tombstone in `mloc`, and a tombstone counts as a used bucket until the next
resize, which drops it and doubles the table.

* `cache_capacity_le`: the capacity is bounded by the number of paths and of flushed entries
  together, and three quarters of it hold the used buckets as long as a `float` holds their number.
* `churn_overflows`: the number of paths alone does not keep it in the range of an `int`, since each
  reload of a single module uses up one more bucket.
-/

namespace Csrv.App

open Csrv.Map Run

/-- The `dlclose` of a flush, behind which the entry is removed. -/
def Event.buries : Event → Bool
  | .dlclose (.cached _ _) _ => true
  | _ => false

/-- How many entries the calls with these outputs have removed. -/
def flushed (outs : List (List Event × ℤ)) : ℕ := (outs.map fun o => o.1.countP Event.buries).sum

/-- The module paths that the calls touch. -/
def touched (reqs : List Request) : Finset Bytes := (reqs.map Request.path2).toFinset

section Churn

variable (al : Malloc) {srv : Server} {g : Hashmap} {c : Cache} {r : Request} {p : Bytes}
  {ps : Finset Bytes} {B : ℕ}

/-- At most the paths of `ps` are cached and at most `B` entries have been removed. -/
structure Churned (ps : Finset Bytes) (B : ℕ) (srv : Server) (g : Hashmap) (c : Cache) : Prop where
  rep : Represents srv g c
  keys : ∀ p, c.find p ≠ none → p ∈ ps
  tombs : srv.mloc.tombstoneCount ≤ B
  cap : srv.mloc.capacity ≤ max hashmapDefaultCapacity (3 * (ps.card + B))

theorem countP_closing (h : c.find p ≠ none) : (c.closing p).countP Event.buries = 1 := by
  unfold Cache.closing
  cases hf : c.find p with
  | none => exact absurd hf h
  | some ae => rfl

/-- A flush that finds an entry shows in the events. -/
theorem buries_of_flush (h2 : r.env.path2 = true) (hf : r.flush = true)
    (hc : c.find r.path2 ≠ none) : 1 ≤ (c.serve al r).2.1.countP Event.buries := by
  have hev : (c.load al r).2.1 =
      c.closing r.path2 ++ ((c.drop r.path2).miss al r.path2 true r.env).2.1 := by
    unfold Cache.load
    rw [h2, hf]
    rfl
  show 1 ≤ ((c.load al r).2.1 ++ _).countP _
  rw [hev, List.countP_append, List.countP_append, countP_closing hc]
  omega

theorem find_serve (h : (c.serve al r).1.find p ≠ none) : c.find p ≠ none ∨ p = r.path2 := by
  have hl := Cache.load_cases al c r
  have hdrop : (c.drop r.path2).find p ≠ none → c.find p ≠ none := by
    rw [Cache.find_drop]
    split_ifs
    · exact fun h => absurd rfl h
    · exact id
  show c.find p ≠ none ∨ _
  replace h : (c.load al r).1.find p ≠ none := h
  generalize (c.load al r).1 = c' at hl h
  generalize (c.load al r).2.1 = ev at hl
  generalize (c.load al r).2.2 = fr at hl
  cases hl with
  | enomem _ => exact .inl h
  | hit _ _ _ => exact .inl h
  | fail _ _ _ => exact .inl (hdrop h)
  | leak _ _ _ _ => exact .inl (hdrop h)
  | own _ _ _ _ => exact .inl (hdrop h)
  | keep _ _ _ _ _ _ _ =>
    rw [Cache.find_put] at h
    split_ifs at h with hp
    · exact .inr hp
    · exact .inl h

/-- Distinct cached paths, and one more that is not cached. -/
theorem length_entries_lt (hk : ∀ p, c.find p ≠ none → p ∈ ps) (hp : c.find p = none)
    (hmem : p ∈ ps) : c.map.entries.length + 1 ≤ ps.card := by
  have hnd : (p :: c.map.entries.map Prod.fst).Nodup := by
    refine List.nodup_cons.mpr ⟨?_, c.map.nodup⟩
    exact OrderedMap.find?_eq_none_iff.mp (Cache.find_eq_none_iff.mp hp)
  have hsub : (p :: c.map.entries.map Prod.fst).toFinset ⊆ ps := by
    intro q hq
    rw [List.mem_toFinset, List.mem_cons] at hq
    rcases hq with rfl | hq
    · exact hmem
    · refine hk q fun hn => ?_
      exact OrderedMap.find?_eq_none_iff.mp (Cache.find_eq_none_iff.mp hn) hq
  have hcard := Finset.card_le_card hsub
  rw [List.toFinset_card_of_nodup hnd, List.length_cons, List.length_map] at hcard
  exact hcard

/-- What the table of a cache counts. -/
theorem Represents.counts (h : Represents srv g c) :
    (∃ j, srv.mloc.capacity = hashmapDefaultCapacity * hashmapResizeFactor ^ j) ∧
      srv.mloc.tombstoneCount + c.map.entries.length = srv.mloc.count ∧
      srv.mloc.count < srv.mloc.capacity ∧
      4 * toFloat srv.mloc.count ≤ 3 * srv.mloc.capacity := by
  obtain ⟨order, hR, hs⟩ := h.loc
  refine ⟨hR.cap_eq, ?_, ?_, hR.load⟩
  · rw [← hs]
    exact hR.tomb_eq
  · rw [hR.count_eq]
    exact hR.room

/-- **One call.** -/
theorem Churned.step (h : Churned ps B srv g c) (hp : r.path2 ∈ ps) :
    ∃ srv', exlib al srv r = some (srv', (c.serve al r).2) ∧
      Churned ps (B + (c.serve al r).2.1.countP Event.buries) srv' g (c.serve al r).1 := by
  obtain ⟨srv', hex, hR, hcnt⟩ := exlib_represents al h.rep r
  obtain ⟨⟨j, hcap⟩, htomb, -, -⟩ := h.rep.counts
  have hcap' : srv'.mloc.capacity = (c.tally r srv.mloc.counters).capacity :=
    congrArg Counters.capacity hcnt
  have htomb' : srv'.mloc.tombstoneCount = (c.tally r srv.mloc.counters).tombstoneCount :=
    congrArg Counters.tombstoneCount hcnt
  have key : (c.tally r srv.mloc.counters).tombstoneCount ≤
      B + (c.serve al r).2.1.countP Event.buries ∧
      (c.tally r srv.mloc.counters).capacity ≤
        max hashmapDefaultCapacity (3 * (ps.card + B)) := by
    have htombs := h.tombs
    have hcaps := h.cap
    unfold Cache.tally Cache.buried
    split_ifs with h2 hf hc hc
    · exact ⟨Nat.le_add_right_of_le htombs, hcaps⟩
    · exact ⟨Nat.le_add_right_of_le htombs, hcaps⟩
    · have hb := buries_of_flush al (by simpa using h2) hf hc
      exact ⟨Nat.add_le_add htombs hb, hcaps⟩
    · have hlive := length_entries_lt h.keys hc.1 hp
      obtain ⟨-, ht, hg⟩ := Counters.grow_le (c := srv.mloc.counters) (k := ps.card + B) hcap (by
        show srv.mloc.count + 1 ≤ _
        omega)
      refine ⟨Nat.le_add_right_of_le (ht.trans htombs), hg.trans (max_le hcaps ?_)⟩
      exact le_max_right _ _
    · exact ⟨Nat.le_add_right_of_le htombs, hcaps⟩
  refine ⟨srv', hex, hR, fun p hpf => ?_, htomb' ▸ key.1, hcap' ▸ key.2.trans ?_⟩
  · rcases find_serve al hpf with hpf | rfl
    · exact h.keys p hpf
    · exact hp
  · exact max_le_max le_rfl (by omega)

theorem Churned.feed (reqs : List Request) : ∀ {B : ℕ} {srv : Server} {c : Cache},
    Churned ps B srv g c → (∀ r ∈ reqs, r.path2 ∈ ps) →
      ∃ srv' outs, feed (exlib al) srv reqs = some (srv', outs) ∧
        Churned ps (B + flushed outs) srv' g (c.after al reqs) := by
  induction reqs with
  | nil => exact fun {B srv c} h _ => ⟨srv, [], rfl, h⟩
  | cons r reqs ih =>
    intro B srv c h hps
    obtain ⟨srv₁, h₁, hc₁⟩ := h.step al (hps r List.mem_cons_self)
    obtain ⟨srv', outs, h₂, hc'⟩ := ih hc₁ fun q hq => hps q (List.mem_cons_of_mem _ hq)
    refine ⟨srv', _, feed_cons_iff.mpr ⟨_, _, _, h₁, h₂, rfl⟩, ?_⟩
    rw [flushed, List.map_cons, List.sum_cons, ← Nat.add_assoc]
    exact hc'

theorem appmainStart_churned (ps : Finset Bytes) {ds : List DirEntry} {ev : List Event}
    (h : appmainStart (some ds) = some (srv, ev)) : Churned ps 0 srv srv.mglb .empty := by
  obtain ⟨srv', ev', hl, -, hm, hh, -⟩ :=
    lodlibsLoop_owns (ascii "./lib/") ds ⟨hashmapCreate, hashmapCreate, []⟩ (s := .empty)
      create_refines owns_nil
  obtain ⟨rfl, -⟩ := Prod.mk.inj (Option.some.inj (h.symm.trans hl))
  refine ⟨⟨rfl, hm ▸ create_refines, hh⟩, fun p hp => absurd Cache.find_empty hp, ?_, ?_⟩
  · rw [hm]
    rfl
  · rw [hm]
    exact le_max_left _ _

end Churn

/-- **Churn.** In every run the capacity of `mloc` is at most 20 or three times the number of paths
and flushed entries, if that is below half of the range of an `int`, as are then all counters of the
table; the used buckets are at most three quarters of it as long as a `float` holds their number. -/
theorem cache_capacity_le (al : Malloc) (ds : List DirEntry) (reqs : List Request) :
    ∃ srv₀ start srv outs, appmainStart (some ds) = some (srv₀, start) ∧
      feed (exlib al) srv₀ reqs = some (srv, outs) ∧
      (3 * ((touched reqs).card + flushed outs) < 2 ^ 30 → srv.mloc.Ints ∧
        srv.mloc.capacity ≤ max hashmapDefaultCapacity (3 * ((touched reqs).card + flushed outs)) ∧
        (srv.mloc.count ≤ 2 ^ 24 → 4 * srv.mloc.count ≤ 3 * srv.mloc.capacity)) := by
  obtain ⟨srv₀, start, h₀, -⟩ := appmainStart_owns ds
  obtain ⟨srv, outs, h₁, hc⟩ := (appmainStart_churned (touched reqs) h₀).feed al reqs
    fun r hr => List.mem_toFinset.mpr (List.mem_map_of_mem hr)
  obtain ⟨-, -, -, hload⟩ := hc.rep.counts
  have hcap := hc.cap
  rw [Nat.zero_add] at hcap
  refine ⟨srv₀, start, srv, outs, h₀, h₁, fun hlt => ⟨hc.rep.loc.ints ?_, hcap, fun hle => ?_⟩⟩
  · unfold hashmapDefaultCapacity at hcap
    omega
  · rwa [toFloat_of_le hle] at hload

/-! ## Reloading one module -/

section Reload

variable {al : Malloc} {srv : Server} {g : Hashmap} {c : Cache}

/-- Loading `/tpl` and flushing it, `n` times. -/
def reloads (n : ℕ) : List Request :=
  (List.replicate n [tplRequest "", tplRequest "flush=true"]).flatten

theorem tplRequest_path2 (query : String) :
    (tplRequest query).path2 = ascii "./www/tpl.so" := by
  show path2Of (ascii "./www/tpl.so") = _
  decide

theorem card_touched_reloads (n : ℕ) : (touched (reloads n ++ [tplRequest ""])).card ≤ 1 := by
  have hsub : touched (reloads n ++ [tplRequest ""]) ⊆ {ascii "./www/tpl.so"} := by
    intro p hp
    obtain ⟨r, hr, rfl⟩ := List.mem_map.mp (List.mem_toFinset.mp hp)
    rw [Finset.mem_singleton]
    obtain hr | hr := List.mem_append.mp hr
    · obtain ⟨l, hl, hr⟩ := List.mem_flatten.mp hr
      rw [List.eq_of_mem_replicate hl] at hr
      rcases List.mem_cons.mp hr with rfl | hr
      · exact tplRequest_path2 _
      · rw [List.mem_singleton.mp hr]
        exact tplRequest_path2 _
    · rw [List.mem_singleton.mp hr]
      exact tplRequest_path2 _
  exact (Finset.card_le_card hsub).trans (Finset.card_singleton _).le

/-- One reload uses up a bucket. -/
theorem reload_step (al : Malloc) (hR : Represents srv g c)
    (hn : c.find (ascii "./www/tpl.so") = none) :
    ∃ srv₁ srv₂ o₁ o₂ c', exlib al srv (tplRequest "") = some (srv₁, o₁) ∧
      exlib al srv₁ (tplRequest "flush=true") = some (srv₂, o₂) ∧ Represents srv₂ g c' ∧
      c'.find (ascii "./www/tpl.so") = none ∧ srv₁.mloc.counters = srv.mloc.counters.grow.add ∧
      srv₂.mloc.counters = srv.mloc.counters.grow.add.bury := by
  have hplain : (tplRequest "").flush = false := by decide +kernel
  have hflush : (tplRequest "flush=true").flush = true := by decide +kernel
  obtain ⟨srv₁, h₁, hR₁, hc₁⟩ := exlib_represents al hR (tplRequest "")
  obtain ⟨srv₂, h₂, hR₂, hc₂⟩ := exlib_represents al hR₁ (tplRequest "flush=true")
  have hkeeps : (tplRequest "").env.keeps = true := rfl
  rw [← tplRequest_path2 ""] at hn
  obtain ⟨i, sym, hput⟩ := Cache.serve_of_keeps al rfl hplain hn hkeeps
  have hfound : (c.serve al (tplRequest "")).1.find (tplRequest "flush=true").path2 ≠ none := by
    rw [hput, tplRequest_path2, tplRequest_path2, Cache.find_put, if_pos rfl]
    exact Option.some_ne_none _
  rw [Cache.tally_of_keeps rfl hplain hn hkeeps] at hc₁
  refine ⟨srv₁, srv₂, _, _, _, h₁, h₂, hR₂, ?_, hc₁, ?_⟩
  · rw [Cache.serve_of_flush rfl hflush, tplRequest_path2, Cache.find_drop, if_pos rfl]
  · rw [hc₂, Cache.tally_of_flush rfl hflush hfound, hc₁]

/-- What a reload does to the counters of the table. -/
def reloaded (n : Counters) : Counters := n.grow.add.bury

theorem reloads_counters (al : Malloc) (n : ℕ) : ∀ {srv : Server} {c : Cache},
    Represents srv g c → c.find (ascii "./www/tpl.so") = none →
      ∃ srv' outs c', feed (exlib al) srv (reloads n) = some (srv', outs) ∧ Represents srv' g c' ∧
        c'.find (ascii "./www/tpl.so") = none ∧
        srv'.mloc.counters = reloaded^[n] srv.mloc.counters := by
  induction n with
  | zero => exact fun {srv c} hR hn => ⟨srv, [], c, rfl, hR, hn, rfl⟩
  | succ n ih =>
    intro srv c hR hn
    obtain ⟨srv₁, srv₂, o₁, o₂, c₂, h₁, h₂, hR₂, hn₂, -, hcnt⟩ := reload_step al hR hn
    obtain ⟨srv', outs, c', h₃, hR', hn', hcnt'⟩ := ih hR₂ hn₂
    refine ⟨srv', _, c', feed_cons_iff.mpr ⟨_, _, _, h₁, feed_cons_iff.mpr ⟨_, _, _, h₂, h₃, rfl⟩,
      rfl⟩, hR', hn', ?_⟩
    rw [hcnt', hcnt, Function.iterate_succ_apply]
    rfl

/-- A server that has reloaded `/tpl` any number of times, and loads it once more. -/
theorem run_reloads (n : ℕ) : ∃ srv₀ start srv outs srv' o,
    appmainStart (some []) = some (srv₀, start) ∧
    feed (exlib .bump) srv₀ (reloads n) = some (srv, outs) ∧
    srv.mloc.counters = reloaded^[n] hashmapCreate.counters ∧
    exlib .bump srv (tplRequest "") = some (srv', o) ∧
    srv'.mloc.capacity = (reloaded^[n + 1] hashmapCreate.counters).capacity := by
  obtain ⟨srv₀, start, h₀, -⟩ := appmainStart_owns []
  obtain ⟨rfl, rfl⟩ := Prod.mk.inj (Option.some.inj h₀)
  obtain ⟨srv, outs, c, h₁, hR, hn, hcnt⟩ :=
    reloads_counters .bump n empty_represents Cache.find_empty
  obtain ⟨srv', _, o, _, _, h₂, -, -, -, hcnt', -⟩ := reload_step .bump hR hn
  refine ⟨_, _, srv, outs, srv', o, h₀, h₁, hcnt, h₂, ?_⟩
  rw [Function.iterate_succ_apply']
  show srv'.mloc.capacity = (reloaded (reloaded^[n] hashmapCreate.counters)).capacity
  rw [← hcnt]
  exact congrArg Counters.capacity hcnt'

end Reload

/-- Counters of a table without entries: every used bucket is a tombstone. -/
structure Vacated (n : Counters) (j t : ℕ) : Prop where
  cap : n.capacity = hashmapDefaultCapacity * hashmapResizeFactor ^ j
  count : n.count = t
  tombs : n.tombstoneCount = t

section Vacated

variable {n : Counters} {j t : ℕ}

theorem create_vacated : Vacated hashmapCreate.counters 0 0 := ⟨rfl, rfl, rfl⟩

/-- A reload takes the next bucket, or the first one of a table of twice the size. -/
theorem Vacated.reloaded (h : Vacated n j t) :
    (3 * n.capacity < 4 * toFloat (t + 1) ∧ Vacated (reloaded n) (j + 1) 1) ∨
      (4 * toFloat (t + 1) ≤ 3 * n.capacity ∧ Vacated (reloaded n) j (t + 1)) := by
  have hiff := Counters.full_iff h.cap
  rw [h.count] at hiff
  unfold App.reloaded Counters.grow
  split_ifs with hfull
  · refine .inl ⟨hiff.mp hfull, ?_, ?_, ?_⟩
    · show n.capacity * hashmapResizeFactor = _
      rw [h.cap, pow_succ, Nat.mul_assoc]
    · show n.count - n.tombstoneCount + 1 = 1
      rw [h.count, h.tombs, Nat.sub_self]
    · rfl
  · refine .inr ⟨?_, h.cap, congrArg (· + 1) h.count, congrArg (· + 1) h.tombs⟩
    exact Nat.not_lt.mp fun hlt => hfull (hiff.mpr hlt)

/-- Every reload has used up a bucket, of the present table or of those before. -/
theorem reloaded_capacity (k : ℕ) : ∃ j t, Vacated (reloaded^[k] hashmapCreate.counters) j t ∧
    t ≤ (reloaded^[k] hashmapCreate.counters).capacity ∧
    k ≤ (reloaded^[k] hashmapCreate.counters).capacity + t := by
  induction k with
  | zero => exact ⟨0, 0, create_vacated, Nat.zero_le _, Nat.zero_le _⟩
  | succ k ih =>
    obtain ⟨j, t, hv, ht, hk⟩ := ih
    rw [Function.iterate_succ_apply']
    have hcap := hv.cap
    rcases hv.reloaded with ⟨-, hv'⟩ | ⟨hload, hv'⟩
    · have hcap' := hv'.cap
      rw [pow_succ, ← Nat.mul_assoc, ← hcap, hashmapResizeFactor] at hcap'
      have hpos : 0 < hashmapDefaultCapacity * hashmapResizeFactor ^ j := by
        exact Nat.mul_pos (by decide) (Nat.pow_pos (by decide))
      refine ⟨_, _, hv', ?_, ?_⟩
      · omega
      · omega
    · have hle := le_of_load hload
      have hcap' := hv'.cap
      rw [← hcap] at hcap'
      refine ⟨_, _, hv', ?_, ?_⟩
      · omega
      · omega

/-- While the load test lets it, a table fills up. -/
theorem Vacated.fill {k : ℕ} (h : Vacated (App.reloaded^[k] hashmapCreate.counters) j t) (t' : ℕ)
    (hle : t ≤ t') (hload : ∀ i < t', 4 * toFloat (i + 1) ≤
      3 * (hashmapDefaultCapacity * hashmapResizeFactor ^ j)) :
    ∃ k', Vacated (App.reloaded^[k'] hashmapCreate.counters) j t' := by
  induction t', hle using Nat.le_induction with
  | base => exact ⟨k, h⟩
  | succ t' _ ih =>
    obtain ⟨k', h'⟩ := ih fun i hi => hload i (by omega)
    refine ⟨k' + 1, ?_⟩
    rw [Function.iterate_succ_apply']
    rcases h'.reloaded with ⟨hfull, -⟩ | ⟨-, hv⟩
    · rw [h'.cap] at hfull
      exact absurd (hload t' (Nat.lt_succ_self _)) (by omega)
    · exact hv

/-- As long as the load limit is below the precision of a `float`, full means full. -/
theorem exists_vacated (hj : j ≤ 21) :
    ∃ k t, Vacated (App.reloaded^[k] hashmapCreate.counters) j t ∧ t ≤ 1 := by
  induction j with
  | zero => exact ⟨0, 0, create_vacated, Nat.zero_le _⟩
  | succ j ih =>
    obtain ⟨k, t, hv, ht⟩ := ih (by omega)
    have hpos : 0 < 2 ^ j := Nat.two_pow_pos j
    have hpow : 2 ^ j ≤ 2 ^ 20 := Nat.pow_le_pow_right (by decide) (by omega)
    obtain ⟨k', hv'⟩ := hv.fill (15 * 2 ^ j) (by omega) fun i hi => by
      rw [toFloat_of_le (by omega), hashmapDefaultCapacity, hashmapResizeFactor]
      omega
    refine ⟨k' + 1, 1, ?_, le_rfl⟩
    rw [Function.iterate_succ_apply']
    rcases hv'.reloaded with ⟨-, hv⟩ | ⟨hload, -⟩
    · exact hv
    · rw [toFloat_of_le (by omega), hv'.cap, hashmapDefaultCapacity, hashmapResizeFactor] at hload
      omega

/-- Above `2 ^ 24` a `float` is even, and `15 * 2 ^ 21 + 1` is rounded down. -/
theorem toFloat_le_limit {i : ℕ} (h : i ≤ 15 * 2 ^ 21 + 1) : toFloat i ≤ 15 * 2 ^ 21 := by
  rcases Nat.lt_or_ge (2 ^ 24) i with hlt | hge
  · have hlog : i.log2 = 24 := (Nat.log2_eq_iff (by omega)).mpr ⟨hlt.le, by omega⟩
    have hulp : Rounding.ulp 24 i = 2 := by rw [Rounding.ulp, hlog]; rfl
    simp only [toFloat, Rounding.roundBits, hulp]
    split_ifs <;> omega
  · rw [toFloat_of_le hge]
    omega

/-- A table that is used above three quarters. -/
theorem exists_overloaded : ∃ k, 3 * (App.reloaded^[k] hashmapCreate.counters).capacity <
    4 * (App.reloaded^[k] hashmapCreate.counters).count := by
  obtain ⟨k, t, hv, ht⟩ := exists_vacated (j := 21) le_rfl
  obtain ⟨k', hv'⟩ := hv.fill (15 * 2 ^ 21 + 1) (by omega) fun i hi => by
    have := toFloat_le_limit (i := i + 1) (by omega)
    rw [hashmapDefaultCapacity, hashmapResizeFactor]
    omega
  refine ⟨k', ?_⟩
  rw [hv'.cap, hv'.count, hashmapDefaultCapacity, hashmapResizeFactor]
  omega

end Vacated

/-- The reload that doubles the capacity out of the range of an `int`. -/
theorem exists_overflow : ∃ k, (App.reloaded^[k] hashmapCreate.counters).capacity < 2 ^ 31 ∧
    2 ^ 31 ≤ (App.reloaded^[k + 1] hashmapCreate.counters).capacity := by
  have hlarge : ∃ k, 2 ^ 31 ≤ (App.reloaded^[k] hashmapCreate.counters).capacity := by
    obtain ⟨j, t, -, ht, hle⟩ := reloaded_capacity (2 ^ 32)
    exact ⟨2 ^ 32, by omega⟩
  have hpos : Nat.find hlarge ≠ 0 := fun h0 => by
    have hspec := Nat.find_spec hlarge
    rw [h0] at hspec
    exact absurd hspec (by decide)
  obtain ⟨k, hk⟩ := Nat.exists_eq_succ_of_ne_zero hpos
  refine ⟨k, Nat.not_le.mp (Nat.find_min hlarge (by omega)), ?_⟩
  have hspec := Nat.find_spec hlarge
  rwa [hk] at hspec

/-- Reloading a single module makes the capacity overflow, and a large table is used above three
quarters. -/
theorem churn_overflows : (¬ ∀ al ds reqs r srv₀ start srv outs srv' o,
      appmainStart (some ds) = some (srv₀, start) → feed (exlib al) srv₀ reqs = some (srv, outs) →
        exlib al srv r = some (srv', o) → (touched (reqs ++ [r])).card ≤ 1 →
          srv.mloc.capacity < 2 ^ 31 → srv'.mloc.capacity < 2 ^ 31) ∧
    ¬ ∀ al ds reqs srv₀ start srv outs,
      appmainStart (some ds) = some (srv₀, start) → feed (exlib al) srv₀ reqs = some (srv, outs) →
        4 * srv.mloc.count ≤ 3 * srv.mloc.capacity := by
  constructor
  · intro hall
    obtain ⟨k, hlt, hge⟩ := exists_overflow
    obtain ⟨srv₀, start, srv, outs, srv', o, h₀, h₁, hcnt, h₂, hcap⟩ := run_reloads k
    have hlt' : srv.mloc.capacity < 2 ^ 31 := by
      rw [← hcnt] at hlt
      exact hlt
    have := hall .bump [] _ _ srv₀ start srv outs srv' o h₀ h₁ h₂ (card_touched_reloads k) hlt'
    omega
  · intro hall
    obtain ⟨k, hk⟩ := exists_overloaded
    obtain ⟨srv₀, start, srv, outs, -, -, h₀, h₁, hcnt, -⟩ := run_reloads k
    have hload := hall .bump [] _ srv₀ start srv outs h₀ h₁
    rw [← hcnt] at hk
    exact absurd hload (Nat.not_le.mpr hk)

end Csrv.App
