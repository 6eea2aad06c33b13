import Csrv.App.Cache
import Csrv.Lib.Run
import Csrv.Lib.Trace

/-!
# Loads that nobody owns

For each path, the successful `dlopen` calls of `exlib` minus its `dlclose` calls, against the
cached entry for the path. `serve_slack` says what one call adds to the difference, and
`exlib_balanced_iff` that a run ends balanced exactly when none of its calls opens a module it
then neither runs nor keeps.
-/

namespace Csrv.App

open Csrv.Map Run Trace

def Event.opensPath (p : Bytes) : Event → Bool
  | .dlopen q h => q == p && h != 0
  | _ => false

def Event.closesPath (p : Bytes) : Event → Bool
  | .dlclose (.cached q _) _ => q == p
  | .dlclose (.opened q) _ => q == p
  | _ => false

/-- Successful `dlopen` calls of `exlib` for `p` minus its `dlclose` calls for `p`. -/
def pathRefs (p : Bytes) (tr : List Event) : ℤ :=
  balance (Event.opensPath p) (Event.closesPath p) tr

/-- The number of live cache entries for `p`. -/
def Server.liveEntries (srv : Server) (p : Bytes) : ℤ :=
  match srv.cached p with
  | some (some _) => 1
  | _ => 0

/-- The call opens its module, and then returns without having called or kept it. -/
def Leaks (srv : Server) (r : Request) : Prop :=
  r.env.path2 = true ∧ (r.flush = true ∨ srv.cached r.path2 = some none) ∧ r.env.dlopen ≠ 0 ∧
    r.Drops

def Cache.liveEntries (c : Cache) (p : Bytes) : ℤ := if (c.find p).isSome then 1 else 0

/-- `Leaks` on the cache. -/
def Cache.Leaks (c : Cache) (r : Request) : Prop :=
  r.env.path2 = true ∧ c.Misses r ∧ r.env.dlopen ≠ 0 ∧ r.Drops

section Step

variable {al : Malloc} {srv : Server} {g : Hashmap} {c : Cache} {r : Request} {p q : Bytes}
  {s t : List Event}

theorem Represents.liveEntries (h : Represents srv g c) (p : Bytes) :
    srv.liveEntries p = c.liveEntries p := by
  unfold Server.liveEntries Cache.liveEntries
  rw [h.cached]
  cases c.find p <;> rfl

theorem Represents.leaks_iff (h : Represents srv g c) : Leaks srv r ↔ c.Leaks r := by
  unfold Leaks Cache.Leaks Cache.Misses
  rw [h.cached]
  simp

@[simp] theorem pathRefs_nil : pathRefs p [] = 0 := rfl

@[simp] theorem pathRefs_append : pathRefs p (s ++ t) = pathRefs p s + pathRefs p t :=
  balance_append _ _

/-- What an event adds to `pathRefs p`. -/
def Event.weight (p : Bytes) : Event → ℤ := Trace.weight (Event.opensPath p) (Event.closesPath p)

@[simp] theorem pathRefs_cons {e : Event} : pathRefs p (e :: t) = e.weight p + pathRefs p t :=
  balance_cons _ _

@[simp] theorem weight_dlopen {n : ℕ} :
    (Event.dlopen q n).weight p = if q = p ∧ n ≠ 0 then 1 else 0 := by
  simp [Event.weight, Trace.weight, Event.opensPath, Event.closesPath]

@[simp] theorem weight_cached {a n : ℕ} :
    (Event.dlclose (.cached q a) n).weight p = if q = p then -1 else 0 := by
  by_cases h : q = p <;> simp [Event.weight, Trace.weight, Event.opensPath, Event.closesPath, h]

@[simp] theorem weight_opened {n : ℕ} :
    (Event.dlclose (.opened q) n).weight p = if q = p then -1 else 0 := by
  by_cases h : q = p <;> simp [Event.weight, Trace.weight, Event.opensPath, Event.closesPath, h]

@[simp] theorem weight_dlsym {n : ℕ} {o : Option Sym} : (Event.dlsym n o).weight p = 0 := rfl

@[simp] theorem weight_read {a : ℕ} : (Event.read a).weight p = 0 := rfl

@[simp] theorem weight_call {f : Sym} : (Event.call f).weight p = 0 := rfl

@[simp] theorem weight_reply {fmt : Bytes} : (Event.reply fmt).weight p = 0 := rfl

/-- Closing the cached entry of `q` gives back what its liveness counts. -/
theorem pathRefs_closing : pathRefs p (c.closing q) = (c.drop q).liveEntries p - c.liveEntries p := by
  unfold Cache.liveEntries
  rw [Cache.find_drop]
  unfold Cache.closing
  by_cases hp : p = q
  · subst hp
    cases c.find p with
    | none => simp
    | some ae => simp
  · cases c.find q with
    | none => simp [hp]
    | some ae => simp [hp, Ne.symm hp]

open Classical in
/-- **One call.** The balance follows the cache, but for one lost reference in a leaking call. -/
theorem serve_slack (al : Malloc) (c : Cache) (r : Request) (p : Bytes) :
    pathRefs p (c.serve al r).2.1 =
      (c.serve al r).1.liveEntries p - c.liveEntries p + if c.Leaks r ∧ r.path2 = p then 1 else 0 := by
  have hl := Cache.load_cases al c r
  unfold Cache.serve
  generalize (c.load al r).2.2 = frame at hl
  generalize (c.load al r).2.1 = ev at hl
  generalize (c.load al r).1 = c' at hl
  cases hl with
  | enomem h2 =>
    have hn : ¬ c.Leaks r := fun h => by simp [h.1] at h2
    simp [hn, Cache.frameEvents]
  | @hit a e h2 hf hc =>
    have hn : ¬ c.Leaks r := fun h => by simpa [Cache.Misses, hf, hc] using h.2.1
    simp [hn, Cache.frameEvents, exlibDone]
  | fail h2 hm h0 =>
    have hn : ¬ c.Leaks r := fun h => h.2.2.1 h0
    simp [hn, Cache.frameEvents, pathRefs_closing]
  | leak h2 hm h0 hd =>
    have hn : c.Leaks r := ⟨h2, hm, h0, hd⟩
    simp [hn, Cache.frameEvents, pathRefs_closing, h0]
  | own h2 hf h0 hd =>
    have hn : ¬ c.Leaks r := fun h => by simpa [Request.Drops, hf, hd] using h.2.2.2
    by_cases hp : r.path2 = p <;>
      simp [hn, Cache.frameEvents, exlibDone, pathRefs_closing, h0, hp]
  | keep h2 hf hc h0 hd h3 he =>
    have hn : ¬ c.Leaks r := fun h => by simpa [Request.Drops, hf, hd, h3, he] using h.2.2.2
    by_cases hp : r.path2 = p
    · subst hp
      simp [hn, Cache.frameEvents, exlibDone, Cache.closing_of_none hc, h0, Cache.liveEntries,
        Cache.find_put, hc]
    · simp [hn, Cache.frameEvents, exlibDone, Cache.closing_of_none hc, Cache.liveEntries,
        Cache.find_put, hp, Ne.symm hp]

end Step

/-! ## Runs -/

section Runs

variable (al : Malloc)

/-- A call of the run that leaks, given the state the run starts in. -/
def LeaksAt (srv : Server) (reqs : List Request) (n : ℕ) : Prop :=
  ∃ s os r, feed (exlib al) srv (reqs.take n) = some (s, os) ∧ reqs[n]? = some r ∧ Leaks s r

theorem leaksAt_zero {srv : Server} {r : Request} {reqs : List Request} :
    LeaksAt al srv (r :: reqs) 0 ↔ Leaks srv r := by
  constructor
  · rintro ⟨s, os, q, hf, hq, hl⟩
    cases hf
    cases hq
    exact hl
  · exact fun hl => ⟨srv, [], r, rfl, rfl, hl⟩

theorem leaksAt_succ {srv srv₁ : Server} {r : Request} {reqs : List Request} {n : ℕ}
    {o : List Event × ℤ} (h : exlib al srv r = some (srv₁, o)) :
    LeaksAt al srv (r :: reqs) (n + 1) ↔ LeaksAt al srv₁ reqs n := by
  constructor
  · rintro ⟨s, os, q, hf, hq, hl⟩
    obtain ⟨s₁, o₁, os', h₁, h₂, rfl⟩ := feed_cons_iff.mp hf
    cases h.symm.trans h₁
    exact ⟨s, os', q, h₂, by simpa using hq, hl⟩
  · rintro ⟨s, os, q, hf, hq, hl⟩
    exact ⟨s, o :: os, q, feed_cons_iff.mpr ⟨_, _, _, h, hf, rfl⟩, by simpa using hq, hl⟩

theorem feed_slack (reqs : List Request) : ∀ {srv : Server} {g : Hashmap} {c : Cache},
    Represents srv g c → ∃ srv' outs c', feed (exlib al) srv reqs = some (srv', outs) ∧
      Represents srv' g c' ∧
      (∀ p, c'.liveEntries p ≤ c.liveEntries p + pathRefs p (outs.flatMap (·.1))) ∧
      ((∀ p, c'.liveEntries p = c.liveEntries p + pathRefs p (outs.flatMap (·.1))) ↔
        ∀ n, ¬ LeaksAt al srv reqs n) := by
  induction reqs with
  | nil =>
    intro srv g c hR
    refine ⟨srv, [], c, rfl, hR, by simp, by simp [LeaksAt]⟩
  | cons r reqs ih =>
    intro srv g c hR
    obtain ⟨srv₁, h₁, hR₁, -⟩ := exlib_represents al hR r
    obtain ⟨srv', outs, c', h₂, hR', hle, hiff⟩ := ih hR₁
    have hs := serve_slack al c r
    have hflat : ∀ p, pathRefs p (((c.serve al r).2 :: outs).flatMap (·.1)) =
        pathRefs p (c.serve al r).2.1 + pathRefs p (outs.flatMap (·.1)) := by simp
    refine ⟨srv', _, c', feed_cons_iff.mpr ⟨_, _, _, h₁, h₂, rfl⟩, hR', ?_, ?_⟩
    · intro p
      rw [hflat, hs]
      have := hle p
      split_ifs <;> omega
    have hat : (∀ n, ¬ LeaksAt al srv (r :: reqs) n) ↔
        ¬ c.Leaks r ∧ ∀ n, ¬ LeaksAt al srv₁ reqs n := by
      rw [← hR.leaks_iff, ← leaksAt_zero]
      constructor
      · exact fun h => ⟨h 0, fun n => (leaksAt_succ al h₁).not.mp (h (n + 1))⟩
      · rintro ⟨h₀, hn⟩ (_ | n)
        · exact h₀
        · exact (leaksAt_succ al h₁).not.mpr (hn n)
    rw [hat, ← hiff]
    constructor
    · intro h
      -- the rest cannot give back what the first call lost
      have hn : ¬ c.Leaks r := fun hleak => by
        have h₀ := h r.path2
        have := hle r.path2
        rw [hflat, hs, if_pos ⟨hleak, rfl⟩] at h₀
        omega
      refine ⟨hn, fun p => ?_⟩
      have h₀ := h p
      rw [hflat, hs, if_neg fun hl => hn hl.1] at h₀
      omega
    · rintro ⟨hn, h⟩ p
      rw [hflat, hs, h p, if_neg fun hl => hn hl.1]
      omega

/-- **Balance.** A run of `exlib` calls from an empty cache ends, and it ends with as many open
references for each path as there are live entries for it, exactly when no call of it leaks. -/
theorem exlib_balanced_iff (mglb : Hashmap) (reqs : List Request) :
    ∃ srv outs, feed (exlib al) ⟨mglb, hashmapCreate, []⟩ reqs = some (srv, outs) ∧
      ((∀ p, pathRefs p (outs.flatMap (·.1)) = srv.liveEntries p) ↔
        ∀ n, ¬ LeaksAt al ⟨mglb, hashmapCreate, []⟩ reqs n) := by
  obtain ⟨srv, outs, c, hf, hR, -, hiff⟩ := feed_slack al reqs (empty_represents (g := mglb))
  refine ⟨srv, outs, hf, ?_⟩
  rw [← hiff]
  apply forall_congr'
  intro p
  rw [hR.liveEntries, show Cache.empty.liveEntries p = 0 from rfl, zero_add]
  exact eq_comm

end Runs

/-- A request for `/data1`, a module without `entry`. -/
def dataRequest : Request where
  path := ascii "./www/data1.so"
  query := []
  env := ⟨fun _ => 0, true, 4096, none, true, some 0⟩

/-- One request for `/data1` leaves the module open and nothing cached. -/
theorem exlib_leaks_data :
    ¬ ∀ al mglb reqs srv outs, feed (exlib al) ⟨mglb, hashmapCreate, []⟩ reqs = some (srv, outs) →
      ∀ p, pathRefs p (outs.flatMap (·.1)) = srv.liveEntries p := by
  intro h
  have hrun : (feed (exlib .bump) ⟨hashmapCreate, hashmapCreate, []⟩ [dataRequest]).map
      (fun o => decide (pathRefs dataRequest.path (o.2.flatMap (·.1)) =
        o.1.liveEntries dataRequest.path)) = some false := by
    decide +kernel
  obtain ⟨⟨srv, outs⟩, hf, hd⟩ := Option.map_eq_some_iff.mp hrun
  exact of_decide_eq_false hd (h _ _ _ _ _ hf _)

end Csrv.App
