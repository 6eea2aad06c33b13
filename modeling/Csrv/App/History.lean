import Csrv.App.Cache
import Csrv.Lib.Run

/-!
# The cache follows its history

`stored` says from the earlier calls alone what is cached for a path, and `expected` what a call
does. `exlib_follows_history`: every run of `exlib` calls behaves so, and only the earlier calls
on its own path matter to a call.
-/

namespace Csrv.App

open Csrv.Map Run

/-- The entry pointer a call gets when it loads. -/
def Request.loaded (r : Request) : Option Sym :=
  if r.env.dlopen = 0 then none else r.env.dlsym.map (⟨r.env.dlopen, ·⟩)

/-- The pointer of the last call on `p` that loaded successfully without flush and has had no
flush on `p` since; the history is listed backwards. -/
def stored : List Request → Bytes → Option Sym
  | [], _ => none
  | r :: hist, p =>
    if r.path2 = p then
      if r.flush then none
      else
        match stored hist p with
        | some s => some s
        | none => r.loaded
    else stored hist p

/-- The calls of `dlopen` with their results, the calls through `sym` and the calls of `ov_free`. -/
structure Observed where
  opened : List (Bytes × ℕ)
  called : List Sym
  freed : List (Bytes × ℕ)
  deriving DecidableEq

def observe (ev : List Event) : Observed where
  opened := ev.filterMap fun | .dlopen p h => some (p, h) | _ => none
  called := ev.filterMap fun | .call s => some s | _ => none
  freed := ev.filterMap fun | .ovFree k v => some (k, v) | _ => none

/-- What the call `r` does after the calls `hist`. -/
def expected (hist : List Request) (r : Request) : Observed :=
  match if r.flush then none else stored hist r.path2 with
  | some s => ⟨[], [s], []⟩
  | none => ⟨[(r.path2, r.env.dlopen)], r.loaded.toList, []⟩

variable {c : Cache} {hist : List Request} {r : Request} {p : Bytes}

/-- Calls on other paths do not matter. -/
theorem stored_filter : stored (hist.filter fun r => r.path2 = p) p = stored hist p := by
  induction hist with
  | nil => rfl
  | cons r hist ih =>
    by_cases h : r.path2 = p
    · rw [List.filter_cons_of_pos (by simpa using h), stored, stored, ih]
    · rw [List.filter_cons_of_neg (by simpa using h), stored, if_neg h, ih]

theorem expected_filter :
    expected (hist.filter fun q => q.path2 = r.path2) r = expected hist r := by
  rw [expected, expected, stored_filter]

/-- The cache holds what the history says. -/
def Follows (c : Cache) (hist : List Request) : Prop :=
  ∀ p, (c.find p).map (·.2.usr) = stored hist p

theorem follows_empty : Follows .empty [] := fun _ => rfl

theorem Follows.drop (h : Follows c hist) (hf : r.flush = true) :
    Follows (c.drop r.path2) (r :: hist) := by
  intro p
  rw [Cache.find_drop, stored]
  by_cases hp : p = r.path2
  · rw [if_pos hp, if_pos hp.symm, if_pos hf]
    rfl
  · rw [if_neg hp, if_neg (Ne.symm hp), h p]

theorem Follows.skip (h : Follows c hist) (hs : r.flush = false)
    (hl : stored hist r.path2 ≠ none ∨ r.loaded = none) : Follows c (r :: hist) := by
  intro p
  rw [stored, h p]
  by_cases hp : r.path2 = p
  · rw [if_pos hp, hs]
    subst hp
    cases hst : stored hist r.path2 with
    | some s => rfl
    | none => exact (hl.resolve_left (not_not.mpr hst)).symm
  · rw [if_neg hp]

theorem Follows.put {al : Malloc} (h : Follows c hist) (hs : r.flush = false) {i : ℕ} {s : Sym}
    (hst : stored hist r.path2 = none) (hl : r.loaded = some s) :
    Follows (c.put al r.path2 i s) (r :: hist) := by
  intro p
  rw [Cache.find_put, stored]
  by_cases hp : p = r.path2
  · subst hp
    rw [if_pos rfl, if_pos rfl, hs, hst]
    exact hl.symm
  · rw [if_neg hp, if_neg (Ne.symm hp), h p]

theorem observe_closing_append {ev : List Event} : observe (c.closing p ++ ev) = observe ev := by
  rw [Cache.closing]
  cases c.find p <;> rfl

theorem Follows.of_loaded_none {c' : Cache} (h : Follows c hist)
    (hflush : r.flush = true → Follows c' (r :: hist)) (hkeep : r.flush = false → c' = c)
    (hl : r.loaded = none) : Follows c' (r :: hist) := by
  cases hf : r.flush with
  | true => exact hflush hf
  | false => exact (hkeep hf ▸ h).skip hf (Or.inr hl)

theorem expected_of_none (h : r.flush = true ∨ stored hist r.path2 = none) :
    expected hist r = ⟨[(r.path2, r.env.dlopen)], r.loaded.toList, []⟩ := by
  rw [expected]
  rcases h with hf | hn
  · rw [if_pos hf]
  · rw [hn, ite_self]

/-- A call that loads, from the cache `c'` its flush block leaves. -/
theorem miss_follows (al : Malloc) (c' : Cache) (h : Follows c hist) (ha : r.env.Allocates)
    (hnone : r.flush = true ∨ stored hist r.path2 = none)
    (hflush : r.flush = true → Follows c' (r :: hist)) (hkeep : r.flush = false → c' = c) :
    observe ((c'.miss al r.path2 r.flush r.env).2.1 ++
        Cache.frameEvents (c'.miss al r.path2 r.flush r.env).2.2) = expected hist r ∧
      Follows (c'.miss al r.path2 r.flush r.env).1 (r :: hist) := by
  obtain ⟨i, hi⟩ := Option.isSome_iff_exists.mp ha.entry
  have hfail := h.of_loaded_none hflush hkeep
  rw [expected_of_none hnone, Cache.miss]
  by_cases h0 : r.env.dlopen = 0
  · have hl : r.loaded = none := if_pos h0
    rw [if_pos h0, hl, h0]
    exact ⟨rfl, hfail hl⟩
  rw [if_neg h0]
  cases hd : r.env.dlsym with
  | none =>
    have hl : r.loaded = none := by rw [Request.loaded, if_neg h0, hd]; rfl
    rw [hl]
    exact ⟨rfl, hfail hl⟩
  | some addr =>
    have hl : r.loaded = some ⟨r.env.dlopen, addr⟩ := by
      rw [Request.loaded, if_neg h0, hd]; rfl
    rw [hl]
    cases hf : r.flush with
    | true => exact ⟨rfl, hflush hf⟩
    | false =>
      obtain rfl := hkeep hf
      have hn : stored hist r.path2 = none :=
        hnone.resolve_left (by rw [hf]; exact Bool.noConfusion)
      simp only [ha.path3, hi, Bool.not_true, Bool.false_eq_true, if_false]
      exact ⟨rfl, h.put hf hn hl⟩

/-- **One call.** -/
theorem serve_follows (al : Malloc) (h : Follows c hist) (ha : r.env.Allocates) :
    observe (c.serve al r).2.1 = expected hist r ∧ Follows (c.serve al r).1 (r :: hist) := by
  have hst := h r.path2
  unfold Cache.serve Cache.load
  simp only [ha.path2, Bool.not_true, Bool.false_eq_true, if_false]
  cases hf : r.flush with
  | true =>
    have hm := miss_follows al (c.drop r.path2) h ha (Or.inl hf)
      (fun _ => h.drop hf) (fun h => absurd (hf.symm.trans h) (by decide))
    rw [hf] at hm
    simpa only [if_true, List.append_assoc, observe_closing_append] using hm
  | false =>
    simp only [Bool.false_eq_true, if_false]
    cases hfind : c.find r.path2 with
    | none =>
      rw [hfind] at hst
      have hm := miss_follows al c h ha (Or.inr hst.symm)
        (fun h => absurd (hf.symm.trans h) (by decide)) (fun _ => rfl)
      rwa [hf] at hm
    | some ae =>
      rw [hfind] at hst
      refine ⟨?_, h.skip hf (Or.inl (by rw [← hst]; simp))⟩
      rw [expected, hf, ← hst]
      rfl

/-- **The cache follows its history.** A run of `exlib` calls whose allocations succeed ends; each
call opens, calls and frees what `expected` says from the earlier calls on its own path, and what
is cached in the end is what `stored` says. -/
theorem exlib_follows_history (al : Malloc) (mglb : Hashmap) (reqs : List Request)
    (ha : ∀ r ∈ reqs, r.env.Allocates) :
    ∃ srv outs, feed (exlib al) ⟨mglb, hashmapCreate, []⟩ reqs = some (srv, outs) ∧
      (∀ n (hn : n < reqs.length), (outs.map fun o => observe o.1)[n]? =
        some (expected ((reqs.take n).reverse.filter fun q => q.path2 = reqs[n].path2) reqs[n])) ∧
      ∀ p, srv.cached p = some (stored reqs.reverse p) := by
  have hrev : ∀ (l : List Request), l.foldl (fun t r => r :: t) [] = l.reverse := fun l => by
    simp
  have hstep : ∀ (srv : Server) (hist : List Request) (r : Request),
      (∃ c, Represents srv mglb c ∧ Follows c hist) → r.env.Allocates →
        ∃ srv' o, exlib al srv r = some (srv', o) ∧
          (∃ c, Represents srv' mglb c ∧ Follows c (r :: hist)) ∧ observe o.1 = expected hist r := by
    rintro srv hist r ⟨c, hR, hc⟩ ha
    obtain ⟨srv', h, hR', -⟩ := exlib_represents al hR r
    obtain ⟨hobs, hc'⟩ := serve_follows al hc ha
    exact ⟨srv', _, h, ⟨_, hR', hc'⟩, hobs⟩
  obtain ⟨srv, outs, hf, ⟨c, hR, hc⟩, hout⟩ :=
    feed_simulates (fun hist r => (r :: hist, expected hist r))
      (fun o : List Event × ℤ => observe o.1)
      (fun srv hist => ∃ c, Represents srv mglb c ∧ Follows c hist) hstep
      ⟨.empty, empty_represents, follows_empty⟩ ha
  refine ⟨srv, outs, hf, fun n hn => ?_, fun p => ?_⟩
  · rw [hout n hn, hrev, expected_filter]
  · rw [hR.cached, hc p, hrev]

/-- A request for `/tpl`, with a loader that has the file at 4096 and its `entry` at 4352. -/
def tplRequest (query : String) : Request where
  path := ascii "./www/tpl.so"
  query := ascii query
  env := ⟨fun _ => 0, true, 4096, some 4352, true, some 0⟩

/-- Loading `/tpl`, using it and flushing it: the second call uses the first one's pointer. -/
theorem exlib_follows_history_tpl :
    ∃ srv outs, feed (exlib .bump) ⟨hashmapCreate, hashmapCreate, []⟩
        [tplRequest "", tplRequest "", tplRequest "flush=true"] = some (srv, outs) ∧
      (outs.map fun o => observe o.1)[1]? = some ⟨[], [⟨4096, 4352⟩], []⟩ ∧
      srv.cached (ascii "./www/tpl.so") = some none := by
  have ha : ∀ q, (tplRequest q).env.Allocates := fun q => ⟨rfl, rfl, rfl⟩
  obtain ⟨srv, outs, hf, hout, hc⟩ := exlib_follows_history .bump hashmapCreate
    [tplRequest "", tplRequest "", tplRequest "flush=true"] (by simp [ha])
  refine ⟨srv, outs, hf, ?_, ?_⟩
  · rw [hout 1 (by decide)]
    decide +kernel
  · rw [hc]
    decide +kernel

end Csrv.App
