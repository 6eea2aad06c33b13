import Csrv.App.Ownership

/-!
# Instances of a module

The loader as reference counts: opening a file that is already open returns the instance that is
there, and an instance goes when its count reaches zero. `reqidx` is the counter that `tpl` keeps
as static state: its constructor resets it and `entry` increments it.

`flush_fresh_iff`: in a run of HTTP requests, a successful request with `flush=true` runs an
instance loaded by that very request exactly when no reference to the file was held before it, but
for the one of the entry cached under its own path.
-/

namespace Csrv.App

open Csrv.Map Csrv.Mongoose Run

/-- The instance of a file: how often the file has been loaded, and its static state. -/
structure Instance where
  serial : ℕ
  reqidx : ℕ
  deriving DecidableEq

/-- A call of `entry`. -/
def Instance.entry (i : Instance) : Instance := { i with reqidx := i.reqidx + 1 }

structure Loader where
  refs : ℕ → ℕ
  inst : ℕ → Instance

namespace Loader

def init : Loader := ⟨fun _ => 0, fun _ => ⟨0, 0⟩⟩

/-- A load runs the constructor. -/
def ctor (l : Loader) (h : ℕ) : Loader :=
  { l with inst := Function.update l.inst h ⟨(l.inst h).serial + 1, 0⟩ }

/-- What an event does to the loaded modules. -/
def step (l : Loader) : Event → Loader
  | .dlopen _ h =>
    if h = 0 then l
    else
      let l := if l.refs h = 0 then l.ctor h else l
      { l with refs := Function.update l.refs h (l.refs h + 1) }
  | .dlclose _ h => { l with refs := Function.update l.refs h (l.refs h - 1) }
  | .call s =>
    { l with inst := Function.update l.inst s.origin (l.inst s.origin).entry }
  | _ => l

def run (l : Loader) (tr : List Event) : Loader := tr.foldl step l

end Loader

/-! ## Requests -/

/-- One HTTP request: the bytes received, and what its handling gets from outside. -/
structure HttpRequest where
  msg : Bytes
  access : Bytes → Bool
  allocs : Allocs
  env : Env

/-- The call of `exlib` that a request leads to. -/
def HttpRequest.module (q : HttpRequest) : Option Request :=
  (mgHttpParse q.msg).bind fun hm =>
    match cb q.access q.allocs hm with
    | .exlib path => some ⟨path, hm.query, q.env⟩
    | _ => none

theorem HttpRequest.module_eq {q : HttpRequest} {hm : HttpMessage} {path : Bytes}
    (hp : mgHttpParse q.msg = some hm) (hc : cb q.access q.allocs hm = .exlib path) :
    q.module = some ⟨path, hm.query, q.env⟩ := by
  unfold HttpRequest.module
  rw [hp, Option.bind_some, hc]

structure World where
  srv : Server
  loader : Loader

/-- Handling one request; the output is that of `exlib`, if it is called. -/
def handle (al : Malloc) (w : World) (q : HttpRequest) :
    Option (World × Option (List Event × ℤ)) :=
  match q.module with
  | none => some (w, none)
  | some r => (exlib al w.srv r).map fun o => (⟨o.1, w.loader.run o.2.1⟩, some o.2)

/-- The world when the server starts to listen. -/
def worldStart (ds : List DirEntry) : Option World :=
  (appmainStart (some ds)).map fun o => ⟨o.1, Loader.init.run o.2⟩

/-- In the run of `reqs` from `w₀` the world `w` is reached, and the next request is a call `r` of
`exlib` with `flush=true` that returns 0 with the events `ev`. -/
def FlushStep (al : Malloc) (w₀ : World) (reqs : List HttpRequest) (w : World) (r : Request)
    (ev : List Event) : Prop :=
  ∃ n os q w', feed (handle al) w₀ (reqs.take n) = some (w, os) ∧ reqs[n]? = some q ∧
    q.module = some r ∧ r.flush = true ∧ handle al w q = some (w', some (ev, 0))

def Event.isCall : Event → Bool
  | .call _ => true
  | _ => false

/-- The call runs an instance of `h` that these events have loaded, in its initial state. -/
def RunsFresh (l : Loader) (ev : List Event) (h : ℕ) : Prop :=
  (∃ s, Event.call s ∈ ev ∧ s.origin = h) ∧
    (l.run (ev.takeWhile (!·.isCall))).inst h = ⟨(l.inst h).serial + 1, 0⟩

/-- Every reference to the file that `r` opens is that of the entry cached for its path. -/
def Sole (w : World) (r : Request) : Prop :=
  w.loader.refs r.env.dlopen ≤
    if (w.srv.entry r.path2).map (·.map (·.hdl)) = some (some r.env.dlopen) then 1 else 0

section Fresh

variable {al : Malloc} {c : Cache} {l : Loader} {r : Request} {p : Bytes} {h : ℕ}

@[simp] theorem run_cons {e : Event} {tr : List Event} : l.run (e :: tr) = (l.step e).run tr := rfl

@[simp] theorem run_nil : l.run [] = l := rfl

theorem run_append {s t : List Event} : l.run (s ++ t) = (l.run s).run t := List.foldl_append

theorem run_closing_inst : (l.run (c.closing p)).inst = l.inst := by
  unfold Cache.closing
  rcases c.find p with _ | ⟨a, e⟩ <;> rfl

/-- The flush block gives back the reference of the cached entry. -/
theorem run_closing_refs : (l.run (c.closing p)).refs h =
    l.refs h - if (c.find p).map (·.2.hdl) = some h then 1 else 0 := by
  unfold Cache.closing
  rcases c.find p with _ | ⟨a, e⟩
  · simp
  · by_cases hh : e.hdl = h
    · subst hh
      simp [Loader.step]
    · simp [Loader.step, hh, Function.update_of_ne (Ne.symm hh)]

theorem takeWhile_closing {ev : List Event} :
    (c.closing p ++ ev).takeWhile (!·.isCall) = c.closing p ++ ev.takeWhile (!·.isCall) := by
  unfold Cache.closing
  rcases c.find p with _ | ⟨a, e⟩ <;> rfl

/-- Opening a file gives a new instance exactly if nobody holds it. -/
theorem step_dlopen_inst (h0 : h ≠ 0) :
    (l.step (.dlopen p h)).inst h = ⟨(l.inst h).serial + 1, 0⟩ ↔ l.refs h = 0 := by
  simp only [Loader.step, if_neg h0]
  by_cases hr : l.refs h = 0
  · simp [hr, Loader.ctor]
  · rw [if_neg hr]
    refine iff_of_false (fun he => ?_) hr
    have := congrArg Instance.serial he
    simp at this

/-- A call that closes its cached entry, opens its module and runs it. -/
theorem runsFresh_iff {addr : ℕ} {o : Option Sym} {rest : List Event} (h0 : h ≠ 0) :
    RunsFresh l (c.closing p ++ .dlopen p h :: .dlsym h o :: .call ⟨h, addr⟩ :: rest) h ↔
      l.refs h ≤ if (c.find p).map (·.2.hdl) = some h then 1 else 0 := by
  have hcall : ∃ s, Event.call s ∈
      c.closing p ++ .dlopen p h :: .dlsym h o :: .call ⟨h, addr⟩ :: rest ∧ s.origin = h :=
    ⟨⟨h, addr⟩, by simp, rfl⟩
  have hpre : (l.run ((c.closing p ++ .dlopen p h :: .dlsym h o :: .call ⟨h, addr⟩ ::
      rest).takeWhile (!·.isCall))).inst = ((l.run (c.closing p)).step (.dlopen p h)).inst := by
    rw [takeWhile_closing, run_append]
    rfl
  rw [RunsFresh, and_iff_right hcall, hpre, ← run_closing_inst (c := c) (p := p) (l := l),
    step_dlopen_inst h0, run_closing_refs]
  split_ifs <;> omega

/-- **One flush.** -/
theorem serve_fresh_iff (hf : r.flush = true) (hret : (c.serve al r).2.2 = 0) :
    RunsFresh l (c.serve al r).2.1 r.env.dlopen ↔
      l.refs r.env.dlopen ≤ if (c.find r.path2).map (·.2.hdl) = some r.env.dlopen then 1 else 0 := by
  have hl := Cache.load_cases al c r
  unfold Cache.serve at hret ⊢
  generalize (c.load al r).2.2 = frame at hl hret
  generalize (c.load al r).2.1 = ev at hl
  generalize (c.load al r).1 = c' at hl
  cases hl with
  | hit _ hf' _ => exact absurd (hf.symm.trans hf') (by decide)
  | keep _ hf' _ _ _ _ _ => exact absurd (hf.symm.trans hf') (by decide)
  | enomem _ => simp at hret
  | fail _ _ _ => simp at hret
  | leak _ _ _ _ => simp at hret
  | own _ _ h0 _ =>
    simp only [Cache.frameEvents, List.append_assoc, List.cons_append, List.nil_append]
    exact runsFresh_iff h0

end Fresh

/-! ## Runs -/

/-- The server of the world represents a cache. -/
def World.Sound (w : World) : Prop := ∃ g c, Represents w.srv g c

theorem handle_represents (al : Malloc) {w : World} {g : Hashmap} {c : Cache} {q : HttpRequest}
    {r : Request} (hR : Represents w.srv g c) (hq : q.module = some r) :
    ∃ w', handle al w q = some (w', some (c.serve al r).2) ∧
      Represents w'.srv g (c.serve al r).1 := by
  obtain ⟨srv', h, hR', -⟩ := exlib_represents al hR r
  refine ⟨⟨srv', w.loader.run (c.serve al r).2.1⟩, ?_, hR'⟩
  unfold handle
  simp only [hq, h, Option.map_some]

theorem handle_sound (al : Malloc) (w : World) (q : HttpRequest) (hw : w.Sound) (_ : True) :
    ∃ w' o, handle al w q = some (w', o) ∧ w'.Sound := by
  cases hq : q.module with
  | none =>
    refine ⟨w, none, ?_, hw⟩
    unfold handle
    rw [hq]
  | some r =>
    obtain ⟨g, c, hR⟩ := hw
    obtain ⟨w', h, hR'⟩ := handle_represents al hR hq
    exact ⟨w', _, h, g, _, hR'⟩

theorem worldStart_sound (ds : List DirEntry) : ∃ w, worldStart ds = some w ∧ w.Sound := by
  obtain ⟨srv, ev, h, -, hR, -⟩ := appmainStart_owns ds
  exact ⟨⟨srv, Loader.init.run ev⟩, by rw [worldStart, h]; rfl, srv.mglb, _, hR⟩

theorem Represents.sole_iff {w : World} {g : Hashmap} {c : Cache} {r : Request}
    (hR : Represents w.srv g c) : Sole w r ↔ w.loader.refs r.env.dlopen ≤
      if (c.find r.path2).map (·.2.hdl) = some r.env.dlopen then 1 else 0 := by
  unfold Sole
  rw [hR.entry]
  simp only [Option.map_some, Option.map_map, Option.some.injEq]
  rfl

/-- **Fresh code.** Every run of HTTP requests from the start of the server goes through, and each
of its successful requests with `flush=true` runs an instance of its file that it has loaded
itself exactly when the file was not referenced before, but for the entry of its own path. -/
theorem flush_fresh_iff (al : Malloc) (ds : List DirEntry) (reqs : List HttpRequest) :
    ∃ w₀ w outs, worldStart ds = some w₀ ∧ feed (handle al) w₀ reqs = some (w, outs) ∧
      ∀ w₁ r ev, FlushStep al w₀ reqs w₁ r ev →
        (RunsFresh w₁.loader ev r.env.dlopen ↔ Sole w₁ r) := by
  obtain ⟨w₀, h₀, hw₀⟩ := worldStart_sound ds
  obtain ⟨w, outs, hf, -⟩ := feed_total (handle_sound al) hw₀ (fun _ _ => trivial)
  refine ⟨w₀, w, outs, h₀, hf, ?_⟩
  rintro w₁ r ev ⟨n, os, q, w', hpre, -, hq, hflush, hstep⟩
  obtain ⟨g, c, hR⟩ : w₁.Sound := by
    refine feed_invariant (fun w q w' o hw h => ?_) hw₀ hpre
    obtain ⟨w'', o', h', hs⟩ := handle_sound al w q hw trivial
    cases h.symm.trans h'
    exact hs
  obtain ⟨w'', h, -⟩ := handle_represents al hR hq
  have hserve : (c.serve al r).2 = (ev, 0) := by
    have := h.symm.trans hstep
    simp only [Option.some.injEq, Prod.mk.injEq] at this
    exact this.2
  have hev : (c.serve al r).2.1 = ev := congrArg Prod.fst hserve
  rw [hR.sole_iff, ← hev]
  exact serve_fresh_iff hflush (congrArg Prod.snd hserve)

/-- A request for a target, with the file at 4096 and its `entry` at 4352. -/
def tplGet (target : String) : HttpRequest where
  msg := ascii "GET " ++ ascii target ++ ascii " HTTP/1.1\r\n\r\n"
  access := fun _ => true
  allocs := ⟨true, true⟩
  env := ⟨fun _ => 0, true, 4096, some 4352, true, some 0⟩

/-- After `/tpl`, a request for `//tpl?flush=true` runs the old instance. -/
theorem flush_stale_alias :
    ¬ ∀ al ds reqs w₀ w r ev, worldStart ds = some w₀ → FlushStep al w₀ reqs w r ev →
      RunsFresh w.loader ev r.env.dlopen := by
  intro hall
  have hrun : ((worldStart []).bind fun w₀ => (feed (handle .bump) w₀ [tplGet "/tpl"]).bind fun o =>
      (handle .bump o.1 (tplGet "//tpl?flush=true")).bind fun o' => o'.2.map fun x =>
        (x.2, (o.1.loader.inst 4096).serial,
          ((o.1.loader.run (x.1.takeWhile (!·.isCall))).inst 4096).serial)) =
      some (0, 1, 1) := by
    decide +kernel
  obtain ⟨w₀, h₀, hrun⟩ := Option.bind_eq_some_iff.mp hrun
  obtain ⟨⟨w, os⟩, h₁, hrun⟩ := Option.bind_eq_some_iff.mp hrun
  obtain ⟨⟨w', o⟩, h₂, hrun⟩ := Option.bind_eq_some_iff.mp hrun
  obtain ⟨⟨ev, ret⟩, rfl, hx⟩ := Option.map_eq_some_iff.mp hrun
  simp only [Prod.mk.injEq] at hx
  obtain ⟨rfl, hser, hcall⟩ := hx
  have hmod : (tplGet "//tpl?flush=true").module = some ⟨ascii "./www//tpl.so",
      (plainGet (ascii "//tpl?flush=true")).query, (tplGet "").env⟩ :=
    HttpRequest.module_eq (by decide +kernel) (by decide +kernel)
  have hfresh := hall .bump [] [tplGet "/tpl", tplGet "//tpl?flush=true"] w₀ w
    ⟨ascii "./www//tpl.so", (plainGet (ascii "//tpl?flush=true")).query, (tplGet "").env⟩ ev h₀
    ⟨1, os, tplGet "//tpl?flush=true", w', h₁, rfl, hmod, by decide +kernel, h₂⟩
  -- the instance was loaded once, before the request
  have := congrArg Instance.serial hfresh.2
  rw [show (tplGet "").env.dlopen = 4096 from rfl, hser, hcall] at this
  exact absurd this (by decide)

end Csrv.App
