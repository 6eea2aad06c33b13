import Csrv.App.Instances
import Csrv.App.Logctl

/-!
# The log spec and the instance it points into

`logctl` leaves the address of its static buffer in `s_spec`, and `exlib` unloads modules. The
instances of `logctl` are known by the handle of their file and by the number of the load. Every
event of a request is followed by a state in which the level may be evaluated: by the `LOG` of
`cb`, by that of `mg_log_set` before it stores the new spec, or by the server itself.

`spec_live_iff`: as long as no request drops the last reference to the instance that `s_spec`
points into, or to the one that it has just been set to, the spec is always live.
-/

namespace Csrv.App

open Csrv.Map Csrv.Mongoose Run Trace

/-- The memory that the spec points to is there. -/
def Spec.Live (l : Loader) : Spec (ℕ × ℕ) → Prop
  | .own _ => True
  | .buf (h, n) => 0 < l.refs h ∧ (l.inst h).serial = n

instance (l : Loader) : (spec : Spec (ℕ × ℕ)) → Decidable (spec.Live l)
  | .own _ => .isTrue trivial
  | .buf _ => inferInstanceAs (Decidable (_ ∧ _))

/-- The loaded modules and the logger. -/
structure Logged where
  loader : Loader
  logger : Logger (ℕ × ℕ)

namespace Logged

variable (logctl : ℕ → Bool) (query : Bytes)

/-- What an event of a request does; the files for which `logctl` holds are the module. -/
def step (s : Logged) (e : Event) : Logged where
  loader := s.loader.step e
  logger :=
    match e with
    | .call sym =>
      if logctl sym.origin then
        (logctlEntry (sym.origin, (s.loader.inst sym.origin).serial) s.logger query).1
      else s.logger
    | _ => s.logger

/-- `s_spec` points to memory of the server or of an instance that is loaded. -/
def Live (s : Logged) : Prop := s.logger.spec.Live s.loader

instance (s : Logged) : Decidable s.Live := inferInstanceAs (Decidable (Spec.Live _ _))

/-- The spec is live before and after every event. -/
def Throughout (s : Logged) : List Event → Prop
  | [] => s.Live
  | e :: ev => s.Live ∧ Throughout (s.step logctl query e) ev

def run (s : Logged) (ev : List Event) : Logged := ev.foldl (step logctl query) s

end Logged

/-- The server with its logger. -/
structure LogWorld extends Logged where
  srv : Server

/-- Handling one request. -/
def LogWorld.handle (al : Malloc) (logctl : ℕ → Bool) (w : LogWorld) (q : HttpRequest) :
    Option LogWorld :=
  match q.module with
  | none => some w
  | some r => (exlib al w.srv r).map fun o => ⟨w.run logctl r.query o.2.1, o.1⟩

/-- The server when it starts to listen. -/
def LogWorld.Start (w : LogWorld) : Prop :=
  ∃ ds, worldStart ds = some ⟨w.srv, w.loader⟩ ∧ w.logger = ⟨.own (ascii "3"), fun _ => .zero⟩

/-- At every evaluation of the level while the request is handled, the spec is live. -/
def LogWorld.Throughout (al : Malloc) (logctl : ℕ → Bool) (w : LogWorld) (q : HttpRequest) : Prop :=
  ∀ r o, q.module = some r → exlib al w.srv r = some o → w.toLogged.Throughout logctl r.query o.2.1

/-- The references to `h` that are left when the flush block has closed the cached entry. -/
def LogWorld.left (w : LogWorld) (r : Request) (h : ℕ) : ℕ :=
  w.loader.refs h - if (w.srv.entry r.path2).map (·.map (·.hdl)) = some (some h) then 1 else 0

/-- A flush leaves a reference to the instance that the spec points into, and to the module that
it runs, if this sets the level. -/
def LogWorld.Spares (logctl : ℕ → Bool) (w : LogWorld) (q : HttpRequest) : Prop :=
  ∀ r, q.module = some r → r.flush = true → r.env.path2 = true →
    (∀ h n, w.logger.spec = .buf (h, n) → 0 < w.left r h) ∧
    (r.env.dlopen ≠ 0 → r.env.dlsym.isSome = true → logctl r.env.dlopen = true →
      SetsLevel r.query → 0 < w.left r r.env.dlopen)

section Events

variable {logctl : ℕ → Bool} {query : Bytes} {s : Logged} {e : Event} {ev ev' : List Event}
  {h : ℕ} {p : Bytes}

theorem run_loader : (s.run logctl query ev).loader = s.loader.run ev := by
  induction ev generalizing s with
  | nil => rfl
  | cons e ev ih => exact ih

theorem throughout_append : s.Throughout logctl query (ev ++ ev') ↔
    s.Throughout logctl query ev ∧ (s.run logctl query ev).Throughout logctl query ev' := by
  induction ev generalizing s with
  | nil =>
    refine ⟨fun h => ⟨?_, h⟩, And.right⟩
    cases ev' with
    | nil => exact h
    | cons _ _ => exact h.1
  | cons e ev ih =>
    rw [List.cons_append, Logged.Throughout, Logged.Throughout, ih, and_assoc]
    rfl

theorem Logged.Throughout.live (h : s.Throughout logctl query ev) :
    s.Live ∧ (s.run logctl query ev).Live := by
  induction ev generalizing s with
  | nil => exact ⟨h, h⟩
  | cons e ev ih => exact ⟨h.1, (ih h.2).2⟩

/-- A step after which the spec points where it pointed before. -/
theorem live_congr {s' : Logged} (hl : s.Live) (hspec : s'.logger.spec = s.logger.spec)
    (hrefs : ∀ h n, s.logger.spec = .buf (h, n) → 0 < s.loader.refs h → 0 < s'.loader.refs h)
    (hinst : ∀ h, 0 < s.loader.refs h → (s'.loader.inst h).serial = (s.loader.inst h).serial) :
    s'.Live := by
  unfold Logged.Live at hl ⊢
  rw [hspec]
  cases hs : s.logger.spec with
  | own t => trivial
  | buf i =>
    rw [hs] at hl
    exact ⟨hrefs i.1 i.2 hs hl.1, (hinst i.1 hl.1).trans hl.2⟩

theorem live_buf_iff {n : ℕ} (hs : s.logger.spec = .buf (h, n)) :
    s.Live ↔ 0 < s.loader.refs h ∧ (s.loader.inst h).serial = n := by
  unfold Logged.Live
  rw [hs]
  rfl

theorem loader_dlopen_refs {l : Loader} (h0 : h ≠ 0) :
    (l.step (.dlopen p h)).refs = Function.update l.refs h (l.refs h + 1) := by
  unfold Loader.step
  simp only [h0, if_false]
  split_ifs <;> rfl

theorem live_dlopen (hl : s.Live) : (s.step logctl query (.dlopen p h)).Live := by
  refine live_congr hl rfl ?_ ?_
  · intro h' _ _ hpos
    show 0 < (s.loader.step (.dlopen p h)).refs h'
    by_cases h0 : h = 0
    · simpa only [Loader.step, h0, if_true] using hpos
    · rw [loader_dlopen_refs h0]
      by_cases hh : h' = h
      · simp [hh]
      · rwa [Function.update_of_ne hh]
  · intro h' hpos
    show ((s.loader.step (.dlopen p h)).inst h').serial = _
    unfold Loader.step
    by_cases h0 : h = 0
    · simp only [h0, if_true]
    · simp only [h0, if_false]
      split_ifs with hr
      · -- only a file that nobody holds is loaded anew
        have hh : h' ≠ h := by
          rintro rfl
          omega
        simp [Loader.ctor, Function.update_of_ne hh]
      · rfl

/-- What a call does to the spec. -/
theorem call_spec (logctl : ℕ → Bool) (query : Bytes) (s : Logged) (sym : Sym) :
    (s.step logctl query (.call sym)).logger.spec =
    if logctl sym.origin = true ∧ SetsLevel query then
      .buf (sym.origin, (s.loader.inst sym.origin).serial)
    else s.logger.spec := by
  show (if _ then _ else _ : Logger (ℕ × ℕ)).spec = _
  by_cases hlog : logctl sym.origin = true
  · simp only [hlog, if_true, true_and, logctlEntry_spec]
  · rw [if_neg hlog, if_neg fun h => hlog h.1]

theorem live_call {sym : Sym} (hl : s.Live) (hpos : 0 < s.loader.refs sym.origin) :
    (s.step logctl query (.call sym)).Live := by
  have hser : ∀ h, ((s.step logctl query (.call sym)).loader.inst h).serial =
      (s.loader.inst h).serial := by
    intro h
    show (Function.update s.loader.inst sym.origin _ h).serial = _
    by_cases hh : h = sym.origin
    · subst hh
      simp [Instance.entry]
    · rw [Function.update_of_ne hh]
  have hspec := call_spec logctl query s sym
  split_ifs at hspec
  · rw [live_buf_iff hspec]
    exact ⟨hpos, hser _⟩
  · exact live_congr hl hspec (fun _ _ _ h => h) fun h _ => hser h

/-- Closing a file keeps the spec live unless it points into the file and the reference is the
last. -/
theorem live_dlclose_iff (logctl : ℕ → Bool) (query : Bytes) (cl : Closer) (hl : s.Live) :
    (s.step logctl query (.dlclose cl h)).Live ↔
    ∀ n, s.logger.spec = .buf (h, n) → 1 < s.loader.refs h := by
  constructor
  · intro hl' n hs
    have := ((live_buf_iff (s := s.step logctl query (.dlclose cl h)) hs).mp hl').1
    simp only [Logged.step, Loader.step, Function.update_self] at this
    omega
  · intro hlast
    refine live_congr hl rfl ?_ fun _ _ => rfl
    intro h' n hs hpos
    show 0 < Function.update s.loader.refs h _ h'
    by_cases hh : h' = h
    · subst hh
      have := hlast n hs
      rw [Function.update_self]
      omega
    · rwa [Function.update_of_ne hh]

/-- A flush of another module leaves the reference to the instance of the spec. -/
def Logged.Keeps (s : Logged) (c : Cache) (p : Bytes) : Prop :=
  ∀ h n, s.logger.spec = .buf (h, n) →
    0 < s.loader.refs h - if (c.find p).map (·.2.hdl) = some h then 1 else 0

theorem throughout_closing_iff (logctl : ℕ → Bool) (query : Bytes) {c : Cache} (hl : s.Live) :
    s.Throughout logctl query (c.closing p) ↔ s.Keeps c p := by
  unfold Cache.closing Logged.Keeps
  cases hf : c.find p with
  | none =>
    refine iff_of_true hl fun h n hs => ?_
    simpa using ((live_buf_iff hs).mp hl).1
  | some ae =>
    have hread : (s.step logctl query (.read ae.1)).Live :=
      live_congr hl rfl (fun _ _ _ h => h) fun _ _ => rfl
    have hclose := live_dlclose_iff logctl query (.cached p ae.1) (h := ae.2.hdl) hread
    show _ ∧ _ ∧ Logged.Live _ ↔ _
    rw [and_iff_right hl, and_iff_right hread, hclose]
    constructor
    · intro hlast h n hs
      by_cases hh : ae.2.hdl = h
      · subst hh
        have := hlast n hs
        simp only [Option.map_some, if_true]
        exact Nat.sub_pos_of_lt this
      · simpa [hh] using ((live_buf_iff hs).mp hl).1
    · intro hall n hs
      have := hall _ n hs
      simp only [Option.map_some, if_true] at this
      exact Nat.lt_of_sub_pos this

theorem refs_step_dlopen (logctl : ℕ → Bool) (query : Bytes) (h0 : h ≠ 0) :
    (s.step logctl query (.dlopen p h)).loader.refs h = s.loader.refs h + 1 := by
  show (s.loader.step (.dlopen p h)).refs h = _
  rw [loader_dlopen_refs h0, Function.update_self]

theorem live_dlsym {o : Option Sym} (hl : s.Live) : (s.step logctl query (.dlsym h o)).Live :=
  live_congr hl rfl (fun _ _ _ h => h) fun _ _ => rfl

theorem live_reply {fmt : Bytes} (hl : s.Live) : (s.step logctl query (.reply fmt)).Live :=
  live_congr hl rfl (fun _ _ _ h => h) fun _ _ => rfl

theorem live_read {a : ℕ} (hl : s.Live) : (s.step logctl query (.read a)).Live :=
  live_congr hl rfl (fun _ _ _ h => h) fun _ _ => rfl

/-- Opening, running and closing a module. -/
theorem throughout_own_iff {o : Option Sym} {addr : ℕ} (h0 : h ≠ 0) (hl : s.Live) :
    s.Throughout logctl query [.dlopen p h, .dlsym h o, .call ⟨h, addr⟩, .dlclose (.opened p) h] ↔
      (logctl h = true → SetsLevel query → 0 < s.loader.refs h) := by
  have h₁ : (s.step logctl query (.dlopen p h)).Live := live_dlopen hl
  have hrefs := refs_step_dlopen logctl query (s := s) (p := p) h0
  generalize hs₁ : s.step logctl query (.dlopen p h) = s₁ at h₁ hrefs
  have hspec₁ : s₁.logger = s.logger := by rw [← hs₁]; rfl
  have h₂ : (s₁.step logctl query (.dlsym h o)).Live := live_dlsym h₁
  have h₃ : ((s₁.step logctl query (.dlsym h o)).step logctl query (.call ⟨h, addr⟩)).Live :=
    live_call h₂ (by show 0 < s₁.loader.refs h; omega)
  have hspec₃ := call_spec logctl query (s₁.step logctl query (.dlsym h o)) ⟨h, addr⟩
  show _ ∧ Logged.Throughout logctl query (s.step logctl query (.dlopen p h)) _ ↔ _
  rw [hs₁]
  show _ ∧ _ ∧ _ ∧ _ ∧ Logged.Live _ ↔ _
  rw [and_iff_right hl, and_iff_right h₁, and_iff_right h₂, and_iff_right h₃,
    live_dlclose_iff _ _ _ h₃, hspec₃]
  show (∀ n, _ → 1 < s₁.loader.refs h) ↔ _
  rw [hrefs]
  constructor
  · intro hall hlog hset
    have := hall _ (if_pos ⟨hlog, hset⟩)
    omega
  · intro hset n hs
    split_ifs at hs with hc
    · have := hset hc.1 hc.2
      omega
    · have hspec : s.logger.spec = .buf (h, n) := by
        rw [← hspec₁]
        exact hs
      have := ((live_buf_iff hspec).mp hl).1
      omega

/-- Closing the cached entry, and events that cannot harm a live spec. -/
theorem throughout_closing_append (logctl : ℕ → Bool) (query : Bytes) (ev : List Event)
    {c : Cache} (hl : s.Live)
    (htail : ∀ s : Logged, s.Live → s.Throughout logctl query ev) :
    s.Throughout logctl query (c.closing p ++ ev) ↔ s.Keeps c p := by
  rw [throughout_append, ← throughout_closing_iff logctl query hl]
  exact ⟨And.left, fun h => ⟨h, htail _ h.live.2⟩⟩

/-- Closing the cached entry; then opening, running and closing a module. -/
theorem throughout_closing_own_iff {c : Cache} {q : Bytes} {o : Option Sym} {addr : ℕ}
    (h0 : h ≠ 0) (hl : s.Live) :
    s.Throughout logctl query (c.closing q ++
      [.dlopen p h, .dlsym h o, .call ⟨h, addr⟩, .dlclose (.opened p) h]) ↔
      s.Keeps c q ∧ (logctl h = true → SetsLevel query →
        0 < s.loader.refs h - if (c.find q).map (·.2.hdl) = some h then 1 else 0) := by
  have hleft : (s.run logctl query (c.closing q)).loader.refs h =
      s.loader.refs h - if (c.find q).map (·.2.hdl) = some h then 1 else 0 := by
    rw [run_loader, run_closing_refs]
  rw [throughout_append, ← throughout_closing_iff logctl query hl, ← hleft]
  exact and_congr_right fun hcl => throughout_own_iff h0 hcl.live.2

/-- Opening and running a module that stays open. -/
theorem throughout_keep {o : Option Sym} {addr : ℕ} (h0 : h ≠ 0) (hl : s.Live) :
    s.Throughout logctl query [.dlopen p h, .dlsym h o, .call ⟨h, addr⟩] := by
  have h₁ : (s.step logctl query (.dlopen p h)).Live := live_dlopen hl
  have h₂ : ((s.step logctl query (.dlopen p h)).step logctl query (.dlsym h o)).Live :=
    live_dlsym h₁
  refine ⟨hl, h₁, h₂, live_call h₂ ?_⟩
  show 0 < (s.step logctl query (.dlopen p h)).loader.refs h
  rw [refs_step_dlopen _ _ h0]
  exact Nat.succ_pos _

theorem keeps_of_none {c : Cache} (hl : s.Live) (h : c.find p = none) : s.Keeps c p := by
  intro h' n hs
  rw [h]
  simpa using ((live_buf_iff hs).mp hl).1

end Events

/-! ## One request -/

section Serve

variable {al : Malloc} {logctl : ℕ → Bool} {w : LogWorld} {g : Hashmap} {c : Cache} {r : Request}

theorem Represents.left (hR : Represents w.srv g c) (h : ℕ) : w.left r h =
    w.loader.refs h - if (c.find r.path2).map (·.2.hdl) = some h then 1 else 0 := by
  unfold LogWorld.left
  rw [hR.entry]
  simp only [Option.map_some, Option.map_map, Option.some.injEq]
  rfl

/-- **One request.** -/
theorem throughout_serve_iff (hR : Represents w.srv g c) (hl : w.Live)
    (hheld : ∀ a e, c.find r.path2 = some (a, e) → 0 < w.loader.refs e.hdl) :
    w.toLogged.Throughout logctl r.query (c.serve al r).2.1 ↔
      (r.flush = true → r.env.path2 = true →
        (∀ h n, w.logger.spec = .buf (h, n) → 0 < w.left r h) ∧
        (r.env.dlopen ≠ 0 → r.env.dlsym.isSome = true → logctl r.env.dlopen = true →
          SetsLevel r.query → 0 < w.left r r.env.dlopen)) := by
  have hloads := Cache.load_cases al c r
  unfold Cache.serve
  dsimp only
  generalize (c.load al r).2.2 = frame at hloads
  generalize (c.load al r).2.1 = ev at hloads
  generalize (c.load al r).1 = c' at hloads
  simp only [hR.left]
  cases hloads with
  | enomem h2 =>
    refine iff_of_true ?_ fun _ h2' => absurd (h2.symm.trans h2') (by decide)
    exact ⟨hl, live_reply hl⟩
  | @hit a e _ hf hfind =>
    refine iff_of_true ?_ fun hf' => absurd (hf.symm.trans hf') (by decide)
    refine ⟨hl, live_read hl, live_call (live_read hl) ?_⟩
    show 0 < w.loader.refs e.usr.origin
    rw [Cache.origin_of_find hfind]
    exact hheld a e hfind
  | fail h2 hm h0 =>
    have htail := throughout_closing_append logctl r.query
      [.dlopen r.path2 0, .reply (ascii "exlib:elod:%s\n")] (p := r.path2) (c := c) hl
      fun s hs => ⟨hs, live_dlopen hs, live_reply (live_dlopen hs)⟩
    rw [Cache.frameEvents, List.append_nil, htail]
    rcases hm with hf | hnone
    · simp only [hf, h2, forall_const, h0, ne_eq, not_true_eq_false, IsEmpty.forall_iff, and_true]
      rfl
    · exact iff_of_true (keeps_of_none hl hnone) fun _ _ =>
        ⟨keeps_of_none hl hnone, fun hne => absurd h0 hne⟩
  | @leak sym fmt h2 hm h0 hd =>
    have htail := throughout_closing_append logctl r.query
      [.dlopen r.path2 r.env.dlopen, .dlsym r.env.dlopen sym, .reply fmt] (p := r.path2) (c := c) hl
      fun s hs => ⟨hs, live_dlopen hs, live_dlsym (live_dlopen hs),
        live_reply (live_dlsym (live_dlopen hs))⟩
    rw [Cache.frameEvents, List.append_nil, htail]
    by_cases hf : r.flush = true
    · have hnone : r.env.dlsym = none := by
        rcases hd with hd | ⟨hf', -⟩
        · exact hd
        · rw [hf] at hf'
          cases hf'
      simp only [hf, h2, hnone, forall_const, Option.isSome_none, Bool.false_eq_true,
        IsEmpty.forall_iff, implies_true, and_true]
      rfl
    · exact iff_of_true (keeps_of_none hl (hm.resolve_left hf)) fun hf' => absurd hf' hf
  | @own addr h2 hf h0 hd =>
    simp only [Cache.frameEvents, exlibDone, List.append_assoc, List.cons_append, List.nil_append,
      if_true]
    rw [throughout_closing_own_iff h0 hl]
    simp only [hf, h2, forall_const, hd, Option.isSome_some]
    rw [forall_prop_of_true h0]
    rfl
  | @keep addr i h2 hf hnone h0 hd h3 he =>
    refine iff_of_true ?_ fun hf' => absurd (hf.symm.trans hf') (by decide)
    rw [Cache.closing_of_none hnone]
    exact throughout_keep h0 hl

end Serve

/-! ## Runs -/

section Runs

variable {al : Malloc} {logctl : ℕ → Bool} {w w' : LogWorld} {q : HttpRequest}

/-- The server represents a cache that, with the libraries, owns its references, and the loader has
counted them. -/
def LogWorld.Sound (w : LogWorld) : Prop :=
  ∃ g c own tr, Represents w.srv g c ∧ Owns own c tr ∧ w.loader = Loader.init.run tr

/-- In a safe trace the loader counts what the trace opens and closes. -/
theorem run_refs {tr : List Event} (h : Guarded Safe tr) (x : ℕ) :
    ((Loader.init.run tr).refs x : ℤ) = refs x tr := by
  induction tr using List.reverseRecOn with
  | nil => rfl
  | append_singleton t e ih =>
    rw [guarded_concat_iff] at h
    have ih := ih h.1
    rw [run_append, refs_append, ← ih]
    show ((Loader.step _ e).refs x : ℤ) = _
    generalize Loader.init.run t = l at ih
    cases e with
    | dlopen p h' =>
      by_cases h0 : h' = 0
      · rw [h0, refs_fail]
        simp [Loader.step]
      · rw [refs_open h0, loader_dlopen_refs h0]
        by_cases hx : h' = x
        · subst hx
          simp
        · simp [hx, Function.update_of_ne (Ne.symm hx)]
    | dlclose cl h' =>
      rw [refs_close]
      show ((Function.update l.refs h' (l.refs h' - 1) x : ℕ) : ℤ) = _
      by_cases hx : h' = x
      · subst hx
        have hpos : 0 < refs h' t := h.2.1
        rw [Function.update_self, if_pos rfl]
        omega
      · rw [Function.update_of_ne (Ne.symm hx), if_neg hx, add_zero]
    | dlsym _ _ => exact (add_zero _).symm
    | read _ => exact (add_zero _).symm
    | call _ => exact (add_zero _).symm
    | ovFree _ _ => exact (add_zero _).symm
    | reply _ => exact (add_zero _).symm

theorem LogWorld.Sound.held {c : Cache} {own : List ℕ} {tr : List Event}
    (hO : Owns own c tr) (hload : w.loader = Loader.init.run tr) {p : Bytes} {a : ℕ}
    {e : DSOEntry} (hf : c.find p = some (a, e)) : 0 < w.loader.refs e.hdl := by
  have h₁ := run_refs hO.safe e.hdl
  have h₂ := hO.pos_of_find hf
  rw [hload]
  omega

/-- **Step.** -/
theorem LogWorld.Sound.throughout_iff (hs : w.Sound) (hl : w.Live) (q : HttpRequest) :
    w.Throughout al logctl q ↔ w.Spares logctl q := by
  obtain ⟨g, c, own, tr, hR, hO, hload⟩ := hs
  unfold LogWorld.Throughout LogWorld.Spares
  constructor
  · intro h r hq
    obtain ⟨srv', hex, -⟩ := exlib_represents al hR r
    exact (throughout_serve_iff hR hl fun a e hf => held hO hload hf).mp (h r _ hq hex)
  · intro h r o hq hex
    obtain ⟨srv', hex', -⟩ := exlib_represents al hR r
    obtain rfl := Option.some.inj (hex.symm.trans hex')
    exact (throughout_serve_iff hR hl fun a e hf => held hO hload hf).mpr (h r hq)

theorem LogWorld.Sound.handle (hs : w.Sound) (hl : w.Live) (h : w.handle al logctl q = some w')
    (hok : w.Spares logctl q) : w'.Sound ∧ w'.Live := by
  have hall : w.Throughout al logctl q := (hs.throughout_iff hl q).mpr hok
  obtain ⟨g, c, own, tr, hR, hO, hload⟩ := hs
  unfold LogWorld.handle at h
  cases hq : q.module with
  | none =>
    rw [hq] at h
    obtain rfl := Option.some.inj h
    exact ⟨⟨g, c, own, tr, hR, hO, hload⟩, hl⟩
  | some r =>
    rw [hq] at h
    obtain ⟨o, hex, rfl⟩ := Option.map_eq_some_iff.mp h
    obtain ⟨srv', hex', hR', -⟩ := exlib_represents al hR r
    obtain rfl := Option.some.inj (hex.symm.trans hex')
    refine ⟨⟨g, _, own, _, hR', hO.serve al r, ?_⟩, (hall r _ hq hex).live.2⟩
    rw [run_append, ← hload]
    exact run_loader

theorem LogWorld.Start.sound (h : w.Start) : w.Sound ∧ w.Live := by
  obtain ⟨ds, hw, hlog⟩ := h
  obtain ⟨srv, ev, hs, -, hR, hO⟩ := appmainStart_owns ds
  unfold worldStart at hw
  rw [hs] at hw
  obtain ⟨hsrv, hload⟩ := World.mk.inj (Option.some.inj hw)
  refine ⟨⟨srv.mglb, _, _, ev, hsrv ▸ hR, hO, hload.symm⟩, ?_⟩
  unfold Logged.Live
  rw [hlog]
  trivial

end Runs

/-- **The spec is live.** In a run whose requests all leave the references that the spec needs, the
spec points to memory of the server or of a loaded module, in every state reached, and at every
evaluation during a further request exactly if this request leaves them too. -/
theorem spec_live_iff {al : Malloc} {logctl : ℕ → Bool} {w : LogWorld}
    (h : Reach LogWorld.Start (LogWorld.handle al logctl) (LogWorld.Spares logctl) w) :
    w.Live ∧ ∀ q, w.Throughout al logctl q ↔ w.Spares logctl q := by
  have hI : w.Sound ∧ w.Live := h.invariant (fun _ hs => hs.sound)
    fun _ _ _ hi hst hok => hi.1.handle hi.2 hst hok
  exact ⟨hI.2, hI.1.throughout_iff hI.2⟩

/-! ## Setting the level and flushing -/

/-- The server without libraries. -/
def logWorldStart : LogWorld :=
  ⟨⟨Loader.init, ⟨.own (ascii "3"), fun _ => .zero⟩⟩, ⟨hashmapCreate, hashmapCreate, []⟩⟩

theorem logWorldStart_start : logWorldStart.Start := ⟨[], rfl, rfl⟩

theorem spares_of_plain {logctl : ℕ → Bool} {w : LogWorld} {q : HttpRequest}
    (h : q.module.map Request.flush = some false) : w.Spares logctl q := by
  intro r hq hf
  rw [hq, Option.map_some, hf] at h
  simp at h

/-- After `/logctl?level=2` the spec points into the module. A flush of another spelling of its path
sets the level again and leaves the module loaded. -/
theorem spec_live_level : ∃ w w' : LogWorld,
    logWorldStart.handle .bump (· == 4096) (tplGet "/logctl?level=2") = some w ∧
    w.handle .bump (· == 4096) (tplGet "//logctl?level=3&flush=true") = some w' ∧
    w'.logger.spec = .buf (4096, 1) ∧ w'.Live ∧
    w'.Throughout .bump (· == 4096) (tplGet "/logctl?level=4") := by
  have hrun : (logWorldStart.handle .bump (· == 4096) (tplGet "/logctl?level=2")).bind (fun w =>
      (w.handle .bump (· == 4096) (tplGet "//logctl?level=3&flush=true")).map fun w' =>
        (w'.logger.spec, w.logger.spec, (tplGet "//logctl?level=3&flush=true").module.map
          fun r => w.left r 4096)) =
        some (.buf (4096, 1), .buf (4096, 1), some 1) := by
    decide +kernel
  obtain ⟨w, hw, hrun⟩ := Option.bind_eq_some_iff.mp hrun
  obtain ⟨w', hw', hrun⟩ := Option.map_eq_some_iff.mp hrun
  simp only [Prod.mk.injEq] at hrun
  obtain ⟨hspec', hspec, hleft⟩ := hrun
  have hspares : w.Spares (· == 4096) (tplGet "//logctl?level=3&flush=true") := by
    intro r hr _ _
    rw [hr, Option.map_some, Option.some.injEq] at hleft
    refine ⟨fun h n hs => ?_, fun _ _ hlogctl _ => ?_⟩
    · obtain ⟨rfl, rfl⟩ := Prod.mk.inj (Spec.buf.inj (hspec.symm.trans hs))
      exact hleft ▸ Nat.one_pos
    · rw [eq_of_beq hlogctl, hleft]
      exact Nat.one_pos
  have hplain : (tplGet "/logctl?level=2").module.map Request.flush = some false := by
    decide +kernel
  have hplain' : (tplGet "/logctl?level=4").module.map Request.flush = some false := by
    decide +kernel
  have h := spec_live_iff
    (.step (.step (.init logWorldStart_start) hw (spares_of_plain hplain)) hw' hspares)
  exact ⟨w, w', hw, hw', hspec', h.1, (h.2 _).mpr (spares_of_plain hplain')⟩

/-- After `/logctl?level=2&flush=true` the spec points into a module that is gone. -/
theorem spec_dangles : ¬ ∀ al logctl w,
    Reach LogWorld.Start (LogWorld.handle al logctl) Free w → w.Live := by
  intro hall
  have hrun : (logWorldStart.handle .bump (· == 4096) (tplGet "/logctl?level=2&flush=true")).map
      (fun w => decide w.Live) = some false := by
    decide +kernel
  obtain ⟨w, hw, hlive⟩ := Option.map_eq_some_iff.mp hrun
  have := hall .bump (· == 4096) w (.step (.init logWorldStart_start) hw trivial)
  exact absurd this (of_decide_eq_false hlive)

end Csrv.App
