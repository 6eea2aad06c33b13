import Csrv.CString
import Csrv.Lib.Multimap
import Csrv.Lib.Run
import Mathlib.Data.Int.Init

/-!
# Native modules of Duktape scripts

`duk_require.cpp` with `SQ_DYNLOD`: `modSearch` opens a library, records its handle in `dsomap`
under the context, and calls the `init` of the library; `duk_require_cleanup` closes the handles of
a context. The dynamic linker is any one, the context an arbitrary key. `dsomap.insert` and the
copies of strings are taken to allocate: a `std::bad_alloc` between `dlopen` and the end of `insert`
would be caught and the handle be lost.

The state keeps the handles that were opened and those that were passed to `dlclose`, each with the
context of the call. `modSearch` has nothing left to do when it calls `init`, so the calls that
`init` makes come after it in a run.

`accounted`: in every run the handles opened are those recorded and those closed, each once.
-/

namespace Csrv.Duktape

open Run

/-- How a call ends; `std` says that the exception is a `std::exception`. -/
inductive Outcome (α : Type)
  | returns (a : α)
  | throws (std : Bool)

/-- A dynamic linker with states `Λ`. What `dlopen` does may depend on anything in `ε`. -/
structure Loader (ε η Λ : Type) where
  dlopen : ε → Bytes → Λ → Outcome (Option η) × Λ
  dlclose : η → Λ → ℤ × Λ

/-- What `modSearch` is called with and what it meets. -/
structure Call (ε η : Type) where
  id : Option Bytes
  file : Option Bytes
  env : ε
  dlsym : η → Outcome (Option (Outcome ℤ))

structure Ret where
  n : ℤ
  pushed : Option Bytes

structure State (γ η Λ : Type) [LinearOrder γ] where
  dsomap : Multimap γ η
  loader : Λ
  opened : List (γ × η)
  closed : List (γ × η)

def endsWith (value ending : Bytes) : Bool :=
  if ending.length > value.length then false
  else ending.reverse.isPrefixOf value.reverse

section Calls

variable {γ ε η Λ : Type} [LinearOrder γ]

def State.dlclose (L : Loader ε η Λ) (ctx : γ) (hdl : η) (s : State γ η Λ) : State γ η Λ :=
  { s with loader := (L.dlclose hdl s.loader).2, closed := s.closed ++ [(ctx, hdl)] }

def duk_require_cleanup (L : Loader ε η Λ) (ctx : γ) (s : State γ η Λ) : State γ η Λ :=
  let s := s.dsomap.entries.foldl (fun s itr => if itr.1 = ctx then s.dlclose L ctx itr.2 else s) s
  { s with dsomap := s.dsomap.erase ctx }

/-- `none` when the process ends: an exception cannot leave `dlopen` and `dlsym`, which are declared
not to throw. -/
def modSearch (L : Loader ε η Λ) (ctx : γ) (call : Call ε η) (s : State γ η Λ) :
    Option (State γ η Λ × Outcome Ret) :=
  let fail : Outcome Ret := .returns ⟨-1, none⟩
  match call.id with
  | none => some (s, fail) -- `std::string` of a null pointer
  | some filename =>
    let path := cstr filename
    if endsWith path (ascii ".js") || endsWith path (ascii ".sjs") then
      match call.file with
      | none => some (s, fail)
      | some src => some (s, .returns ⟨1, some (cstr src)⟩)
    else if endsWith path (ascii ".so") || endsWith path (ascii ".dll") then
      match L.dlopen call.env path s.loader with
      | (.throws _, _) => none
      | (.returns none, loader) => some ({ s with loader }, fail)
      | (.returns (some hdl), loader) =>
        let s := { s with loader, opened := s.opened ++ [(ctx, hdl)] }
        match call.dlsym hdl with
        | .throws _ => none
        | .returns (some fn) =>
          let s := { s with dsomap := s.dsomap.insert ctx hdl }
          match fn with
          | .returns n => some (s, .returns ⟨n, none⟩)
          | .throws true => some (s, fail)
          | .throws false => some (s, .throws false)
        | .returns none => some (s.dlclose L ctx hdl, fail)
    else some (s, fail)

end Calls

inductive Act (γ ε η : Type)
  | modSearch (ctx : γ) (call : Call ε η)
  | cleanup (ctx : γ)

section Runs

variable {γ ε η Λ : Type} [LinearOrder γ] {L : Loader ε η Λ}

def step (L : Loader ε η Λ) (s : State γ η Λ) : Act γ ε η → Option (State γ η Λ)
  | .modSearch ctx call => (modSearch L ctx call s).map (·.1)
  | .cleanup ctx => some (duk_require_cleanup L ctx s)

/-- No handle has been opened yet. -/
def Initial (s : State γ η Λ) : Prop := s.dsomap = .empty ∧ s.opened = [] ∧ s.closed = []

/-- Every handle that was opened is recorded under its context or has been closed, once. -/
def Ledger (s : State γ η Λ) : Prop := s.opened.Perm (s.dsomap.entries ++ s.closed)

variable {s s' : State γ η Λ} {ctx : γ} {call : Call ε η} {a : Act γ ε η}

/-! ## What the calls do -/

theorem foldl_dlclose (entries : List (γ × η)) :
    entries.foldl (fun s itr => if itr.1 = ctx then s.dlclose L ctx itr.2 else s) s =
      { s with
        loader := (entries.filter (·.1 = ctx)).foldl (fun l e => (L.dlclose e.2 l).2) s.loader
        closed := s.closed ++ entries.filter (·.1 = ctx) } := by
  induction entries generalizing s with
  | nil => simp
  | cons e entries ih =>
    obtain ⟨c, hdl⟩ := e
    rw [List.foldl_cons, ih]
    by_cases hc : c = ctx
    · subst hc
      simp [State.dlclose]
    · simp [hc]

theorem duk_require_cleanup_eq : duk_require_cleanup L ctx s =
    { dsomap := s.dsomap.erase ctx
      loader := (s.dsomap.of ctx).foldl (fun l e => (L.dlclose e.2 l).2) s.loader
      opened := s.opened
      closed := s.closed ++ s.dsomap.of ctx } := by
  unfold duk_require_cleanup
  rw [foldl_dlclose]
  rfl

/-- The library that a search opens. -/
def Call.library (call : Call ε η) : Option Bytes :=
  (call.id.map cstr).filter fun path =>
    !(endsWith path (ascii ".js") || endsWith path (ascii ".sjs")) &&
      (endsWith path (ascii ".so") || endsWith path (ascii ".dll"))

section Library

variable {filename : Bytes}

theorem library_of_none (h : call.id = none) : call.library = none := by
  unfold Call.library
  rw [h]
  rfl

theorem library_of_js (h : call.id = some filename)
    (hjs : (endsWith (cstr filename) (ascii ".js") || endsWith (cstr filename) (ascii ".sjs")) =
      true) : call.library = none := by
  unfold Call.library
  rw [h, Option.map_some, Option.filter_some, hjs]
  rfl

theorem library_of_so (h : call.id = some filename)
    (hjs : ¬ (endsWith (cstr filename) (ascii ".js") || endsWith (cstr filename) (ascii ".sjs")) =
      true)
    (hso : (endsWith (cstr filename) (ascii ".so") || endsWith (cstr filename) (ascii ".dll")) =
      true) : call.library = some (cstr filename) := by
  unfold Call.library
  rw [h, Option.map_some, Option.filter_some, hso, eq_false_of_ne_true hjs]
  rfl

theorem library_of_other (h : call.id = some filename)
    (hso : ¬ (endsWith (cstr filename) (ascii ".so") || endsWith (cstr filename) (ascii ".dll")) =
      true) : call.library = none := by
  unfold Call.library
  rw [h, Option.map_some, Option.filter_some, eq_false_of_ne_true hso, Bool.and_false]
  rfl

end Library

/-- What a search does. -/
theorem modSearch_cases {r : Outcome Ret} (h : modSearch L ctx call s = some (s', r)) :
    (call.library = none ∧ s' = s) ∨
      (∃ path loader, call.library = some path ∧
        L.dlopen call.env path s.loader = (.returns none, loader) ∧ s' = { s with loader }) ∨
      ∃ path hdl loader, call.library = some path ∧
        L.dlopen call.env path s.loader = (.returns (some hdl), loader) ∧
        ((∃ fn, call.dlsym hdl = .returns (some fn) ∧ s' = { s with
            dsomap := s.dsomap.insert ctx hdl, loader, opened := s.opened ++ [(ctx, hdl)] }) ∨
          (call.dlsym hdl = .returns none ∧
            s' = { s with loader, opened := s.opened ++ [(ctx, hdl)] }.dlclose L ctx hdl)) := by
  unfold modSearch at h
  cases hid : call.id with
  | none =>
    rw [hid] at h
    cases h
    exact .inl ⟨library_of_none hid, rfl⟩
  | some filename =>
    rw [hid] at h
    dsimp only at h
    split_ifs at h with hjs hso
    · refine .inl ⟨library_of_js hid hjs, ?_⟩
      cases hfile : call.file with
      | none =>
        rw [hfile] at h
        cases h
        rfl
      | some src =>
        rw [hfile] at h
        cases h
        rfl
    · have hlibrary := library_of_so hid hjs hso
      rcases hopen : L.dlopen call.env (cstr filename) s.loader with ⟨o, loader⟩
      rw [hopen] at h
      cases o with
      | throws std => cases h
      | returns found =>
        cases found with
        | none =>
          cases h
          exact .inr (.inl ⟨_, loader, hlibrary, hopen, rfl⟩)
        | some hdl =>
          dsimp only at h
          refine .inr (.inr ⟨_, hdl, loader, hlibrary, hopen, ?_⟩)
          cases hsym : call.dlsym hdl with
          | throws std =>
            rw [hsym] at h
            cases h
          | returns fn =>
            rw [hsym] at h
            cases fn with
            | none =>
              -- without an `init` the library is closed again
              cases h
              exact .inr ⟨rfl, rfl⟩
            | some fn =>
              -- the handle is recorded before `init` runs, however it ends
              refine .inl ⟨fn, rfl, ?_⟩
              rcases fn with n | std
              · cases h
                rfl
              · cases std with
                | false =>
                  cases h
                  rfl
                | true =>
                  cases h
                  rfl
    · cases h
      exact .inl ⟨library_of_other hid hso, rfl⟩

/-! ## The ledger -/

theorem Initial.ledger (h : Initial s) : Ledger s := by
  obtain ⟨hmap, hopened, hclosed⟩ := h
  unfold Ledger
  rw [hmap, hopened, hclosed]
  exact .nil

theorem Ledger.modSearch {r : Outcome Ret} (hs : Ledger s)
    (h : modSearch L ctx call s = some (s', r)) : Ledger s' := by
  unfold Ledger at hs ⊢
  rcases modSearch_cases h with ⟨-, rfl⟩ | ⟨path, loader, -, -, rfl⟩ |
    ⟨path, hdl, loader, -, -, ⟨fn, -, rfl⟩ | ⟨-, rfl⟩⟩
  · exact hs
  · exact hs
  · exact (List.perm_append_singleton _ _).trans
      ((hs.cons _).trans (Multimap.perm_insert.append_right s.closed).symm)
  · show (s.opened ++ [(ctx, hdl)]).Perm (s.dsomap.entries ++ (s.closed ++ [(ctx, hdl)]))
    rw [← List.append_assoc]
    exact hs.append_right _

theorem Ledger.cleanup (hs : Ledger s) : Ledger (duk_require_cleanup L ctx s) := by
  unfold Ledger at hs ⊢
  rw [duk_require_cleanup_eq]
  have hentries : (s.dsomap.entries ++ s.closed).Perm
      ((s.dsomap.erase ctx).entries ++ s.dsomap.of ctx ++ s.closed) :=
    (Multimap.perm_erase.trans List.perm_append_comm).append_right s.closed
  rw [List.append_assoc] at hentries
  exact hs.trans (hentries.trans (List.perm_append_comm.append_left _))

theorem Ledger.step (hs : Ledger s) (h : step L s a = some s') : Ledger s' := by
  cases a with
  | modSearch ctx call =>
    obtain ⟨⟨s₁, r⟩, hr, rfl⟩ := Option.map_eq_some_iff.mp h
    exact hs.modSearch hr
  | cleanup ctx =>
    obtain rfl := Option.some.inj h
    exact hs.cleanup

/-- **The ledger.** -/
theorem ledger_of_reach {ok : State γ η Λ → Act γ ε η → Prop}
    (h : Reach Initial (step L) ok s) : Ledger s :=
  h.invariant (fun _ hs => hs.ledger) fun _ _ _ hs hst _ => hs.step hst

theorem filter_cleanup_of_ne {c : γ} (hc : c ≠ ctx) :
    (duk_require_cleanup L ctx s).closed.filter (·.1 = c) = s.closed.filter (·.1 = c) := by
  have hnone : (s.dsomap.of ctx).filter (·.1 = c) = [] := by
    refine List.filter_eq_nil_iff.mpr fun e he => ?_
    have hctx : e.1 = ctx := by simpa using (List.mem_filter.mp he).2
    simp [hctx, hc.symm]
  rw [duk_require_cleanup_eq]
  dsimp only
  rw [List.filter_append, hnone, List.append_nil]

/-- After a cleanup all that was opened for the context has been closed. -/
theorem Ledger.closed_cleanup (hs : Ledger s) :
    (s.opened.filter (·.1 = ctx)).Perm
      ((duk_require_cleanup L ctx s).closed.filter (·.1 = ctx)) := by
  have hcleanup : Ledger (duk_require_cleanup L ctx s) := hs.cleanup
  have h := hcleanup.filter (·.1 = ctx)
  rw [duk_require_cleanup_eq] at h ⊢
  rw [List.filter_append] at h
  have hnone : (s.dsomap.erase ctx).entries.filter (·.1 = ctx) = [] := Multimap.of_erase_self
  rw [hnone, List.nil_append] at h
  exact h

end Runs

/-- **Accounts.** In every run each handle that was opened is recorded under the context that
required it or has been closed, once. A cleanup leaves no record of its context, whose handles have
all been closed then, once each; records and closed handles of the other contexts stay as they
were. -/
theorem accounted {γ ε η Λ : Type} [LinearOrder γ] {L : Loader ε η Λ} {s : State γ η Λ}
    (h : Reach Initial (step L) Free s) :
    Ledger s ∧ ∀ ctx s', step L s (.cleanup ctx) = some s' →
      s'.dsomap.of ctx = [] ∧
      (s'.opened.filter (·.1 = ctx)).Perm (s'.closed.filter (·.1 = ctx)) ∧
      ∀ c, c ≠ ctx → s'.dsomap.of c = s.dsomap.of c ∧
        s'.closed.filter (·.1 = c) = s.closed.filter (·.1 = c) := by
  have hs := ledger_of_reach h
  refine ⟨hs, fun ctx s' hst => ?_⟩
  obtain rfl := Option.some.inj hst
  refine ⟨?_, ?_, fun c hc => ⟨?_, filter_cleanup_of_ne hc⟩⟩
  · rw [duk_require_cleanup_eq]
    exact Multimap.of_erase_self
  · have hopened : (duk_require_cleanup L ctx s).opened = s.opened := by
      rw [duk_require_cleanup_eq]
    rw [hopened]
    exact hs.closed_cleanup
  · rw [duk_require_cleanup_eq]
    exact Multimap.of_erase_of_ne hc

/-- A linker with a single library. -/
def oneLibrary : Loader Unit ℕ Unit := ⟨fun _ _ _ => (.returns (some 7), ()), fun _ _ => (0, ())⟩

/-- `require` of a module whose `init` succeeds. -/
def requireModule : Call Unit ℕ :=
  ⟨some (ascii "m.so"), none, (), fun _ => .returns (some (.returns 1))⟩

/-- Two contexts share the library, and the first one is cleaned up. -/
theorem accounted_shared : ∃ s s' : State ℕ ℕ Unit, s.opened = [(1, 7), (2, 7)] ∧
    step oneLibrary s (.cleanup 1) = some s' ∧ s'.dsomap.of 1 = [] ∧
    s'.dsomap.of 2 = s.dsomap.of 2 := by
  have h : Reach Initial (step oneLibrary) Free _ :=
    .step (.step (.init (s := ⟨.empty, (), [], []⟩) ⟨rfl, rfl, rfl⟩)
      (a := .modSearch 1 requireModule) rfl trivial) (a := .modSearch 2 requireModule) rfl trivial
  obtain ⟨hself, -, hother⟩ := (accounted h).2 1 _ rfl
  exact ⟨_, _, rfl, rfl, hself, (hother 2 (by decide)).1⟩

end Csrv.Duktape
