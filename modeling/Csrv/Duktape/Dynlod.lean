import Csrv.Duktape.Require
import Mathlib.Logic.Function.Basic

/-!
# The Windows loader behind `dlopen`

`dynlod.c` maps `dlopen` and `dlclose` to `LoadLibrary` and `FreeLibrary`, which count references
for each library. A handle is its library. Its error texts are left out.

`dlclose` calls `FreeLibrary` twice. `dynlod_iff`: no call releases one reference and returns 0, and
a library that is recorded stays loaded if and only if it has references to spare for each handle
that is closed. `loaded_posix`: with one `FreeLibrary` it always stays loaded.
-/

namespace Csrv.Duktape

open Run

/-- The references of each library. -/
abbrev Counts (η : Type) : Type := η → ℕ

section Shim

variable {η : Type} [DecidableEq η]

/-- `find` says which library a name stands for, if it can be loaded. -/
def LoadLibrary (find : Bytes → Option η) (name : Bytes) (count : Counts η) :
    Option η × Counts η :=
  match find name with
  | some hdll => (some hdll, Function.update count hdll (count hdll + 1))
  | none => (none, count)

def FreeLibrary (hdll : η) (count : Counts η) : Bool × Counts η :=
  if count hdll = 0 then (false, count)
  else (true, Function.update count hdll (count hdll - 1))

def dlopen (find : Bytes → Option η) (name : Bytes) (count : Counts η) :
    Outcome (Option η) × Counts η :=
  let r := LoadLibrary find name count
  (.returns r.1, r.2)

def dlclose (lib : η) (count : Counts η) : ℤ × Counts η :=
  let r := FreeLibrary lib count -- call twice for file locks
  let r := FreeLibrary lib r.2
  if r.1 then (0, r.2) else (-1, r.2)

def dynlod : Loader (Bytes → Option η) η (Counts η) := ⟨dlopen, dlclose⟩

/-- A `dlclose` that releases one reference. -/
def posix : Loader (Bytes → Option η) η (Counts η) :=
  ⟨dlopen, fun lib count =>
    let r := FreeLibrary lib count
    if r.1 then (0, r.2) else (-1, r.2)⟩

/-- One reference is released, and the call returns 0. -/
def ReleasesOne (L : Loader (Bytes → Option η) η (Counts η)) (lib : η) (count : Counts η) : Prop :=
  (L.dlclose lib count).2 = Function.update count lib (count lib - 1) ∧ 0 < count lib ∧
    (L.dlclose lib count).1 = 0

variable {lib : η} {count : Counts η} {find : Bytes → Option η} {name : Bytes}

/-! ## References -/

theorem FreeLibrary_snd : (FreeLibrary lib count).2 =
    Function.update count lib (count lib - 1) := by
  unfold FreeLibrary
  split_ifs with h
  · rw [h, Nat.zero_sub, ← h, Function.update_eq_self]
  · rfl

theorem FreeLibrary_fst : (FreeLibrary lib count).1 = true ↔ 0 < count lib := by
  unfold FreeLibrary
  split_ifs with h
  · simp [h]
  · simp [Nat.pos_of_ne_zero h]

theorem dlopen_eq : dlopen find name count = (.returns (find name),
    (find name).elim count fun lib => Function.update count lib (count lib + 1)) := by
  unfold dlopen LoadLibrary
  cases find name with
  | none => rfl
  | some lib => rfl

theorem dlopen_some {loader : Counts η}
    (h : dlopen find name count = (.returns (some lib), loader)) :
    find name = some lib ∧ loader = Function.update count lib (count lib + 1) := by
  rw [dlopen_eq, Prod.mk.injEq, Outcome.returns.injEq] at h
  obtain ⟨hfind, rfl⟩ := h
  rw [hfind]
  exact ⟨rfl, rfl⟩

theorem dlopen_none {loader : Counts η}
    (h : dlopen find name count = (.returns none, loader)) :
    find name = none ∧ loader = count := by
  rw [dlopen_eq, Prod.mk.injEq, Outcome.returns.injEq] at h
  obtain ⟨hfind, rfl⟩ := h
  rw [hfind]
  exact ⟨rfl, rfl⟩

/-- How many references a linker's `dlclose` releases. -/
def Releases (L : Loader (Bytes → Option η) η (Counts η)) (n : ℕ) : Prop :=
  ∀ lib count, (L.dlclose lib count).2 = Function.update count lib (count lib - n)

theorem releases_posix : Releases (posix : Loader (Bytes → Option η) η (Counts η)) 1 := by
  intro lib count
  show (if (FreeLibrary lib count).1 then _ else _ : ℤ × Counts η).2 = _
  rw [← FreeLibrary_snd]
  split_ifs
  · rfl
  · rfl

theorem releases_dynlod : Releases (dynlod : Loader (Bytes → Option η) η (Counts η)) 2 := by
  intro lib count
  have htwo : (FreeLibrary lib (FreeLibrary lib count).2).2 =
      Function.update count lib (count lib - 2) := by
    rw [FreeLibrary_snd, FreeLibrary_snd, Function.update_self, Function.update_idem, Nat.sub_sub]
  show (if (FreeLibrary lib (FreeLibrary lib count).2).1 then _ else _ : ℤ × Counts η).2 = _
  rw [← htwo]
  split_ifs
  · rfl
  · rfl

theorem dynlod_returns_zero_iff : (dynlod.dlclose lib count).1 = 0 ↔ 2 ≤ count lib := by
  have htwo : (FreeLibrary lib (FreeLibrary lib count).2).1 = true ↔ 2 ≤ count lib := by
    rw [FreeLibrary_fst, FreeLibrary_snd, Function.update_self]
    omega
  show (if (FreeLibrary lib (FreeLibrary lib count).2).1 then _ else _ : ℤ × Counts η).1 = 0 ↔ _
  rw [← htwo]
  split_ifs with h
  · exact iff_of_true rfl h
  · exact iff_of_false (by simp) h

/-- It releases two references, or it fails. -/
theorem not_releasesOne : ¬ ReleasesOne dynlod lib count := by
  rintro ⟨hcount, hpos, hzero⟩
  rw [dynlod_returns_zero_iff] at hzero
  have h := congrFun (hcount.symm.trans (releases_dynlod lib count)) lib
  rw [Function.update_self, Function.update_self] at h
  omega

/-- The references after the handles of entries have been closed. -/
theorem foldl_releases {γ : Type} {L : Loader (Bytes → Option η) η (Counts η)} {n : ℕ}
    (hL : Releases L n) (entries : List (γ × η)) :
    entries.foldl (fun l e => (L.dlclose e.2 l).2) count lib =
      count lib - n * entries.countP (·.2 = lib) := by
  induction entries generalizing count with
  | nil => rfl
  | cons e entries ih =>
    rw [List.foldl_cons, ih, hL]
    by_cases he : e.2 = lib
    · subst he
      rw [Function.update_self, List.countP_cons_of_pos (by simp), Nat.sub_sub, Nat.mul_succ,
        Nat.add_comm]
    · rw [Function.update_of_ne (Ne.symm he), List.countP_cons_of_neg (by simpa using he)]

end Shim

/-! ## Libraries that stay loaded -/

section Runs

variable {γ η : Type} [LinearOrder γ] [DecidableEq η]

/-- Every library that is recorded is loaded. -/
def Loaded (s : State γ η (Counts η)) : Prop := ∀ e ∈ s.dsomap.entries, 0 < s.loader e.2

/-- The recorded libraries have references to spare: two for every handle of the context that is
cleaned up, one besides the first for the handle of a module without an `init`. -/
def Spared (s : State γ η (Counts η)) : Act γ (Bytes → Option η) η → Prop
  | .modSearch _ call => ∀ path lib, call.library = some path → call.env path = some lib →
    call.dlsym lib = .returns none → (∃ e ∈ s.dsomap.entries, e.2 = lib) → 2 ≤ s.loader lib
  | .cleanup ctx => ∀ e ∈ s.dsomap.entries, e.1 ≠ ctx →
    2 * (s.dsomap.of ctx).countP (·.2 = e.2) < s.loader e.2

variable {s s' : State γ η (Counts η)} {ctx : γ} {a : Act γ (Bytes → Option η) η}
  {call : Call (Bytes → Option η) η}

omit [DecidableEq η] in
theorem Initial.loaded (h : Initial s) : Loaded s := by
  intro e he
  rw [h.1] at he
  exact absurd he List.not_mem_nil

/-- **Cleanup.** In any state: what is recorded afterwards is loaded exactly if it had enough
references. -/
theorem loaded_cleanup_iff :
    Loaded (duk_require_cleanup dynlod ctx s) ↔ Spared s (.cleanup ctx) := by
  have hloader (lib : η) : (duk_require_cleanup dynlod ctx s).loader lib =
      s.loader lib - 2 * (s.dsomap.of ctx).countP (·.2 = lib) := by
    rw [duk_require_cleanup_eq]
    exact foldl_releases releases_dynlod _
  have hentries : (duk_require_cleanup dynlod ctx s).dsomap = s.dsomap.erase ctx := by
    rw [duk_require_cleanup_eq]
  unfold Loaded Spared
  rw [hentries]
  constructor
  · intro h e he hctx
    have hpos := h e (List.mem_filter.mpr ⟨he, by simpa using hctx⟩)
    rw [hloader] at hpos
    omega
  · intro h e he
    obtain ⟨he, hctx⟩ := List.mem_filter.mp he
    have hlt := h e he (by simpa using hctx)
    rw [hloader]
    omega

omit [DecidableEq η] in
/-- A search opens one library. -/
theorem eq_of_library {path path' : Bytes} {lib lib' : η} (hlibrary : call.library = some path)
    (hfind : call.env path = some lib) (hpath : call.library = some path')
    (henv : call.env path' = some lib') : lib' = lib := by
  obtain rfl := Option.some.inj (hlibrary.symm.trans hpath)
  exact Option.some.inj (henv.symm.trans hfind)

theorem loaded_modSearch_iff {r : Outcome Ret} (hs : Loaded s)
    (h : modSearch dynlod ctx call s = some (s', r)) :
    Loaded s' ↔ Spared s (.modSearch ctx call) := by
  rcases modSearch_cases h with ⟨hlibrary, rfl⟩ | ⟨path, loader, hlibrary, hopen, rfl⟩ |
    ⟨path, lib, loader, hlibrary, hopen, ⟨fn, hsym, rfl⟩ | ⟨hsym, rfl⟩⟩
  · refine iff_of_true hs fun path lib hpath => ?_
    rw [hlibrary] at hpath
    cases hpath
  · obtain ⟨hfind, rfl⟩ := dlopen_none hopen
    refine iff_of_true hs fun path' lib hpath henv => ?_
    rw [hlibrary] at hpath
    cases hpath
    rw [hfind] at henv
    cases henv
  · obtain ⟨hfind, rfl⟩ := dlopen_some hopen
    refine iff_of_true ?_ ?_
    · intro e he
      dsimp only
      by_cases hlib : e.2 = lib
      · rw [hlib, Function.update_self]
        exact Nat.succ_pos _
      · rw [Function.update_of_ne hlib]
        rcases List.mem_cons.mp (Multimap.perm_insert.mem_iff.mp he) with rfl | he
        · exact absurd rfl hlib
        · exact hs e he
    · intro path' lib' hpath henv hnone
      obtain rfl := eq_of_library hlibrary hfind hpath henv
      rw [hsym] at hnone
      cases hnone
  · obtain ⟨hfind, rfl⟩ := dlopen_some hopen
    have hloader : (State.dlclose dynlod ctx lib { s with
        loader := Function.update s.loader lib (s.loader lib + 1)
        opened := s.opened ++ [(ctx, lib)] }).loader =
        Function.update s.loader lib (s.loader lib - 1) := by
      refine (releases_dynlod lib _).trans ?_
      dsimp only
      rw [Function.update_self, Function.update_idem]
      rfl
    unfold Loaded
    rw [hloader]
    constructor
    · intro h path' lib' hpath henv hnone hrecorded
      obtain rfl := eq_of_library hlibrary hfind hpath henv
      obtain ⟨e, he, rfl⟩ := hrecorded
      have hpos := h e he
      rw [Function.update_self] at hpos
      omega
    · intro h e he
      by_cases hlib : e.2 = lib
      · have htwo := h path lib hlibrary hfind hsym ⟨e, he, hlib⟩
        rw [hlib, Function.update_self]
        omega
      · rw [Function.update_of_ne hlib]
        exact hs e he

/-- **Step.** -/
theorem loaded_step_iff (hs : Loaded s) (h : step dynlod s a = some s') :
    Loaded s' ↔ Spared s a := by
  cases a with
  | modSearch ctx call =>
    obtain ⟨⟨s₁, r⟩, hr, rfl⟩ := Option.map_eq_some_iff.mp h
    exact loaded_modSearch_iff hs hr
  | cleanup ctx =>
    obtain rfl := Option.some.inj h
    exact loaded_cleanup_iff

theorem loaded_of_reach (h : Reach Initial (step dynlod) Spared s) : Loaded s :=
  h.invariant (fun _ hs => hs.loaded) fun _ _ _ hs hst hok => (loaded_step_iff hs hst).mpr hok

/-! ## One reference for each handle -/

/-- At least as many references as records. -/
def Referenced (s : State γ η (Counts η)) : Prop :=
  ∀ lib, s.dsomap.entries.countP (·.2 = lib) ≤ s.loader lib

theorem Referenced.modSearch {r : Outcome Ret} (hs : Referenced s)
    (h : modSearch posix ctx call s = some (s', r)) : Referenced s' := by
  rcases modSearch_cases h with ⟨-, rfl⟩ | ⟨path, loader, -, hopen, rfl⟩ |
    ⟨path, hdl, loader, -, hopen, ⟨fn, -, rfl⟩ | ⟨-, rfl⟩⟩
  · exact hs
  · obtain ⟨-, rfl⟩ := dlopen_none hopen
    exact hs
  · obtain ⟨-, rfl⟩ := dlopen_some hopen
    intro lib
    have hlib := hs lib
    dsimp only
    rw [Multimap.perm_insert.countP_eq, List.countP_cons]
    by_cases heq : lib = hdl
    · subst heq
      rw [Function.update_self]
      simpa using hlib
    · rw [Function.update_of_ne heq]
      simpa [Ne.symm heq] using hlib
  · obtain ⟨-, rfl⟩ := dlopen_some hopen
    intro lib
    refine (hs lib).trans (le_of_eq ?_)
    refine (congrFun ?_ lib).trans (congrFun (releases_posix hdl _) lib).symm
    dsimp only
    rw [Function.update_self, Function.update_idem, Nat.add_sub_cancel, Function.update_eq_self]

theorem Referenced.cleanup (hs : Referenced s) : Referenced (duk_require_cleanup posix ctx s) := by
  intro lib
  have hlib := hs lib
  have hentries := (Multimap.perm_erase (m := s.dsomap) (k := ctx)).countP_eq (·.2 = lib)
  rw [List.countP_append] at hentries
  rw [duk_require_cleanup_eq]
  dsimp only
  rw [foldl_releases releases_posix]
  omega

/-- With one `FreeLibrary` every recorded library stays loaded, in every run. -/
theorem loaded_posix {ok : State γ η (Counts η) → Act γ (Bytes → Option η) η → Prop}
    (h : Reach Initial (step posix) ok s) : Loaded s := by
  have hs : Referenced s := by
    refine h.invariant (fun s hs lib => ?_) fun s a s' hs hst _ => ?_
    · rw [hs.1]
      exact Nat.zero_le _
    · cases a with
      | modSearch ctx call =>
        obtain ⟨⟨s₁, r⟩, hr, rfl⟩ := Option.map_eq_some_iff.mp hst
        exact hs.modSearch hr
      | cleanup ctx =>
        obtain rfl := Option.some.inj hst
        exact hs.cleanup
  intro e he
  exact (List.countP_pos_iff.mpr ⟨e, he, by simp⟩).trans_le (hs e.2)

end Runs

/-- **The shim.** No `dlclose` releases one reference and returns 0. As long as the libraries that
are recorded have had references to spare, they are loaded, and a step keeps that exactly if they
have. -/
theorem dynlod_iff {γ η : Type} [LinearOrder γ] [DecidableEq η] {s : State γ η (Counts η)}
    (h : Reach Initial (step dynlod) Spared s) :
    (∀ (lib : η) (count : Counts η), ¬ ReleasesOne dynlod lib count) ∧ Loaded s ∧
      ∀ a s', step dynlod s a = some s' → (Loaded s' ↔ Spared s a) := by
  have hs := loaded_of_reach h
  exact ⟨fun lib count => not_releasesOne, hs, fun a s' hst => loaded_step_iff hs hst⟩

/-- `require` of a module that has an `init`, from the only library there is. -/
def requireLibrary : Call (Bytes → Option ℕ) ℕ :=
  ⟨some (ascii "m.dll"), none, fun _ => some 7, fun _ => .returns (some (.returns 1))⟩

/-- Two contexts have required the library. -/
def shared : State ℕ ℕ (Counts ℕ) where
  dsomap := (Multimap.empty.insert 1 7).insert 2 7
  loader := Function.update (Function.update (fun _ => 0) 7 1) 7 2
  opened := [(1, 7), (2, 7)]
  closed := []

theorem shared_reach {ok : State ℕ ℕ (Counts ℕ) → Act ℕ (Bytes → Option ℕ) ℕ → Prop}
    (hok : ∀ s ctx, ok s (.modSearch ctx requireLibrary)) : Reach Initial (step dynlod) ok shared :=
  .step (.step (.init (s := ⟨.empty, fun _ => 0, [], []⟩) ⟨rfl, rfl, rfl⟩)
    (a := .modSearch 1 requireLibrary) rfl (hok _ 1))
    (a := .modSearch 2 requireLibrary) rfl (hok _ 2)

/-- The second context has required the library once more: then the cleanup of the first leaves it
loaded, with the last of its three references. -/
theorem dynlod_shared :
    ∃ s, exec (step dynlod) shared [.modSearch 2 requireLibrary, .cleanup 1] = some s ∧
      s.dsomap.entries = [(2, 7), (2, 7)] ∧ s.loader 7 = 1 ∧ Loaded s := by
  have hsearch : ∀ (s : State ℕ ℕ (Counts ℕ)) ctx, Spared s (.modSearch ctx requireLibrary) := by
    intro s ctx path lib hpath henv hnone
    cases hnone
  have h : Reach Initial (step dynlod) Spared shared := shared_reach hsearch
  have hcleanup := (h.step (a := .modSearch 2 requireLibrary) rfl (hsearch _ 2)).step
    (a := .cleanup 1) rfl (by unfold Spared; decide)
  exact ⟨_, rfl, rfl, rfl, (dynlod_iff hcleanup).2.1⟩

/-- The cleanup of the first context unloads the library that the second one has recorded. -/
theorem unloaded_shared : ¬ ∀ s : State ℕ ℕ (Counts ℕ), Reach Initial (step dynlod) Free s →
    ∀ ctx s', step dynlod s (.cleanup ctx) = some s' →
      ∀ e ∈ s'.dsomap.entries, e.1 ≠ ctx → 0 < s'.loader e.2 := by
  intro hall
  have hreach : Reach Initial (step dynlod) Free shared := shared_reach fun _ _ => trivial
  exact absurd (hall shared hreach 1 _ rfl (2, 7) (by decide) (by decide)) (by decide)

end Csrv.Duktape
