import Csrv.App.Ownership

/-!
# Loading at start-up

What `lodlibs` adds to `mglb` for the answers of one directory. After a failed `opendir` it does
not return; and it looks for the extension at the end of path and name together, so a path that
ends in a part of the extension can complete it. `lodlibs_complete_iff` gives the directories for
which `mglb` gains what the listing says and nothing else.
-/

namespace Csrv.App

open Csrv.Map

/-- The file was opened: `lodlib` had its memory and `dlopen` did not fail. -/
def DirEntry.Opened (d : DirEntry) : Prop := d.path2 = true ∧ d.dlopen ≠ 0

/-- The file is a library by its name, and was opened. -/
def DirEntry.IsLibrary (d : DirEntry) : Prop := dsoext <:+ d.name ∧ d.Opened

/-- `mglb` gains one entry for each library, under path and name, and nothing else. -/
def Gains (path : Bytes) (ds : List DirEntry) (s s' : OrderedMap Key ℕ) : Prop :=
  ∀ k v, s'.find? k = some v ↔
    (∃ d ∈ ds, d.IsLibrary ∧ k = path ++ d.name ∧ v = d.dlopen) ∨
      ((∀ d ∈ ds, d.IsLibrary → k ≠ path ++ d.name) ∧ s.find? k = some v)

/-- From every table, `lodlibs` ends, with a table unchanged or with the libraries. -/
def StartupComplete (path : Bytes) (dir : Option (List DirEntry)) : Prop :=
  ∀ (srv : Server) (s : OrderedMap Key ℕ), Refines srv.mglb s →
    ∃ srv' ev, lodlibs path srv dir = some (srv', ev) ∧
      match dir with
      | none => srv'.mglb = srv.mglb
      | some ds => ∃ s', Refines srv'.mglb s' ∧ Gains path ds s s'

/-- The directory can be opened, no name is made a library by the path in front of it, and a name
that is listed twice is loaded alike. -/
structure Loadable (path : Bytes) (ds : List DirEntry) : Prop where
  own : ∀ d ∈ ds, d.Opened → dsoext <:+ path ++ d.name → dsoext <:+ d.name
  alike : ∀ d ∈ ds, ∀ d' ∈ ds, d.IsLibrary → d'.IsLibrary → d.name = d'.name →
    d.dlopen = d'.dlopen

section Loop

variable {path : Bytes} {ds : List DirEntry} {d : DirEntry} {s : OrderedMap Key ℕ} {k : Key} {v : ℕ}

/-- What `lodlibs` takes for a library. -/
def Adds (path : Bytes) (d : DirEntry) : Prop := dsoext <:+ path ++ d.name ∧ d.Opened

theorem find?_addLibrary_of_adds (h : Adds path d) :
    (addLibrary path s d).find? k = if k = path ++ d.name then some d.dlopen else s.find? k := by
  have hh : (lodlib (path ++ d.name) d).1 = d.dlopen := by simp [lodlib, h.2.1]
  unfold addLibrary
  rw [hh]
  exact (congrArg (OrderedMap.find? · k) (if_pos ⟨endswith_iff.mpr h.1, h.2.2⟩)).trans
    OrderedMap.find?_insert

theorem addLibrary_of_not_adds (h : ¬ Adds path d) : addLibrary path s d = s := by
  refine if_neg fun hc => h ⟨endswith_iff.mp hc.1, ?_⟩
  cases hp : d.path2 with
  | false =>
    have h0 : (lodlib (path ++ d.name) d).1 = 0 := by simp [lodlib, hp]
    exact absurd h0 hc.2
  | true =>
    have hh : (lodlib (path ++ d.name) d).1 = d.dlopen := by simp [lodlib, hp]
    exact ⟨hp, hh ▸ hc.2⟩

/-- A key is missing in the end if it was missing and no library has it. -/
theorem find?_libraries_none : (ds.foldl (addLibrary path) s).find? k = none ↔
    s.find? k = none ∧ ∀ d ∈ ds, Adds path d → k ≠ path ++ d.name := by
  induction ds generalizing s with
  | nil => simp
  | cons d ds ih =>
    rw [List.foldl_cons, ih, List.forall_mem_cons, ← and_assoc]
    refine and_congr_left fun _ => ?_
    by_cases h : Adds path d
    · rw [find?_addLibrary_of_adds h]
      by_cases hk : k = path ++ d.name <;> simp [h, hk]
    · simp [addLibrary_of_not_adds h, h]

/-- What is found in the end is of a library, or was there. -/
theorem find?_libraries_some (h : (ds.foldl (addLibrary path) s).find? k = some v) :
    (∃ d ∈ ds, Adds path d ∧ k = path ++ d.name ∧ v = d.dlopen) ∨
      (∀ d ∈ ds, Adds path d → k ≠ path ++ d.name) ∧ s.find? k = some v := by
  induction ds generalizing s with
  | nil => exact .inr ⟨fun _ hd => absurd hd List.not_mem_nil, h⟩
  | cons d ds ih =>
    rcases ih h with ⟨d', hd', hlib⟩ | ⟨hnone, hs⟩
    · exact .inl ⟨d', List.mem_cons_of_mem _ hd', hlib⟩
    by_cases ha : Adds path d
    · rw [find?_addLibrary_of_adds ha] at hs
      split_ifs at hs with hk
      · exact .inl ⟨d, List.mem_cons_self, ha, hk, (Option.some.inj hs).symm⟩
      · exact .inr ⟨List.forall_mem_cons.mpr ⟨fun _ => hk, hnone⟩, hs⟩
    · rw [addLibrary_of_not_adds ha] at hs
      exact .inr ⟨List.forall_mem_cons.mpr ⟨fun h => absurd h ha, hnone⟩, hs⟩

/-- The loop ends, with the libraries in the table. -/
theorem lodlibsLoop_refines (path : Bytes) (ds : List DirEntry) (srv : Server)
    (h : Refines srv.mglb s) :
    ∃ srv' ev, lodlibsLoop path srv ds = some (srv', ev) ∧
      Refines srv'.mglb (ds.foldl (addLibrary path) s) := by
  induction ds generalizing srv s with
  | nil => exact ⟨srv, [], rfl, h⟩
  | cons d ds ih =>
    rw [List.foldl_cons, addLibrary]
    unfold lodlibsLoop
    by_cases hext : endswith (path ++ d.name) dsoext = true
    · rw [if_pos hext]
      generalize lodlib (path ++ d.name) d = o
      obtain ⟨handle, ev⟩ := o
      by_cases h0 : handle = 0
      · obtain ⟨srv', ev', hl, hr⟩ := ih srv h
        simp only [h0, ne_eq, not_true_eq_false, if_false, and_false, hl, Option.bind_eq_bind,
          Option.bind_some]
        exact ⟨srv', _, rfl, hr⟩
      · obtain ⟨m, hset, hm, -⟩ := hashmapSetFree_spec (k := path ++ d.name) (v := handle) h
        obtain ⟨srv', ev', hl, hr⟩ := ih { srv with mglb := m } hm
        simp only [h0, ne_eq, not_false_eq_true, if_true, hset, hl, hext, and_self,
          Option.bind_eq_bind, Option.bind_some]
        exact ⟨srv', _, rfl, hr⟩
    · rw [if_neg hext, if_neg fun hc => hext hc.1]
      exact ih srv h

end Loop

/-! ## When start-up is complete -/

section Complete

variable {path : Bytes} {ds : List DirEntry} {s : OrderedMap Key ℕ}

theorem Loadable.isLibrary_iff (h : Loadable path ds) {d : DirEntry} (hd : d ∈ ds) :
    Adds path d ↔ d.IsLibrary :=
  ⟨fun ha => ⟨h.own d hd ha.2 ha.1, ha.2⟩,
    fun hl => ⟨hl.1.trans (List.suffix_append path d.name), hl.2⟩⟩

theorem Loadable.gains (h : Loadable path ds) :
    Gains path ds s (ds.foldl (addLibrary path) s) := by
  intro k v
  constructor
  · intro hf
    refine (find?_libraries_some hf).imp ?_ (And.imp_left fun hno d hd hl => ?_)
    · exact fun ⟨d, hd, ha, hk⟩ => ⟨d, hd, (h.isLibrary_iff hd).mp ha, hk⟩
    · exact hno d hd ((h.isLibrary_iff hd).mpr hl)
  · rintro (⟨d, hd, hl, hk, rfl⟩ | ⟨hno, hs⟩)
    · -- the key is there, and whichever entry has given it has the same handle
      have hne : (ds.foldl (addLibrary path) s).find? k ≠ none := fun h0 =>
        (find?_libraries_none.mp h0).2 d hd ((h.isLibrary_iff hd).mpr hl) hk
      obtain ⟨v, hv⟩ := Option.ne_none_iff_exists'.mp hne
      rcases find?_libraries_some hv with ⟨d', hd', ha', hk', rfl⟩ | ⟨hno, -⟩
      · rw [hv, h.alike d hd d' hd' hl ((h.isLibrary_iff hd').mp ha')
          (List.append_cancel_left (hk.symm.trans hk'))]
      · exact absurd hk (hno d hd ((h.isLibrary_iff hd).mpr hl))
    · have hne : (ds.foldl (addLibrary path) s).find? k ≠ none := fun h0 => by
        rw [(find?_libraries_none.mp h0).1] at hs
        cases hs
      obtain ⟨w, hw⟩ := Option.ne_none_iff_exists'.mp hne
      rcases find?_libraries_some hw with ⟨d, hd, ha, hk, -⟩ | ⟨-, hs'⟩
      · exact absurd hk (hno d hd ((h.isLibrary_iff hd).mp ha))
      · rw [hw, ← hs', hs]

/-- From the empty table, what a complete start-up has to find. -/
theorem Loadable.of_gains (h : Gains path ds .empty (ds.foldl (addLibrary path) .empty)) :
    Loadable path ds := by
  constructor
  · intro d hd ho hext
    have hne : (ds.foldl (addLibrary path) .empty).find? (path ++ d.name) ≠ none := fun h0 =>
      (find?_libraries_none.mp h0).2 d hd ⟨hext, ho⟩ rfl
    obtain ⟨v, hv⟩ := Option.ne_none_iff_exists'.mp hne
    rcases (h _ _).mp hv with ⟨d', -, hl, hk, -⟩ | ⟨-, hs⟩
    · rw [List.append_cancel_left hk]
      exact hl.1
    · cases hs
  · intro d hd d' hd' hl hl' hname
    have hv := (h (path ++ d.name) d.dlopen).mpr (.inl ⟨d, hd, hl, rfl, rfl⟩)
    have hv' := (h (path ++ d.name) d'.dlopen).mpr (.inl ⟨d', hd', hl', by rw [hname], rfl⟩)
    exact Option.some.inj (hv.symm.trans hv')

/-- A path with a separator at its end completes no extension. -/
theorem Loadable.of_separator (h : ∃ p, path = p ++ [0x2f])
    (halike : ∀ d ∈ ds, ∀ d' ∈ ds, d.IsLibrary → d'.IsLibrary → d.name = d'.name →
      d.dlopen = d'.dlopen) : Loadable path ds := by
  refine ⟨fun d _ _ hext => ?_, halike⟩
  obtain ⟨p, rfl⟩ := h
  rcases List.suffix_or_suffix_of_suffix hext (List.suffix_append (p ++ [0x2f]) d.name) with h | h
  · exact h
  · -- a longer suffix would hold the separator
    obtain ⟨t, ht⟩ := h
    obtain ⟨u, hu⟩ := hext
    rw [← ht, ← List.append_assoc] at hu
    rcases List.eq_nil_or_concat t with rfl | ⟨t', b, rfl⟩
    · rw [List.nil_append] at ht
      rw [ht]
    · have hut := List.append_cancel_right hu
      rw [List.concat_eq_append, ← List.append_assoc] at hut
      have hb : b = 0x2f := List.singleton_injective (List.append_inj' hut rfl).2
      have hmem : (0x2f : UInt8) ∈ dsoext := by
        rw [← ht, hb]
        simp
      exact absurd hmem (by decide)

end Complete

/-- For which directories start-up loading is complete. -/
theorem lodlibs_complete_iff (path : Bytes) (dir : Option (List DirEntry)) :
    StartupComplete path dir ↔ ∃ ds, dir = some ds ∧ Loadable path ds := by
  constructor
  · intro h
    cases dir with
    | none =>
      obtain ⟨srv', ev, hl, -⟩ := h ⟨hashmapCreate, hashmapCreate, []⟩ .empty create_refines
      cases hl
    | some ds =>
      obtain ⟨srv', ev, hl, s', hs', hg⟩ :=
        h ⟨hashmapCreate, hashmapCreate, []⟩ .empty create_refines
      obtain ⟨srv₁, ev₁, hl₁, hr⟩ := lodlibsLoop_refines path ds
        ⟨hashmapCreate, hashmapCreate, []⟩ create_refines
      obtain ⟨rfl, rfl⟩ : srv' = srv₁ ∧ ev = ev₁ :=
        Prod.mk.inj (Option.some.inj (hl.symm.trans hl₁))
      refine ⟨ds, rfl, Loadable.of_gains fun k v => ?_⟩
      rw [hr.find?_unique hs' k]
      exact hg k v
  · rintro ⟨ds, rfl, hgood⟩ srv s hs
    obtain ⟨srv', ev, hl, hr⟩ := lodlibsLoop_refines path ds srv hs
    exact ⟨srv', ev, hl, _, hr, hgood.gains⟩

/-- A directory that cannot be opened. -/
theorem not_startupComplete_unreadable : ¬ StartupComplete (ascii "./lib/") none := by
  intro h
  obtain ⟨srv', ev, hl, -⟩ := h ⟨hashmapCreate, hashmapCreate, []⟩ .empty create_refines
  cases hl

end Csrv.App
