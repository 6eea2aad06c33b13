import Csrv.App.Cache
import Csrv.Lib.Run
import Csrv.Lib.Trace

/-!
# Every reference is owned

The references the loader counts for a handle, against those the server can account for: the
values of `mglb`, the cached entries, and what a call is holding. `Owns` is the invariant, with
one lemma for each kind of event. `appmainRun_safe`: in every run from start-up to shutdown a
module is called and closed only while it is open, a cached entry is closed at most once, and a
flush closes what it opened itself.
-/

namespace Csrv.App

open Csrv.Map Run Trace

/-! ## Reference counts -/

def Event.opens (h : ℕ) : Event → Bool
  | .dlopen _ h' => h' == h && h != 0
  | _ => false

def Event.closes (h : ℕ) : Event → Bool
  | .dlclose _ h' => h' == h
  | _ => false

/-- Successful `dlopen` calls minus `dlclose` calls. -/
def refs (h : ℕ) (tr : List Event) : ℤ := balance (Event.opens h) (Event.closes h) tr

def Closer.entry : Closer → Option ℕ
  | .cached _ a => some a
  | .mapDso a => some a
  | _ => none

/-- The entries whose handle has been closed. -/
def spent (tr : List Event) : List ℕ :=
  tr.filterMap fun
    | .dlclose closer _ => closer.entry
    | _ => none

/-- What has to hold when an event happens. -/
def Safe (pre : List Event) : Event → Prop
  | .call s => 0 < refs s.origin pre
  | .dlclose closer h => 0 < refs h pre ∧ ∀ a, closer.entry = some a → a ∉ spent pre
  | .read a => a ≠ tombstone
  | _ => True

/-- The handles of the cached entries. -/
def Cache.handles (c : Cache) : List ℕ :=
  c.map.entries.filterMap fun e => (c.heap.lookup e.2).map (·.hdl)

section Counts

variable {h h' : ℕ} {s t : List Event}

@[simp] theorem refs_nil : refs h [] = 0 := rfl

@[simp] theorem refs_append : refs h (s ++ t) = refs h s + refs h t := balance_append _ _

theorem refs_open {p : Bytes} (hh : h ≠ 0) :
    refs h' [.dlopen p h] = if h = h' then 1 else 0 := by
  unfold refs balance
  by_cases heq : h = h'
  · subst heq
    simp [Event.opens, Event.closes, hh]
  · simp [Event.opens, Event.closes, heq]

theorem refs_fail {p : Bytes} : refs h [.dlopen p 0] = 0 := by
  unfold refs balance
  by_cases heq : h = 0
  · simp [Event.opens, Event.closes, heq]
  · simp [Event.opens, Event.closes, Ne.symm heq]

theorem refs_close {cl : Closer} : refs h' [.dlclose cl h] = if h = h' then -1 else 0 := by
  unfold refs balance
  by_cases heq : h = h'
  · simp [Event.opens, Event.closes, heq]
  · simp [Event.opens, Event.closes, heq]

@[simp] theorem spent_append : spent (s ++ t) = spent s ++ spent t := List.filterMap_append

end Counts

section Handles

variable {al : Malloc} {c : Cache} {p : Bytes} {a : ℕ} {e : DSOEntry}

theorem Cache.handles_of_find (hf : c.find p = some (a, e)) :
    c.handles.Perm (e.hdl :: (c.drop p).handles) := by
  obtain ⟨ha, he⟩ := Cache.find_eq_some_iff.mp hf
  have hp := (OrderedMap.perm_erase ha).filterMap fun e => (c.heap.lookup e.2).map (·.hdl)
  rwa [List.filterMap_cons_some (b := e.hdl) (by rw [he]; rfl)] at hp

theorem Cache.handles_put {i : ℕ} {s : Sym} :
    (c.put al p i s).handles = (c.drop p).handles ++ [s.origin] := by
  unfold handles
  show List.filterMap _ ((c.map.erase p).entries ++ [(p, c.next al i)]) = _
  rw [List.filterMap_append]
  congr 1
  · -- the old entries keep their addresses, none of which is the new one
    apply List.filterMap_congr
    intro e he
    have hmem : e.2 ∈ c.heap.map Prod.fst := (c.drop p).mem_heap_of_mem he
    have hne : (e.2 == c.next al i) = false := by
      rw [beq_eq_false_iff_ne]
      intro heq
      exact c.next_not_mem al i (heq ▸ hmem)
    show ((c.put al p i s).heap.lookup e.2).map _ = _
    rw [put, List.lookup_cons, hne]
    rfl
  · simp [put]

theorem Cache.ne_tombstone (hf : c.find p = some (a, e)) : a ≠ tombstone := by
  have hmem : a ∈ c.heap.map Prod.fst :=
    c.mem_heap_of_mem (OrderedMap.find?_eq_some_iff.mp (Cache.find_eq_some_iff.mp hf).1)
  have h8 := c.aligned a hmem
  unfold tombstone
  omega

theorem Cache.origin_of_find (hf : c.find p = some (a, e)) : e.usr.origin = e.hdl := by
  obtain ⟨l₁, l₂, h, -⟩ := List.lookup_eq_some_iff.mp (Cache.find_eq_some_iff.mp hf).2
  exact c.origin (a, e) (by rw [h]; simp)

/-- An address is cached for one path only. -/
theorem Cache.ne_of_mem_drop (hf : c.find p = some (a, e)) {d : Key × ℕ}
    (hd : d ∈ (c.drop p).map.entries) : d.2 ≠ a := by
  obtain ⟨ha, -⟩ := Cache.find_eq_some_iff.mp hf
  have hn := ((OrderedMap.perm_erase ha).map Prod.snd).nodup_iff.mp c.distinct
  rw [List.map_cons, List.nodup_cons] at hn
  intro hda
  exact hn.1 (List.mem_map.mpr ⟨d, hd, hda⟩)

end Handles

/-! ## The invariant -/

/-- The trace is safe, and the loader holds at least the references in `own` and in the cache. -/
structure Owns (own : List ℕ) (c : Cache) (tr : List Event) : Prop where
  safe : Guarded Safe tr
  held : ∀ h, (own.count h : ℤ) + c.handles.count h ≤ refs h tr
  unspent : ∀ e ∈ c.map.entries, e.2 ∉ spent tr
  known : ∀ a ∈ spent tr, a ∈ c.heap.map Prod.fst

section Owns

variable {al : Malloc} {own : List ℕ} {c : Cache} {tr : List Event} {p : Bytes} {h a : ℕ}
  {e : DSOEntry}

theorem owns_nil : Owns [] .empty [] where
  safe := guarded_nil
  held _ := le_refl _
  unspent _ he := absurd he List.not_mem_nil
  known _ ha := absurd ha List.not_mem_nil

theorem Owns.mono {own' : List ℕ} (hO : Owns own c tr) (hs : ∀ h, own'.count h ≤ own.count h) :
    Owns own' c tr where
  safe := hO.safe
  held h := by
    have := hO.held h
    have := hs h
    omega
  unspent := hO.unspent
  known := hO.known

theorem Owns.pos_of_mem (hO : Owns own c tr) (hm : h ∈ own) : 0 < refs h tr := by
  have := hO.held h
  have := List.count_pos_iff.mpr hm
  omega

theorem Owns.pos_of_find (hO : Owns own c tr) (hf : c.find p = some (a, e)) :
    0 < refs e.hdl tr := by
  have h₁ := hO.held e.hdl
  have h₂ := (Cache.handles_of_find hf).count_eq e.hdl
  rw [List.count_cons_self] at h₂
  omega

/-- An event that opens and closes nothing. -/
theorem Owns.quiet (hO : Owns own c tr) (ev : Event) (hs : Safe tr ev)
    (hr : ∀ h, refs h [ev] = 0) (hsp : spent [ev] = []) : Owns own c (tr ++ [ev]) where
  safe := guarded_concat_iff.mpr ⟨hO.safe, hs⟩
  held h := by
    rw [refs_append, hr]
    have := hO.held h
    omega
  unspent d hd := by
    rw [spent_append, hsp, List.append_nil]
    exact hO.unspent d hd
  known b hb := by
    rw [spent_append, hsp, List.append_nil] at hb
    exact hO.known b hb

theorem Owns.opened (hO : Owns own c tr) (hh : h ≠ 0) :
    Owns (h :: own) c (tr ++ [.dlopen p h]) where
  safe := guarded_concat_iff.mpr ⟨hO.safe, trivial⟩
  held h' := by
    rw [refs_append, refs_open hh, List.count_cons]
    have := hO.held h'
    by_cases heq : h = h'
    · simp only [heq, beq_self_eq_true, if_true]
      omega
    · simp only [heq, if_false, beq_iff_eq]
      omega
  unspent d hd := by
    rw [spent_append]
    simpa [spent] using hO.unspent d hd
  known b hb := by
    rw [spent_append] at hb
    exact hO.known b (by simpa [spent] using hb)

theorem Owns.closed (hO : Owns (h :: own) c tr) (cl : Closer) (hcl : cl.entry = none) :
    Owns own c (tr ++ [.dlclose cl h]) where
  safe := by
    refine guarded_concat_iff.mpr ⟨hO.safe, hO.pos_of_mem List.mem_cons_self, fun a ha => ?_⟩
    rw [hcl] at ha
    cases ha
  held h' := by
    have := hO.held h'
    rw [refs_append, refs_close]
    rw [List.count_cons] at this
    by_cases heq : h = h'
    · simp only [heq, beq_self_eq_true, if_true] at this ⊢
      omega
    · simp only [heq, if_false, beq_iff_eq] at this ⊢
      omega
  unspent d hd := by
    rw [spent_append]
    simpa [spent, hcl] using hO.unspent d hd
  known b hb := by
    rw [spent_append] at hb
    exact hO.known b (by simpa [spent, hcl] using hb)

/-- Closing a cached entry. -/
theorem Owns.spend (hO : Owns own c tr) (cl : Closer) (hf : c.find p = some (a, e))
    (hcl : cl.entry = some a) :
    Owns own (c.drop p) (tr ++ [.read a, .dlclose cl e.hdl]) := by
  have hmem : (p, a) ∈ c.map.entries :=
    OrderedMap.find?_eq_some_iff.mp (Cache.find_eq_some_iff.mp hf).1
  have hr : Owns own c (tr ++ [.read a]) :=
    hO.quiet _ (Cache.ne_tombstone hf) (fun _ => rfl) rfl
  have hsp : ∀ t, spent (t ++ [Event.dlclose cl e.hdl]) = spent t ++ [a] := by
    intro t
    rw [spent_append]
    simp [spent, hcl]
  rw [show tr ++ [.read a, .dlclose cl e.hdl] = (tr ++ [.read a]) ++ [.dlclose cl e.hdl] by simp]
  constructor
  · refine guarded_concat_iff.mpr ⟨hr.safe, hr.pos_of_find hf, fun b hb => ?_⟩
    obtain rfl := Option.some.inj (hcl.symm.trans hb)
    exact hr.unspent _ hmem
  · intro h'
    have h₁ := hr.held h'
    have h₂ := (Cache.handles_of_find hf).count_eq h'
    rw [refs_append, refs_close]
    rw [List.count_cons] at h₂
    by_cases heq : e.hdl = h'
    · simp only [heq, beq_self_eq_true, if_true] at h₂ ⊢
      omega
    · simp only [heq, if_false, beq_iff_eq] at h₂ ⊢
      omega
  · intro d hd
    rw [hsp, List.mem_append, not_or, List.mem_singleton]
    exact ⟨hr.unspent d (List.mem_filter.mp hd).1, Cache.ne_of_mem_drop hf hd⟩
  · intro b hb
    rw [hsp, List.mem_append, List.mem_singleton] at hb
    rcases hb with hb | rfl
    · exact hr.known b hb
    · exact c.mem_heap_of_mem hmem

theorem Owns.closing (hO : Owns own c tr) (p : Bytes) :
    Owns own (c.drop p) (tr ++ c.closing p) := by
  unfold Cache.closing
  cases hf : c.find p with
  | none =>
    rw [Cache.drop_of_none hf]
    simpa using hO
  | some ae => exact hO.spend _ hf rfl

/-- A held reference goes into a new entry. -/
theorem Owns.put {i : ℕ} {s : Sym} (hO : Owns (s.origin :: own) (c.drop p) tr) :
    Owns own (c.put al p i s) tr where
  safe := hO.safe
  held h := by
    have := hO.held h
    rw [Cache.handles_put, List.count_append, List.count_singleton]
    rw [List.count_cons] at this
    omega
  unspent d hd := by
    rcases List.mem_append.mp hd with hd | hd
    · exact hO.unspent d hd
    · rw [List.mem_singleton] at hd
      subst hd
      exact fun hm => c.next_not_mem al i (hO.known _ hm)
  known b hb := List.mem_cons_of_mem _ (hO.known b hb)

/-! ## One call -/

theorem Owns.load {r : Request} {c' : Cache} {ev : List Event} {frame : Option Frame}
    (hO : Owns own c tr) (hl : Cache.Loads al c r c' ev frame) :
    Owns own c' (tr ++ (ev ++ Cache.frameEvents frame)) := by
  have hopened : r.env.dlopen ≠ 0 → ∀ sym,
      Owns (r.env.dlopen :: own) (c.drop r.path2) (tr ++ (c.closing r.path2 ++
        [.dlopen r.path2 r.env.dlopen, .dlsym r.env.dlopen sym])) := by
    intro h0 sym
    have := ((hO.closing r.path2).opened (p := r.path2) h0).quiet
      (.dlsym r.env.dlopen sym) trivial (fun _ => rfl) rfl
    simpa using this
  have hcalled : ∀ h0 : r.env.dlopen ≠ 0, ∀ addr, Owns (r.env.dlopen :: own) (c.drop r.path2)
      (tr ++ (c.closing r.path2 ++ [.dlopen r.path2 r.env.dlopen,
        .dlsym r.env.dlopen (some ⟨r.env.dlopen, addr⟩), .call ⟨r.env.dlopen, addr⟩])) := by
    intro h0 addr
    have := (hopened h0 (some ⟨r.env.dlopen, addr⟩)).quiet (.call ⟨r.env.dlopen, addr⟩)
      ((hopened h0 _).pos_of_mem List.mem_cons_self) (fun _ => rfl) rfl
    simpa using this
  have hreply : ∀ {c' tr}, Owns own c' tr → ∀ fmt, Owns own c' (tr ++ [.reply fmt]) :=
    fun hO fmt => hO.quiet _ trivial (fun _ => rfl) rfl
  have hdrop : ∀ {h c' tr}, Owns (h :: own) c' tr → Owns own c' tr :=
    fun hO => hO.mono fun h => List.count_le_count_cons
  cases hl with
  | enomem _ => simpa [Cache.frameEvents] using hreply hO _
  | @hit a e _ _ hf =>
    have hr := hO.quiet (.read a) (Cache.ne_tombstone hf) (fun _ => rfl) rfl
    have hc := hr.quiet (.call e.usr) ?_ (fun _ => rfl) rfl
    · simpa [Cache.frameEvents, exlibDone] using hc
    · show 0 < refs e.usr.origin _
      rw [Cache.origin_of_find hf]
      exact hr.pos_of_find hf
  | fail _ _ h0 =>
    have hq := (hO.closing r.path2).quiet (.dlopen r.path2 0) trivial
      (fun _ => refs_fail) rfl
    simpa [Cache.frameEvents] using hreply hq _
  | leak _ _ h0 _ => simpa [Cache.frameEvents] using hreply (hdrop (hopened h0 _)) _
  | @own addr _ hf h0 hd =>
    simpa [Cache.frameEvents, exlibDone] using (hcalled h0 addr).closed (.opened r.path2) rfl
  | @keep addr i _ hf hnone h0 hd _ _ =>
    simpa [Cache.frameEvents, exlibDone] using (hcalled h0 addr).put

theorem Owns.serve (hO : Owns own c tr) (al : Malloc) (r : Request) :
    Owns own (c.serve al r).1 (tr ++ (c.serve al r).2.1) := hO.load (Cache.load_cases al c r)

/-- What a flush closes at its end is what the same call has opened. -/
theorem serve_opened {r : Request} {q : Bytes} {n : ℕ}
    (hm : Event.dlclose (.opened q) n ∈ (c.serve al r).2.1) :
    n ≠ 0 ∧ Event.dlopen q n ∈ (c.serve al r).2.1 := by
  have hcl : Event.dlclose (.opened q) n ∉ c.closing r.path2 := by
    unfold Cache.closing
    cases c.find r.path2 <;> simp
  have hl := Cache.load_cases al c r
  unfold Cache.serve at hm ⊢
  generalize (c.load al r).2.2 = frame at hl hm
  generalize (c.load al r).2.1 = ev at hl hm
  generalize (c.load al r).1 = c' at hl
  cases hl with
  | own _ hf h0 hd =>
    simp only [Cache.frameEvents, exlibDone, if_true, List.mem_append, hcl, List.mem_cons,
      List.not_mem_nil, false_or, or_false, reduceCtorEq, Event.dlclose.injEq,
      Closer.opened.injEq] at hm ⊢
    obtain ⟨rfl, rfl⟩ := hm
    simp [h0]
  | _ => simp [Cache.frameEvents, exlibDone, hcl] at hm

/-! ## Start-up and shutdown -/

theorem Owns.frees (hO : Owns own c tr) (l : List (Key × ℕ)) :
    Owns own c (tr ++ l.map fun o => .ovFree o.1 o.2) := by
  induction l generalizing tr with
  | nil => simpa using hO
  | cons o l ih =>
    have := ih (hO.quiet (.ovFree o.1 o.2) trivial (fun _ => rfl) rfl)
    simpa using this

/-- The values of `mglb` own their handles. -/
def values (s : OrderedMap Key ℕ) : List ℕ := s.entries.map Prod.snd

theorem count_values_insert (s : OrderedMap Key ℕ) (k : Key) (v h : ℕ) :
    (values (s.insert k v)).count h ≤ (v :: values s).count h := by
  have hp := ((OrderedMap.perm_insert (s := s) (k := k) (v := v)).map Prod.snd).count_eq h
  have hs : ((s.erase k).entries.map Prod.snd).count h ≤ (values s).count h :=
    (List.filter_sublist.map _).count_le h
  simp only [List.map_cons, List.count_cons] at hp
  unfold values at hs ⊢
  rw [List.count_cons]
  omega

theorem lodlib_owns (hO : Owns own c tr) (path : Bytes) (d : DirEntry) :
    ((lodlib path d).1 = 0 → Owns own c (tr ++ (lodlib path d).2)) ∧
      ((lodlib path d).1 ≠ 0 → Owns ((lodlib path d).1 :: own) c (tr ++ (lodlib path d).2)) := by
  unfold lodlib
  cases d.path2 with
  | false => exact ⟨fun _ => by simpa using hO, fun h => absurd rfl h⟩
  | true =>
    refine ⟨fun h0 => ?_, fun h0 => hO.opened h0⟩
    have h0' : d.dlopen = 0 := h0
    simp only [Bool.not_true, Bool.false_eq_true, if_false, h0']
    exact hO.quiet _ trivial (fun _ => refs_fail) rfl

/-- The libraries after one more answer of `readdir`. -/
def addLibrary (path : Bytes) (s : OrderedMap Key ℕ) (d : DirEntry) : OrderedMap Key ℕ :=
  let handle := (lodlib (path ++ d.name) d).1
  if endswith (path ++ d.name) dsoext ∧ handle ≠ 0 then s.insert (path ++ d.name) handle else s

theorem lodlibsLoop_owns (path : Bytes) (ds : List DirEntry) : ∀ (srv : Server)
    {s : OrderedMap Key ℕ}, Refines srv.mglb s → Owns (values s) c tr →
      ∃ srv' ev, lodlibsLoop path srv ds = some (srv', ev) ∧
        Refines srv'.mglb (ds.foldl (addLibrary path) s) ∧ srv'.mloc = srv.mloc ∧
        srv'.heap = srv.heap ∧ Owns (values (ds.foldl (addLibrary path) s)) c (tr ++ ev) := by
  induction ds generalizing tr with
  | nil => exact fun srv s hg hO => ⟨srv, [], rfl, hg, rfl, rfl, by simpa using hO⟩
  | cons d ds ih =>
    intro srv s hg hO
    rw [List.foldl_cons, addLibrary]
    unfold lodlibsLoop
    by_cases hext : endswith (path ++ d.name) dsoext = true
    swap
    · rw [if_neg hext, if_neg fun h => hext h.1]
      exact ih srv hg hO
    rw [if_pos hext]
    obtain ⟨hfail, hopen⟩ := lodlib_owns hO (path ++ d.name) d
    generalize lodlib (path ++ d.name) d = o at hfail hopen ⊢
    obtain ⟨handle, ev⟩ := o
    by_cases h0 : handle = 0
    · simp only [h0, ne_eq, not_true_eq_false, if_false, and_false]
      obtain ⟨srv', ev', hl, hg', hm, hh, hO''⟩ := ih srv hg (hfail h0)
      refine ⟨srv', ev ++ ev', ?_, hg', hm, hh, ?_⟩
      · rw [hl]; rfl
      · rwa [List.append_assoc] at hO''
    · obtain ⟨m, hset, hg₁, -⟩ := hashmapSetFree_spec (k := path ++ d.name) (v := handle) hg
      have hO₁ := ((hopen h0).frees ((s.find? (path ++ d.name)).toList.map (path ++ d.name, ·))).mono
        (count_values_insert s (path ++ d.name) handle)
      obtain ⟨srv', ev', hl, hg', hm, hh, hO'⟩ := ih { srv with mglb := m } hg₁ hO₁
      simp only [h0, ne_eq, not_false_eq_true, if_true, hset, hl, hext, and_self,
        Option.bind_eq_bind, Option.bind_some]
      refine ⟨srv', _, rfl, hg', hm, hh, ?_⟩
      simpa only [List.append_assoc] using hO'

theorem Owns.freeHdl (l : List ℕ) : ∀ {tr : List Event}, Owns (l ++ own) c tr →
    Owns own c (tr ++ l.flatMap freeMapHdlEntry) := by
  induction l with
  | nil => intro tr hO; simpa using hO
  | cons h l ih =>
    intro tr hO
    have hO' : Owns (h :: (l ++ own)) c tr := hO
    simpa [freeMapHdlEntry] using ih (hO'.closed .mapHdl rfl)

theorem freeMapDsoEntries_owns (heap : List (ℕ × DSOEntry)) (l : List (Key × ℕ)) :
    ∀ {c : Cache} {tr : List Event}, c.heap = heap → (l.map Prod.fst).Nodup →
      (∀ e ∈ l, e ∈ c.map.entries) → Owns own c tr →
      ∃ ev c', freeMapDsoEntries heap l = some ev ∧ Owns own c' (tr ++ ev) := by
  induction l with
  | nil => exact fun {c tr} _ _ _ hO => ⟨[], c, rfl, by simpa using hO⟩
  | cons x l ih =>
    intro c tr hh hn hmem hO
    obtain ⟨k, a⟩ := x
    rw [List.map_cons, List.nodup_cons] at hn
    obtain ⟨e, he⟩ := Option.isSome_iff_exists.mp (c.live (k, a) (hmem _ List.mem_cons_self))
    have hf : c.find k = some (a, e) := Cache.find_eq_some_iff.mpr
      ⟨OrderedMap.find?_eq_some_iff.mpr (hmem _ List.mem_cons_self), he⟩
    have hrest : ∀ y ∈ l, y ∈ (c.drop k).map.entries := by
      intro y hy
      refine List.mem_filter.mpr ⟨hmem y (List.mem_cons_of_mem _ hy), ?_⟩
      simp only [ne_eq, decide_not, Bool.not_eq_eq_eq_not, Bool.not_true, decide_eq_false_iff_not]
      exact fun hyk => hn.1 (List.mem_map.mpr ⟨y, hy, hyk⟩)
    obtain ⟨ev, c', hev, hO'⟩ := ih (c := c.drop k) hh hn.2 hrest (hO.spend (.mapDso a) hf rfl)
    refine ⟨[.read a, .dlclose (.mapDso a) e.hdl] ++ ev, c', ?_, by simpa using hO'⟩
    rw [← hh] at hev ⊢
    simp [freeMapDsoEntries, freeMapDsoEntry, he, hev]

theorem appmainUnload_owns {srv : Server} {g : Hashmap} {s : OrderedMap Key ℕ}
    (hR : Represents srv g c) (hg : Refines g s) (hO : Owns (values s) c tr) :
    ∃ ev, appmainUnload srv = some ev ∧ Guarded Safe (tr ++ ev) := by
  obtain ⟨rest, hrest⟩ := prefix_hashmapIterate hg
  have hO₁ : Owns ((hashmapIterate g).map Prod.snd ++ rest.map Prod.snd) c tr := by
    rw [← List.map_append, hrest]
    exact hO
  have hO₂ := hO₁.freeHdl ((hashmapIterate g).map Prod.snd)
  have hpre := prefix_hashmapIterate hR.loc
  obtain ⟨ev, c', hev, hO₃⟩ := freeMapDsoEntries_owns srv.heap (hashmapIterate srv.mloc)
    hR.heap.symm (c.map.nodup.sublist (hpre.sublist.map _)) (fun e he => hpre.subset he) hO₂
  refine ⟨(hashmapIterate g).flatMap (fun e => freeMapHdlEntry e.2) ++ ev, ?_, ?_⟩
  · unfold appmainUnload
    rw [hev, hR.glb]
    rfl
  · have := hO₃.safe
    rwa [List.flatMap_map, List.append_assoc] at this

end Owns

/-! ## Whole runs -/

/-- The server from start-up to shutdown: the events of `lodlibs`, of each call of `exlib` with its
result, and of the unload passes. -/
def appmainRun (al : Malloc) (dir : Option (List DirEntry)) (reqs : List Request) :
    Option (List Event × List (List Event × ℤ) × List Event) := do
  let (srv, start) ← appmainStart dir
  let (srv, outs) ← feed (exlib al) srv reqs
  let stop ← appmainUnload srv
  some (start, outs, stop)

/-- What `lodlibs` puts into `mglb`. -/
def libraries (ds : List DirEntry) : OrderedMap Key ℕ := ds.foldl (addLibrary (ascii "./lib/")) .empty

theorem appmainStart_owns (ds : List DirEntry) :
    ∃ srv ev, appmainStart (some ds) = some (srv, ev) ∧ Refines srv.mglb (libraries ds) ∧
      Represents srv srv.mglb .empty ∧ Owns (values (libraries ds)) .empty ev := by
  obtain ⟨srv, ev, hl, hg, hm, hh, hO⟩ :=
    lodlibsLoop_owns (ascii "./lib/") ds ⟨hashmapCreate, hashmapCreate, []⟩ (s := .empty)
      create_refines owns_nil
  exact ⟨srv, ev, hl, hg, ⟨rfl, hm ▸ create_refines, hh⟩, hO⟩

theorem feed_owns (al : Malloc) (reqs : List Request) {g : Hashmap} {own : List ℕ} :
    ∀ {srv : Server} {c : Cache} {tr : List Event}, Represents srv g c → Owns own c tr →
      ∃ srv' outs, feed (exlib al) srv reqs = some (srv', outs) ∧
        Represents srv' g (c.after al reqs) ∧ Owns own (c.after al reqs) (tr ++ outs.flatMap (·.1)) ∧
        ∀ o ∈ outs, ∀ p h, Event.dlclose (.opened p) h ∈ o.1 → h ≠ 0 ∧ Event.dlopen p h ∈ o.1 := by
  induction reqs with
  | nil => exact fun {srv c tr} hR hO => ⟨srv, [], rfl, hR, by simpa [Cache.after] using hO, by simp⟩
  | cons r reqs ih =>
    intro srv c tr hR hO
    obtain ⟨srv₁, h₁, hR₁, -⟩ := exlib_represents al hR r
    obtain ⟨srv', outs, h₂, hR', hO', hown⟩ := ih hR₁ (hO.serve al r)
    refine ⟨srv', _, feed_cons_iff.mpr ⟨_, _, _, h₁, h₂, rfl⟩, hR', ?_, ?_⟩
    · rw [List.flatMap_cons, ← List.append_assoc]
      exact hO'
    intro o ho p h hm
    rcases List.mem_cons.mp ho with rfl | ho
    · exact serve_opened hm
    · exact hown o ho p h hm

/-- **No use after unload.** Every run of the server reaches its end. In its trace a module is
called and closed only while the loader counts it as open, an entry is closed at most once, and
no tombstone is read; a flush closes in the end the handle it opened itself. -/
theorem appmainRun_safe (al : Malloc) (ds : List DirEntry) (reqs : List Request) :
    ∃ start outs stop, appmainRun al (some ds) reqs = some (start, outs, stop) ∧
      Guarded Safe (start ++ outs.flatMap (·.1) ++ stop) ∧
      ∀ o ∈ outs, ∀ p h, Event.dlclose (.opened p) h ∈ o.1 → h ≠ 0 ∧ Event.dlopen p h ∈ o.1 := by
  obtain ⟨srv₀, start, h₀, hg, hR₀, hO₀⟩ := appmainStart_owns ds
  obtain ⟨srv, outs, h₁, hR, hO, hown⟩ := feed_owns al reqs hR₀ hO₀
  obtain ⟨stop, h₂, hsafe⟩ := appmainUnload_owns hR hg hO
  refine ⟨start, outs, stop, ?_, hsafe, hown⟩
  simp [appmainRun, h₀, h₁, h₂]

end Csrv.App
