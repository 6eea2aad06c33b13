import Csrv.App.Exlib
import Csrv.Map.Ops

/-!
# The module cache as a map

`Cache` is the content of `mloc` with the entries it points to: an insertion-ordered map from
paths to entry addresses, whose addresses are distinct and allocated. `Cache.load` says what one
call of `exlib` does to it. `exlib_represents` connects it to the tables: `exlib` always returns,
with the events and the result of the cache, in a server that represents the cache after the call.
-/

namespace Csrv.App

open Csrv.Map

structure Cache where
  map : OrderedMap Key ℕ
  heap : List (ℕ × DSOEntry)
  live : ∀ c ∈ map.entries, (heap.lookup c.2).isSome
  distinct : (map.entries.map Prod.snd).Nodup
  aligned : ∀ a ∈ heap.map Prod.fst, 8 ∣ a
  origin : ∀ c ∈ heap, c.2.usr.origin = c.2.hdl

/-- The ways a load leaves an opened module without an owner. -/
def Request.Drops (r : Request) : Prop :=
  r.env.dlsym = none ∨ r.flush = false ∧ (r.env.path3 = false ∨ r.env.entry = none)

/-- A load of the module succeeds and can be cached. -/
def Env.keeps (env : Env) : Bool :=
  env.dlopen != 0 && env.dlsym.isSome && env.path3 && env.entry.isSome

namespace Cache

theorem ext {c d : Cache} (hm : c.map = d.map) (hh : c.heap = d.heap) : c = d := by
  cases c; cases d; cases hm; cases hh; rfl

def empty : Cache :=
  ⟨.empty, [], fun _ h => absurd h List.not_mem_nil, List.nodup_nil,
    fun _ h => absurd h List.not_mem_nil, fun _ h => absurd h List.not_mem_nil⟩

/-- The address and the entry cached for a path. -/
def find (c : Cache) (p : Bytes) : Option (ℕ × DSOEntry) :=
  (c.map.find? p).bind fun a => (c.heap.lookup a).map (a, ·)

/-- Without the path; the entry stays allocated. -/
def drop (c : Cache) (p : Bytes) : Cache where
  map := c.map.erase p
  heap := c.heap
  live := fun e he => c.live e (List.mem_filter.mp he).1
  distinct := c.distinct.sublist (List.filter_sublist.map _)
  aligned := c.aligned
  origin := c.origin

theorem mem_heap_of_mem {c : Cache} {e : Key × ℕ} (he : e ∈ c.map.entries) :
    e.2 ∈ c.heap.map Prod.fst := by
  obtain ⟨d, hd⟩ := Option.isSome_iff_exists.mp (c.live e he)
  obtain ⟨l₁, l₂, h, -⟩ := List.lookup_eq_some_iff.mp hd
  rw [h]
  simp

/-- The address of a new entry. -/
def next (al : Malloc) (c : Cache) (i : ℕ) : ℕ := al.block (c.heap.map Prod.fst) i

theorem next_not_mem (al : Malloc) (c : Cache) (i : ℕ) : c.next al i ∉ c.heap.map Prod.fst :=
  al.fresh _ _

/-- With a new entry for a path. -/
def put (al : Malloc) (c : Cache) (p : Bytes) (i : ℕ) (s : Sym) : Cache where
  map := (c.map.erase p).push p (c.next al i) (by rw [OrderedMap.find?_erase, if_pos rfl])
  heap := (c.next al i, ⟨s.origin, s⟩) :: c.heap
  live := by
    intro e he
    rw [List.lookup_cons]
    rcases List.mem_append.mp he with he | he
    · cases h : e.2 == c.next al i with
      | true => rfl
      | false => exact c.live e (List.mem_filter.mp he).1
    · rw [List.mem_singleton] at he
      subst he
      simp
  distinct := by
    show (((c.map.erase p).entries ++ [(p, c.next al i)]).map Prod.snd).Nodup
    rw [List.map_append]
    refine List.nodup_append.mpr ⟨(c.drop p).distinct, List.nodup_singleton _, ?_⟩
    rintro a ha b hb rfl
    rw [List.map_singleton, List.mem_singleton] at hb
    subst hb
    obtain ⟨e, he, hea⟩ := List.mem_map.mp ha
    have hmem : e.2 ∈ c.heap.map Prod.fst := (c.drop p).mem_heap_of_mem he
    exact c.next_not_mem al i (hea ▸ hmem :)
  aligned := by
    intro a ha
    rcases List.mem_cons.mp ha with rfl | ha
    · exact al.aligned _ _
    · exact c.aligned a ha
  origin := by
    intro e he
    rcases List.mem_cons.mp he with rfl | he
    · rfl
    · exact c.origin e he

variable {al : Malloc} {c : Cache} {r : Request} {p q : Bytes} {i : ℕ} {s : Sym} {a : ℕ}
  {e : DSOEntry}

theorem find_eq_some_iff : c.find p = some (a, e) ↔
    c.map.find? p = some a ∧ c.heap.lookup a = some e := by
  simp only [find, Option.bind_eq_some_iff, Option.map_eq_some_iff, Prod.mk.injEq]
  constructor
  · rintro ⟨b, hb, d, hd, rfl, rfl⟩
    exact ⟨hb, hd⟩
  · rintro ⟨ha, he⟩
    exact ⟨a, ha, e, he, rfl, rfl⟩

theorem find_eq_none_iff : c.find p = none ↔ c.map.find? p = none := by
  constructor
  · intro h
    by_contra hne
    obtain ⟨b, hb⟩ := Option.ne_none_iff_exists'.mp hne
    obtain ⟨d, hd⟩ := Option.isSome_iff_exists.mp
      (c.live (p, b) (OrderedMap.find?_eq_some_iff.mp hb))
    rw [find_eq_some_iff.mpr ⟨hb, hd⟩] at h
    cases h
  · intro h
    rw [find, h]
    rfl

@[simp] theorem find_empty : empty.find p = none := rfl

theorem find_drop : (c.drop p).find q = if q = p then none else c.find q := by
  rw [find, drop, OrderedMap.find?_erase]
  by_cases h : q = p
  · rw [if_pos h, if_pos h]; rfl
  · rw [if_neg h, if_neg h]; rfl

theorem find_put : (c.put al p i s).find q =
    if q = p then some (c.next al i, ⟨s.origin, s⟩) else c.find q := by
  rw [find, put, OrderedMap.find?_push, OrderedMap.find?_erase]
  by_cases h : q = p
  · rw [if_pos h, if_pos h]
    simp
  · rw [if_neg h, if_neg h, if_neg h, find]
    cases hq : c.map.find? q with
    | none => rfl
    | some b =>
      -- an address in use is not the new one
      have hmem : b ∈ c.heap.map Prod.fst :=
        mem_heap_of_mem (OrderedMap.find?_eq_some_iff.mp hq)
      have hne : (b == c.next al i) = false := by
        rw [beq_eq_false_iff_ne]
        rintro rfl
        exact c.next_not_mem al i hmem
      rw [Option.bind_some, Option.bind_some, List.lookup_cons, hne]

theorem drop_of_none (h : c.find p = none) : c.drop p = c :=
  ext (OrderedMap.erase_of_none (find_eq_none_iff.mp h)) rfl

/-! ## One call of `exlib` -/

/-- The events of the flush block. -/
def closing (c : Cache) (p : Bytes) : List Event :=
  match c.find p with
  | some (a, e) => [.read a, .dlclose (.cached p a) e.hdl]
  | none => []

/-- What a call that finds nothing does. -/
def miss (al : Malloc) (c : Cache) (p : Bytes) (flush : Bool) (env : Env) :
    Cache × List Event × Option Frame :=
  if env.dlopen = 0 then (c, [.dlopen p 0, .reply (ascii "exlib:elod:%s\n")], none)
  else
    match env.dlsym with
    | none =>
      (c, [.dlopen p env.dlopen, .dlsym env.dlopen none, .reply (ascii "exlib:esym:%s\n")], none)
    | some addr =>
      let sym : Sym := ⟨env.dlopen, addr⟩
      let ev := [.dlopen p env.dlopen, .dlsym env.dlopen (some sym)]
      if flush then (c, ev, some ⟨p, true, env.dlopen, sym⟩)
      else if !env.path3 then (c, ev ++ [.reply (ascii "exlib:esym:%s\n")], none)
      else
        match env.entry with
        | none => (c, ev ++ [.reply (ascii "exlib:eent:%s\n")], none)
        | some i => (c.put al p i sym, ev, some ⟨p, false, env.dlopen, sym⟩)

/-- `exlib` up to the call of `sym`, on the cache. -/
def load (al : Malloc) (c : Cache) (r : Request) : Cache × List Event × Option Frame :=
  if !r.env.path2 then (c, [.reply (ascii "exlib:ealloc\n")], none)
  else if r.flush then
    let (c', ev, frame) := (c.drop r.path2).miss al r.path2 true r.env
    (c', c.closing r.path2 ++ ev, frame)
  else
    match c.find r.path2 with
    | some (a, e) => (c, [.read a], some ⟨r.path2, false, 0, e.usr⟩)
    | none => c.miss al r.path2 false r.env

def frameEvents : Option Frame → List Event
  | none => []
  | some frame => .call frame.sym :: exlibDone frame

/-- `exlib` on the cache. -/
def serve (al : Malloc) (c : Cache) (r : Request) : Cache × List Event × ℤ :=
  ((c.load al r).1, (c.load al r).2.1 ++ frameEvents (c.load al r).2.2,
    if (c.load al r).2.2.isSome then 0 else -1)

/-- The cache after these calls. -/
def after (al : Malloc) (c : Cache) (reqs : List Request) : Cache :=
  reqs.foldl (fun c r => (c.serve al r).1) c

/-- What the flush block does to the counters of the table. -/
def buried (c : Cache) (p : Bytes) (n : Counters) : Counters :=
  if c.find p = none then n else n.bury

/-- What a call does to the counters of the table. -/
def tally (c : Cache) (r : Request) (n : Counters) : Counters :=
  if !r.env.path2 then n
  else if r.flush then c.buried r.path2 n
  else if c.find r.path2 = none ∧ r.env.keeps then n.grow.add
  else n

/-! ## What a call can do -/

/-- The call looks for the module itself: it flushes, or nothing is cached. -/
def Misses (c : Cache) (r : Request) : Prop := r.flush = true ∨ c.find r.path2 = none

/-- The cases of `load`: the cache, the events and the frame it ends with. -/
inductive Loads (al : Malloc) (c : Cache) (r : Request) :
    Cache → List Event → Option Frame → Prop
  | enomem (_ : r.env.path2 = false) :
      Loads al c r c [.reply (ascii "exlib:ealloc\n")] none
  | hit {a : ℕ} {e : DSOEntry} (_ : r.env.path2 = true) (_ : r.flush = false)
      (_ : c.find r.path2 = some (a, e)) :
      Loads al c r c [.read a] (some ⟨r.path2, false, 0, e.usr⟩)
  | fail (_ : r.env.path2 = true) (_ : c.Misses r) (_ : r.env.dlopen = 0) :
      Loads al c r (c.drop r.path2)
        (c.closing r.path2 ++ [.dlopen r.path2 0, .reply (ascii "exlib:elod:%s\n")]) none
  | leak {sym : Option Sym} {fmt : Bytes} (_ : r.env.path2 = true) (_ : c.Misses r)
      (_ : r.env.dlopen ≠ 0) (_ : r.Drops) :
      Loads al c r (c.drop r.path2) (c.closing r.path2 ++
        [.dlopen r.path2 r.env.dlopen, .dlsym r.env.dlopen sym, .reply fmt]) none
  | own {addr : ℕ} (_ : r.env.path2 = true) (_ : r.flush = true) (_ : r.env.dlopen ≠ 0)
      (_ : r.env.dlsym = some addr) :
      Loads al c r (c.drop r.path2) (c.closing r.path2 ++ [.dlopen r.path2 r.env.dlopen,
        .dlsym r.env.dlopen (some ⟨r.env.dlopen, addr⟩)])
        (some ⟨r.path2, true, r.env.dlopen, ⟨r.env.dlopen, addr⟩⟩)
  | keep {addr i : ℕ} (_ : r.env.path2 = true) (_ : r.flush = false)
      (_ : c.find r.path2 = none) (_ : r.env.dlopen ≠ 0) (_ : r.env.dlsym = some addr)
      (_ : r.env.path3 = true) (_ : r.env.entry = some i) :
      Loads al c r (c.put al r.path2 i ⟨r.env.dlopen, addr⟩)
        (c.closing r.path2 ++ [.dlopen r.path2 r.env.dlopen,
          .dlsym r.env.dlopen (some ⟨r.env.dlopen, addr⟩)])
        (some ⟨r.path2, false, r.env.dlopen, ⟨r.env.dlopen, addr⟩⟩)

theorem closing_of_none (h : c.find p = none) : c.closing p = [] := by rw [closing, h]

/-- **Cases of a call.** -/
theorem load_cases (al : Malloc) (c : Cache) (r : Request) :
    Loads al c r (c.load al r).1 (c.load al r).2.1 (c.load al r).2.2 := by
  unfold load
  cases hp : r.env.path2 with
  | false => exact .enomem hp
  | true =>
    cases hf : r.flush with
    | true =>
      simp only [miss, Bool.not_true, Bool.false_eq_true, if_false, if_true]
      by_cases h0 : r.env.dlopen = 0
      · rw [if_pos h0]
        exact .fail hp (.inl hf) h0
      rw [if_neg h0]
      cases hd : r.env.dlsym with
      | none => exact .leak hp (.inl hf) h0 (.inl hd)
      | some addr => exact .own hp hf h0 hd
    | false =>
      simp only [Bool.not_true, Bool.false_eq_true, if_false]
      cases hc : c.find r.path2 with
      | some ae => exact .hit hp hf hc
      | none =>
        -- nothing is cached, so dropping the path and closing its entry do nothing
        have hclose := closing_of_none hc
        have idle : ∀ {ev fr}, Loads al c r (c.drop r.path2) (c.closing r.path2 ++ ev) fr →
            Loads al c r c ev fr := by
          intro ev fr h
          rwa [drop_of_none hc, hclose] at h
        simp only [miss]
        by_cases h0 : r.env.dlopen = 0
        · rw [if_pos h0]
          exact idle (.fail hp (.inr hc) h0)
        rw [if_neg h0]
        cases hd : r.env.dlsym with
        | none => exact idle (.leak hp (.inr hc) h0 (.inl hd))
        | some addr =>
          cases h3 : r.env.path3 with
          | false => exact idle (.leak hp (.inr hc) h0 (.inr ⟨hf, .inl h3⟩))
          | true =>
            cases he : r.env.entry with
            | none => exact idle (.leak hp (.inr hc) h0 (.inr ⟨hf, .inr he⟩))
            | some i =>
              have h : Loads al c r _ _ _ := .keep hp hf hc h0 hd h3 he
              rwa [hclose] at h

/-- A load that succeeds puts an entry into the cache. -/
theorem serve_of_keeps (al : Malloc) (h2 : r.env.path2 = true) (hf : r.flush = false)
    (hnone : c.find r.path2 = none) (hk : r.env.keeps = true) :
    ∃ i sym, (c.serve al r).1 = c.put al r.path2 i sym := by
  simp only [Env.keeps, Bool.and_eq_true, bne_iff_ne] at hk
  obtain ⟨⟨⟨h0, hd⟩, h3⟩, he⟩ := hk
  obtain ⟨addr, hd⟩ := Option.isSome_iff_exists.mp hd
  obtain ⟨i, he⟩ := Option.isSome_iff_exists.mp he
  exact ⟨i, ⟨r.env.dlopen, addr⟩, by
    simp [serve, load, miss, h2, hf, hnone, h0, hd, h3, he]⟩

theorem tally_of_keeps {n : Counters} (h2 : r.env.path2 = true) (hf : r.flush = false)
    (hnone : c.find r.path2 = none) (hk : r.env.keeps = true) : c.tally r n = n.grow.add := by
  simp [tally, h2, hf, hnone, hk]

theorem tally_of_flush {n : Counters} (h2 : r.env.path2 = true) (hf : r.flush = true)
    (hc : c.find r.path2 ≠ none) : c.tally r n = n.bury := by
  simp [tally, h2, hf, buried, hc]

/-- A flush leaves nothing cached for its path. -/
theorem serve_of_flush (h2 : r.env.path2 = true) (hf : r.flush = true) :
    (c.serve al r).1 = c.drop r.path2 := by
  simp only [serve, load, h2, hf, miss, Bool.not_true, Bool.false_eq_true, if_false, if_true]
  by_cases h0 : r.env.dlopen = 0
  · rw [if_pos h0]
  · rw [if_neg h0]
    cases r.env.dlsym <;> rfl

end Cache

/-! ## The tables represent the cache -/

/-- `srv` has the cache `c` in `mloc`, and the table `g` as its `mglb`. -/
structure Represents (srv : Server) (g : Hashmap) (c : Cache) : Prop where
  glb : srv.mglb = g
  loc : Refines srv.mloc c.map
  heap : srv.heap = c.heap

/-- The entry that a lookup in `mloc` leads to. -/
def Server.entry (srv : Server) (p : Bytes) : Option (Option DSOEntry) := do
  let (hit, a) ← hashmapGet srv.mloc p
  if hit then
    let e ← srv.heap.lookup a
    some (some e)
  else some none

/-- The entry pointer that is cached for a path. -/
def Server.cached (srv : Server) (p : Bytes) : Option (Option Sym) :=
  (srv.entry p).map (·.map (·.usr))

section Represents

variable (al : Malloc) {srv : Server} {g : Hashmap} {c : Cache} {p : Bytes}

theorem empty_represents : Represents ⟨g, hashmapCreate, []⟩ g .empty := ⟨rfl, create_refines, rfl⟩

theorem Represents.lookup_of_find (h : Represents srv g c) {a : ℕ} {e : DSOEntry}
    (hf : c.find p = some (a, e)) :
    hashmapGet srv.mloc p = some (true, a) ∧ srv.heap.lookup a = some e := by
  obtain ⟨ha, he⟩ := Cache.find_eq_some_iff.mp hf
  rw [hashmapGet_spec h.loc, answer, ha, h.heap]
  exact ⟨rfl, he⟩

theorem Represents.lookup_of_none (h : Represents srv g c) (hf : c.find p = none) :
    hashmapGet srv.mloc p = some (false, 0) := by
  rw [hashmapGet_spec h.loc, answer, Cache.find_eq_none_iff.mp hf]

theorem Represents.entry (h : Represents srv g c) :
    srv.entry p = some ((c.find p).map (·.2)) := by
  unfold Server.entry
  cases hf : c.find p with
  | none => rw [h.lookup_of_none hf]; rfl
  | some ae =>
    obtain ⟨hget, hread⟩ := h.lookup_of_find hf
    simp [hget, hread]

theorem Represents.cached (h : Represents srv g c) :
    srv.cached p = some ((c.find p).map (·.2.usr)) := by
  unfold Server.cached
  rw [h.entry, Option.map_some, Option.map_map]
  rfl

theorem exlibFlush_spec (h : Represents srv g c) :
    ∃ srv', exlibFlush srv p = some (srv', c.closing p) ∧ Represents srv' g (c.drop p) ∧
      srv'.mloc.counters = c.buried p srv.mloc.counters := by
  rw [exlibFlush, Cache.closing, Cache.buried]
  cases hf : c.find p with
  | none =>
    rw [h.lookup_of_none hf, Cache.drop_of_none hf]
    exact ⟨srv, rfl, h, rfl⟩
  | some ae =>
    obtain ⟨hget, hread⟩ := h.lookup_of_find hf
    obtain ⟨m, hm, hR, hcnt⟩ := hashmapRemove_spec (k := p) h.loc
    have hin : c.map.find? p ≠ none := by
      rw [(Cache.find_eq_some_iff.mp hf).1]
      exact Option.some_ne_none _
    rw [if_neg hin] at hcnt
    refine ⟨{ srv with mloc := m }, ?_, ⟨h.glb, hR, h.heap⟩, hcnt⟩
    rw [hget]
    simp only [Option.bind_eq_bind, Option.bind_some, if_true, hread, hm]

theorem exlibMiss_spec (h : Represents srv g c) (hf : c.find p = none) (flush : Bool) (env : Env) :
    ∃ srv', exlibMiss al srv p flush env = some (srv', (c.miss al p flush env).2) ∧
      Represents srv' g (c.miss al p flush env).1 ∧ srv'.mloc.counters =
        if !flush && env.keeps then srv.mloc.counters.grow.add else srv.mloc.counters := by
  unfold exlibMiss Cache.miss Env.keeps
  by_cases h0 : env.dlopen = 0
  · simp only [h0, if_true]
    exact ⟨srv, rfl, h, by simp⟩
  simp only [h0, if_false]
  cases env.dlsym with
  | none => exact ⟨srv, rfl, h, by simp⟩
  | some addr =>
    cases flush with
    | true => exact ⟨srv, rfl, h, rfl⟩
    | false =>
      cases env.path3 with
      | false => exact ⟨srv, rfl, h, by simp⟩
      | true =>
        cases env.entry with
        | none => exact ⟨srv, rfl, h, by simp⟩
        | some i =>
          have habsent := Cache.find_eq_none_iff.mp hf
          obtain ⟨m, hm, hR, hcnt⟩ := hashmapSetFree_spec (k := p) (v := c.next al i) h.loc
          have hset : hashmapSetFree srv.mloc p (al.block (srv.heap.map Prod.fst) i) =
              some (m, []) := by
            rw [h.heap, ← Cache.next, hm, habsent]
            rfl
          refine ⟨{ srv with
            mloc := m
            heap := (al.block (srv.heap.map Prod.fst) i, ⟨env.dlopen, env.dlopen, addr⟩) ::
              srv.heap }, ?_, ⟨h.glb, ?_, ?_⟩, ?_⟩
          · simp only [hset]
            rfl
          · have : (c.put al p i ⟨env.dlopen, addr⟩).map = c.map.insert p (c.next al i) := by
              rw [OrderedMap.insert_of_none habsent, Cache.put]
              simp only [OrderedMap.erase_of_none habsent]
            exact this ▸ hR
          · rw [h.heap]
            rfl
          · rw [if_pos (by simpa using h0)]
            rwa [if_pos habsent] at hcnt

/-- **`exlib` up to the call.** -/
theorem exlibLoad_spec (h : Represents srv g c) (r : Request) :
    ∃ srv', exlibLoad al srv r = some (srv', (c.load al r).2) ∧
      Represents srv' g (c.load al r).1 ∧ srv'.mloc.counters = c.tally r srv.mloc.counters := by
  unfold exlibLoad Cache.load Cache.tally
  cases r.env.path2 with
  | false => exact ⟨srv, rfl, h, rfl⟩
  | true =>
    cases r.flush with
    | true =>
      obtain ⟨srv₁, h₁, hR₁, hcnt₁⟩ := exlibFlush_spec (p := r.path2) h
      have hnone : (c.drop r.path2).find r.path2 = none := by rw [Cache.find_drop, if_pos rfl]
      obtain ⟨srv₂, h₂, hR₂, hcnt₂⟩ := exlibMiss_spec al hR₁ hnone true r.env
      refine ⟨srv₂, ?_, hR₂, hcnt₂.trans hcnt₁⟩
      simp [h₁, hR₁.lookup_of_none hnone, h₂]
    | false =>
      cases hf : c.find r.path2 with
      | none =>
        obtain ⟨srv₂, h₂, hR₂, hcnt⟩ := exlibMiss_spec al h hf false r.env
        refine ⟨srv₂, ?_, hR₂, by simpa using hcnt⟩
        simp [h.lookup_of_none hf, h₂]
      | some ae =>
        obtain ⟨hget, hread⟩ := h.lookup_of_find hf
        refine ⟨srv, ?_, h, by simp⟩
        simp [hget, hread]

/-- **`exlib` refines the cache.** -/
theorem exlib_represents (h : Represents srv g c) (r : Request) :
    ∃ srv', exlib al srv r = some (srv', (c.serve al r).2) ∧
      Represents srv' g (c.serve al r).1 ∧ srv'.mloc.counters = c.tally r srv.mloc.counters := by
  obtain ⟨srv', hl, hR, hcnt⟩ := exlibLoad_spec al h r
  refine ⟨srv', ?_, hR, hcnt⟩
  rw [exlib, hl, Cache.serve]
  rcases c.load al r with ⟨c', ev, _ | frame⟩
  · simp [Cache.frameEvents]
  · simp [Cache.frameEvents]

end Represents

end Csrv.App
