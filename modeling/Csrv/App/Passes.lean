import Csrv.App.Ownership

/-!
# Passes over the module maps

The two unload passes of `appmain` and the listing of the module `dsoctl` walk `mglb` and `mloc`
with `hashmap_iterate`, which gives up after a fixed number of list nodes, those of flushed modules
included. `passes_complete_iff`: in every state that a run reaches, the passes close every recorded
handle once and list every entry once, in order of insertion, exactly when no entry of either map
lies behind that number of nodes.
-/

namespace Csrv.App

open Csrv.Map Run

/-! ## `dsoctl` -/

/-- `%p`, as glibc prints it. -/
def printPtr (p : ℕ) : Bytes :=
  if p = 0 then ascii "(nil)" else ascii "0x" ++ ascii (String.ofList (Nat.toDigits 16 p))

/-- The callback `p` of `dsoctl`: the text `"%-16s: %p\n"` of one chunk. -/
def dsoctlP (key : Key) (value : ℕ) : Bytes :=
  key ++ List.replicate (16 - key.length) 0x20 ++ ascii ": " ++ printPtr value ++ ascii "\n"

/-- `entry` of `dsoctl`: the texts of the chunks it sends. -/
def dsoctlEntry (srv : Server) (reqidx : ℕ) : List Bytes :=
  [ascii "req:" ++ ascii (toString reqidx) ++ ascii "\n", ascii "dsoctl:\n", ascii "global:\n"] ++
    (hashmapIterate srv.mglb).map (fun e => dsoctlP e.1 e.2) ++ [ascii "local:\n"] ++
    (hashmapIterate srv.mloc).map (fun e => dsoctlP e.1 e.2) ++ [[]]

/-! ## Complete passes -/

/-- The handles that these events close. -/
def closedHandles (ev : List Event) : List ℕ :=
  ev.filterMap fun
    | .dlclose _ h => some h
    | _ => none

/-- The passes over a server that has the libraries `s` and the cache `c`: the shutdown closes
every recorded handle once, and `dsoctl` lists every entry once, in order of insertion. -/
structure Complete (srv : Server) (s : OrderedMap Key ℕ) (c : Cache) : Prop where
  unload : ∃ ev, appmainUnload srv = some ev ∧ closedHandles ev = values s ++ c.handles
  listing : ∀ reqidx, dsoctlEntry srv reqidx =
    [ascii "req:" ++ ascii (toString reqidx) ++ ascii "\n", ascii "dsoctl:\n",
      ascii "global:\n"] ++ s.entries.map (fun e => dsoctlP e.1 e.2) ++ [ascii "local:\n"] ++
      c.map.entries.map (fun e => dsoctlP e.1 e.2) ++ [[]]

section Passes

variable {srv : Server} {g : Hashmap} {s : OrderedMap Key ℕ} {c : Cache}

theorem closedHandles_append {ev ev' : List Event} :
    closedHandles (ev ++ ev') = closedHandles ev ++ closedHandles ev' := List.filterMap_append

theorem closedHandles_mapHdl (l : List (Key × ℕ)) :
    closedHandles (l.flatMap fun e => freeMapHdlEntry e.2) = l.map Prod.snd := by
  induction l with
  | nil => rfl
  | cons e l ih => rw [List.flatMap_cons, closedHandles_append, ih]; rfl

theorem freeMapDsoEntries_handles (heap : List (ℕ × DSOEntry)) (l : List (Key × ℕ))
    (h : ∀ e ∈ l, (heap.lookup e.2).isSome) :
    ∃ ev, freeMapDsoEntries heap l = some ev ∧
      closedHandles ev = l.filterMap fun e => (heap.lookup e.2).map (·.hdl) := by
  induction l with
  | nil => exact ⟨[], rfl, rfl⟩
  | cons e l ih =>
    obtain ⟨ev, hev, hcl⟩ := ih fun x hx => h x (List.mem_cons_of_mem _ hx)
    obtain ⟨d, hd⟩ := Option.isSome_iff_exists.mp (h e List.mem_cons_self)
    refine ⟨[.read e.2, .dlclose (.mapDso e.2) d.hdl] ++ ev, ?_, ?_⟩
    · simp [freeMapDsoEntries, freeMapDsoEntry, hd, hev]
    · rw [closedHandles_append, hcl, List.filterMap_cons, hd]
      rfl

/-- What the shutdown closes is what the two walks visit. -/
theorem appmainUnload_handles (hR : Represents srv g c) :
    ∃ ev, appmainUnload srv = some ev ∧ closedHandles ev =
      (hashmapIterate g).map Prod.snd ++
        (hashmapIterate srv.mloc).filterMap fun e => (c.heap.lookup e.2).map (·.hdl) := by
  have hlive : ∀ e ∈ hashmapIterate srv.mloc, (srv.heap.lookup e.2).isSome := by
    intro e he
    rw [hR.heap]
    exact c.live e ((prefix_hashmapIterate hR.loc).subset he)
  obtain ⟨ev, hev, hcl⟩ := freeMapDsoEntries_handles srv.heap _ hlive
  refine ⟨(hashmapIterate g).flatMap (fun e => freeMapHdlEntry e.2) ++ ev, ?_, ?_⟩
  · unfold appmainUnload
    rw [hev, hR.glb]
    rfl
  · rw [closedHandles_append, closedHandles_mapHdl, hcl, hR.heap]

/-- Both walks reach every entry if together they visit as many. -/
theorem iterate_eq_of_length (hg : Refines g s) (hR : Represents srv g c)
    (h : (hashmapIterate g).length + (hashmapIterate srv.mloc).length =
      s.entries.length + c.map.entries.length) :
    hashmapIterate g = s.entries ∧ hashmapIterate srv.mloc = c.map.entries := by
  have hp₁ := prefix_hashmapIterate hg
  have hp₂ := prefix_hashmapIterate hR.loc
  have h₁ := hp₁.length_le
  have h₂ := hp₂.length_le
  exact ⟨hp₁.eq_of_length (by omega), hp₂.eq_of_length (by omega)⟩

theorem dsoctlEntry_length (srv : Server) (reqidx : ℕ) : (dsoctlEntry srv reqidx).length =
    (hashmapIterate srv.mglb).length + (hashmapIterate srv.mloc).length + 5 := by
  simp only [dsoctlEntry, List.length_append, List.length_map, List.length_cons, List.length_nil]
  omega

theorem Complete.length (h : Complete srv s c) :
    (hashmapIterate srv.mglb).length + (hashmapIterate srv.mloc).length =
      s.entries.length + c.map.entries.length := by
  have hl := congrArg List.length (h.listing 0)
  rw [dsoctlEntry_length] at hl
  simp only [List.length_append, List.length_map, List.length_cons, List.length_nil] at hl
  omega

theorem complete_iff (hg : Refines g s) (hR : Represents srv g c) :
    Complete srv s c ↔ srv.mglb.Within ∧ srv.mloc.Within := by
  rw [hR.glb, ← hashmapIterate_eq_iff hg, ← hashmapIterate_eq_iff hR.loc]
  constructor
  · intro h
    have hl := h.length
    rw [hR.glb] at hl
    exact iterate_eq_of_length hg hR hl
  · rintro ⟨h₁, h₂⟩
    obtain ⟨ev, hev, hcl⟩ := appmainUnload_handles hR
    refine ⟨⟨ev, hev, ?_⟩, fun reqidx => ?_⟩
    · rw [hcl, h₁, h₂]
      rfl
    · rw [dsoctlEntry, hR.glb, h₁, h₂]

end Passes

/-- **Passes.** Whatever `lodlibs` loads and whatever requests follow, the shutdown passes close
each handle recorded in either map exactly once and `dsoctl` lists the entries of both, each once
and in order of insertion, exactly when `hashmap_iterate` meets all of them before it gives up. -/
theorem passes_complete_iff (al : Malloc) (ds : List DirEntry) (reqs : List Request) :
    ∃ srv₀ start srv outs, appmainStart (some ds) = some (srv₀, start) ∧
      feed (exlib al) srv₀ reqs = some (srv, outs) ∧
      (Complete srv (libraries ds) (Cache.empty.after al reqs) ↔
        srv.mglb.Within ∧ srv.mloc.Within) := by
  obtain ⟨srv₀, start, h₀, hg, hR₀, hO₀⟩ := appmainStart_owns ds
  obtain ⟨srv, outs, h₁, hR, -⟩ := feed_owns al reqs hR₀ hO₀
  exact ⟨srv₀, start, srv, outs, h₀, h₁, complete_iff hg hR⟩

/-! ## More modules than the walk visits -/

/-- A request for `/tpl` with `n` more slashes in front. -/
def slashedRequest (n : ℕ) : Request where
  path := ascii "./www/" ++ (List.replicate n 0x2f ++ ascii "tpl.so")
  query := []
  env := ⟨fun _ => 0, true, 4096, some 4352, true, some 0⟩

theorem slashedRequest_path2 (n : ℕ) : (slashedRequest n).path2 = (slashedRequest n).path := by
  refine if_pos (endswith_iff.mpr ?_)
  have h : dsoext <:+ ascii "tpl.so" := ⟨ascii "tpl", rfl⟩
  exact (h.trans (List.suffix_append _ _)).trans (List.suffix_append _ _)

/-- Calls on different new paths each add an entry. -/
theorem after_length (al : Malloc) {reqs : List Request} : ∀ {c : Cache},
    (reqs.map Request.path2).Nodup →
    (∀ r ∈ reqs, r.flush = false ∧ r.env.path2 = true ∧ r.env.keeps = true ∧
      c.find r.path2 = none) →
    (c.after al reqs).map.entries.length = c.map.entries.length + reqs.length := by
  induction reqs with
  | nil => exact fun _ _ => rfl
  | cons r reqs ih =>
    intro c hn h
    rw [List.map_cons, List.nodup_cons] at hn
    obtain ⟨hf, h2, hk, hnone⟩ := h r List.mem_cons_self
    obtain ⟨i, sym, hstep⟩ := Cache.serve_of_keeps al h2 hf hnone hk
    have hrest : ∀ q ∈ reqs, q.flush = false ∧ q.env.path2 = true ∧ q.env.keeps = true ∧
        (c.serve al r).1.find q.path2 = none := by
      intro q hq
      obtain ⟨hf, h2, hk, hnone⟩ := h q (List.mem_cons_of_mem _ hq)
      refine ⟨hf, h2, hk, ?_⟩
      rw [hstep, Cache.find_put, if_neg, hnone]
      exact fun he => hn.1 (List.mem_map.mpr ⟨q, hq, he⟩)
    have hlen : (c.serve al r).1.map.entries.length = c.map.entries.length + 1 := by
      rw [hstep, Cache.put]
      show ((c.map.erase r.path2).entries ++ [_]).length = _
      rw [OrderedMap.erase_of_none (Cache.find_eq_none_iff.mp hnone), List.length_append]
      rfl
    show ((c.serve al r).1.after al reqs).map.entries.length = _
    rw [ih hn.2 hrest, hlen, List.length_cons]
    omega

/-- After requests for `/tpl`, `//tpl` and so on under 1003 different paths one entry is neither
listed nor closed. -/
theorem passes_incomplete : ¬ ∀ al ds reqs srv₀ start srv outs,
    appmainStart (some ds) = some (srv₀, start) → feed (exlib al) srv₀ reqs = some (srv, outs) →
      Complete srv (libraries ds) (Cache.empty.after al reqs) := by
  intro hall
  obtain ⟨srv₀, start, h₀, hg, hR₀, hO₀⟩ := appmainStart_owns []
  obtain ⟨srv, outs, h₁, hR, -⟩ :=
    feed_owns .bump ((List.range 1003).map slashedRequest) hR₀ hO₀
  have hl := (hall .bump [] _ srv₀ start srv outs h₀ h₁).length
  have hlen : (Cache.empty.after .bump ((List.range 1003).map slashedRequest)).map.entries.length =
      1003 := by
    rw [after_length]
    · simp [Cache.empty, OrderedMap.empty]
    · rw [List.map_map]
      refine List.nodup_range.map_on fun m _ n _ he => ?_
      simp only [Function.comp_apply, slashedRequest_path2] at he
      have hl := congrArg List.length he
      simp only [slashedRequest, List.length_append, List.length_replicate] at hl
      omega
    · intro r hr
      obtain ⟨n, -, rfl⟩ := List.mem_map.mp hr
      have hflush : flushParam [] (fun _ => 0) = false := by decide
      exact ⟨hflush, rfl, rfl, rfl⟩
  have hloc := length_hashmapIterate_le srv.mloc
  have hglb := (prefix_hashmapIterate (hR.glb ▸ hg)).length_le
  have hempty : (libraries []).entries.length = 0 := rfl
  rw [hlen] at hl
  unfold iterateLimit at hloc
  omega

end Csrv.App
