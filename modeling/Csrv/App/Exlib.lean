import Csrv.App.Dispatch
import Csrv.Map.Table
import Mathlib.Algebra.Order.BigOperators.Group.List

/-!
# Modules and their cache

`exlib`, the start-up pass `lodlibs` and the unload passes of `appmain`, over the two hash maps
`mglb` and `mloc`. Every call records what it did to the loader, to the entries and to the
connection as a list of events.

Handles are addresses, `0` is `NULL`. The loader has one handle for one file, so a handle is also
the identity of its file; a function pointer carries the handle it was looked up through. What the
loader and the allocator answer is part of each request. `none` is a lookup that never ends or a
read through a pointer that does not point to anything.
-/

namespace Csrv.App

open Csrv.Map Csrv.Mongoose

/-- A pointer that `dlsym` returned, with the handle it came from. -/
structure Sym where
  origin : ℕ
  addr : ℕ
  deriving DecidableEq

structure DSOEntry where
  hdl : ℕ
  usr : Sym
  deriving DecidableEq

/-- The allocator as seen by the entries: a block is new, aligned and not `NULL`. The second
argument is the allocator's choice. -/
structure Malloc where
  block : List ℕ → ℕ → ℕ
  fresh : ∀ live i, block live i ∉ live
  aligned : ∀ live i, 8 ∣ block live i
  nonnull : ∀ live i, block live i ≠ 0

/-- An allocator that hands out blocks upwards. -/
def Malloc.bump : Malloc where
  block live _ := 8 * (live.sum + 1)
  fresh live _ h := by
    have := List.le_sum_of_mem h
    omega
  aligned live _ := ⟨_, rfl⟩
  nonnull live _ := by omega

/-- Which of the four `dlclose` calls of `a.c` closes a handle. -/
inductive Closer
  | cached (path : Bytes) (entry : ℕ)
  | opened (path : Bytes)
  | mapHdl
  | mapDso (entry : ℕ)
  deriving DecidableEq

inductive Event
  | dlopen (path : Bytes) (handle : ℕ)
  | dlsym (handle : ℕ) (sym : Option Sym)
  | read (entry : ℕ)
  | call (sym : Sym)
  | dlclose (closer : Closer) (handle : ℕ)
  | ovFree (key : Bytes) (value : ℕ)
  | reply (fmt : Bytes)
  deriving DecidableEq

/-- The globals of `a.c`, and the entries allocated so far. -/
structure Server where
  mglb : Hashmap
  mloc : Hashmap
  heap : List (ℕ × DSOEntry)

/-- What one call of `exlib` gets from outside: the stale bytes of its buffer, its three
allocations, and the loader's two answers. -/
structure Env where
  stack : Fin 32 → UInt8
  path2 : Bool
  dlopen : ℕ
  dlsym : Option ℕ
  path3 : Bool
  entry : Option ℕ

/-- All allocations of a call succeed. -/
structure Env.Allocates (env : Env) : Prop where
  path2 : env.path2 = true
  path3 : env.path3 = true
  entry : env.entry.isSome = true

structure Request where
  path : Bytes
  query : Bytes
  env : Env

/-! ## `exlib` -/

/-- The flush decision. -/
def flushParam (query : Bytes) (stack : Fin 32 → UInt8) : Bool :=
  let (_, buf) := mgHttpGetVar query (ascii "flush") (List.ofFn stack)
  cstr buf == ascii "true"

def Request.flush (r : Request) : Bool := flushParam r.query r.env.stack

/-- The string `path2` of `exlib` and `lodlib`. -/
def path2Of (path : Bytes) : Bytes := if endswith path dsoext then path else path ++ dsoext

def Request.path2 (r : Request) : Bytes := path2Of r.path

/-- The block under `if(flush)` before the lookup. -/
def exlibFlush (srv : Server) (path2 : Bytes) : Option (Server × List Event) := do
  let (hit, entry) ← hashmapGet srv.mloc path2
  if hit then
    let e ← srv.heap.lookup entry
    let mloc ← hashmapRemove srv.mloc path2
    some ({ srv with mloc }, [.read entry, .dlclose (.cached path2 entry) e.hdl])
  else some (srv, [])

/-- The locals of `exlib` that are read after the lookup. -/
structure Frame where
  path2 : Bytes
  flush : Bool
  handle : ℕ
  sym : Sym
  deriving DecidableEq

/-- The branch of `exlib` that loads the module; no frame is an early `return -1`. -/
def exlibMiss (al : Malloc) (srv : Server) (path2 : Bytes) (flush : Bool) (env : Env) :
    Option (Server × List Event × Option Frame) :=
  let handle := env.dlopen
  if handle = 0 then
    some (srv, [.dlopen path2 handle, .reply (ascii "exlib:elod:%s\n")], none)
  else
    match env.dlsym with
    | none =>
      some (srv, [.dlopen path2 handle, .dlsym handle none, .reply (ascii "exlib:esym:%s\n")], none)
    | some addr =>
      let sym : Sym := ⟨handle, addr⟩
      let ev := [.dlopen path2 handle, .dlsym handle (some sym)]
      if flush then some (srv, ev, some ⟨path2, flush, handle, sym⟩)
      else if !env.path3 then some (srv, ev ++ [.reply (ascii "exlib:esym:%s\n")], none)
      else
        match env.entry with
        | none => some (srv, ev ++ [.reply (ascii "exlib:eent:%s\n")], none)
        | some i => do
          let entry := al.block (srv.heap.map Prod.fst) i
          let (mloc, old) ← hashmapSetFree srv.mloc path2 entry
          some ({ srv with mloc, heap := (entry, ⟨handle, sym⟩) :: srv.heap },
            ev ++ old.map fun o => .ovFree o.1 o.2, some ⟨path2, flush, handle, sym⟩)

/-- `exlib` up to the call of `sym`. -/
def exlibLoad (al : Malloc) (srv : Server) (r : Request) :
    Option (Server × List Event × Option Frame) :=
  let flush := r.flush
  let path2 := r.path2
  if !r.env.path2 then some (srv, [.reply (ascii "exlib:ealloc\n")], none)
  else do
    let (srv, ev) ← if flush then exlibFlush srv path2 else some (srv, [])
    let (hit, entry) ← hashmapGet srv.mloc path2
    if !hit then
      let (srv, ev', frame) ← exlibMiss al srv path2 flush r.env
      some (srv, ev ++ ev', frame)
    else
      let e ← srv.heap.lookup entry
      some (srv, ev ++ [.read entry], some ⟨path2, flush, 0, e.usr⟩)

/-- `exlib` after the call of `sym`. -/
def exlibDone (frame : Frame) : List Event :=
  if frame.flush then [.dlclose (.opened frame.path2) frame.handle] else []

def exlib (al : Malloc) (srv : Server) (r : Request) : Option (Server × List Event × ℤ) := do
  let (srv, ev, frame) ← exlibLoad al srv r
  match frame with
  | none => some (srv, ev, -1)
  | some frame => some (srv, ev ++ .call frame.sym :: exlibDone frame, 0)

/-! ## Start-up -/

/-- One answer of `readdir`, and what `lodlib` gets when it tries that file. -/
structure DirEntry where
  name : Bytes
  path2 : Bool
  dlopen : ℕ

/-- `lodlib`: the handle and the events. -/
def lodlib (path : Bytes) (d : DirEntry) : ℕ × List Event :=
  if !d.path2 then (0, []) else (d.dlopen, [.dlopen (path2Of path) d.dlopen])

/-- The loop of `lodlibs` over what `readdir` returns. -/
def lodlibsLoop (path : Bytes) : Server → List DirEntry → Option (Server × List Event)
  | srv, [] => some (srv, [])
  | srv, d :: ds =>
    let fullpath := path ++ d.name
    if endswith fullpath dsoext then
      let (handle, ev) := lodlib fullpath d
      if handle ≠ 0 then do
        let (mglb, old) ← hashmapSetFree srv.mglb fullpath handle
        let (srv, ev') ← lodlibsLoop path { srv with mglb } ds
        some (srv, (ev ++ old.map fun o => .ovFree o.1 o.2) ++ ev')
      else do
        let (srv, ev') ← lodlibsLoop path srv ds
        some (srv, ev ++ ev')
    else lodlibsLoop path srv ds

/-- `lodlibs`. After a failed `opendir` it still calls `readdir`, on `NULL`. -/
def lodlibs (path : Bytes) (srv : Server) : Option (List DirEntry) → Option (Server × List Event)
  | none => none
  | some dr => lodlibsLoop path srv dr

/-- `appmain` before it serves. -/
def appmainStart (dir : Option (List DirEntry)) : Option (Server × List Event) :=
  lodlibs (ascii "./lib/") ⟨hashmapCreate, hashmapCreate, []⟩ dir

/-! ## Shutdown -/

def freeMapHdlEntry (val : ℕ) : List Event := [.dlclose .mapHdl val]

def freeMapDsoEntry (heap : List (ℕ × DSOEntry)) (val : ℕ) : Option (List Event) := do
  let entry ← heap.lookup val
  some [.read val, .dlclose (.mapDso val) entry.hdl]

/-- `hashmap_iterate` over `mloc`, entry by entry. -/
def freeMapDsoEntries (heap : List (ℕ × DSOEntry)) : List (Key × ℕ) → Option (List Event)
  | [] => some []
  | (_, val) :: es => do
    let ev ← freeMapDsoEntry heap val
    let ev' ← freeMapDsoEntries heap es
    some (ev ++ ev')

/-- The two unload passes of `appmain`. -/
def appmainUnload (srv : Server) : Option (List Event) := do
  let ev ← freeMapDsoEntries srv.heap (hashmapIterate srv.mloc)
  some ((hashmapIterate srv.mglb).flatMap (fun e => freeMapHdlEntry e.2) ++ ev)

end Csrv.App
