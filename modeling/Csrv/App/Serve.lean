import Csrv.App.Cache
import Csrv.Mongoose.Manager
import Csrv.Mongoose.Reply

/-!
# The server

`cb` as the handler of the connections: what comes in over HTTP, on any number of connections, and
what `exlib` does. A `Site` is everything outside: the files, the allocator, the loader, and what
the modules and the static pages write; the outside may answer each message differently. A module
that has kept the pointer to another connection may write there (`Write`, `deliver`).

`server_follows`: the calls of `exlib` are those for the messages of all connections in the order
in which they have been handled, and where the modules keep to the connection of their request
(`Site.Own`), every connection gets the output for its own messages.
-/

namespace Csrv.App

open Csrv.Map Csrv.Mongoose Run
open Shared (Legal part)

/-- A text that a module writes, and the connection where it is not that of the request. -/
structure Write where
  other : Option ℕ
  text : Bytes

/-- What is outside `a.c`, with the number of the message that is being handled. -/
structure Site where
  malloc : Malloc
  access : ℕ → Bytes → Bool
  allocs : ℕ → Allocs
  env : ℕ → Env
  dlerror : ℕ → Bytes
  entry : ℕ → Sym → HttpMsg → List Write
  serveDir : ℕ → HttpMsg → Response

/-- The modules write to the connection of the request they are called for and to no other. -/
def Site.Own (site : Site) : Prop := ∀ n sym ev, ∀ x ∈ site.entry n sym ev, x.other = none

/-- The state of the handler: the globals, or nothing once a call has not returned, the number of
messages handled, and what modules have written to other connections. -/
structure Handler where
  srv : Option Server
  served : ℕ
  outbox : List (ℕ × Bytes)

/-- The text of a format with at most one `%s`. -/
def formatted (fmt arg : Bytes) : Bytes :=
  fmt.takeWhile (· ≠ 0x25) ++ if 0x25 ∈ fmt then arg ++ (fmt.dropWhile (· ≠ 0x25)).drop 2 else []

/-- What an event of `exlib` writes to the connection. -/
def Event.sends (site : Site) (n : ℕ) (ev : HttpMsg) : Event → List Bytes
  | .reply fmt => mgHttpReply 200 [] (formatted fmt (site.dlerror n))
  | .call sym => ((site.entry n sym ev).filter (·.other.isNone)).map Write.text
  | _ => []

/-- What it writes to others. -/
def Event.others (site : Site) (n : ℕ) (ev : HttpMsg) : Event → List (ℕ × Bytes)
  | .call sym => (site.entry n sym ev).filterMap fun x => x.other.map (·, x.text)
  | _ => []

/-- The call of `exlib` that message `n` leads to. -/
def exlibRequest (site : Site) (n : ℕ) (ev : HttpMsg) : Option Request :=
  match cb (site.access n) (site.allocs n) ev.hm with
  | .exlib path => some ⟨path, ev.hm.query, site.env n⟩
  | _ => none

/-- `cb` with all it calls. -/
def serve (site : Site) (s : Handler) (ev : HttpMsg) : Handler × Response :=
  let n := s.served
  match cb (site.access n) (site.allocs n) ev.hm with
  | .dropped => ({ s with served := n + 1 }, ⟨[], none, false⟩)
  | .ealloc => ({ s with served := n + 1 }, ⟨mgHttpReply 200 [] (ascii "ealloc"), none, false⟩)
  | .serveDir => ({ s with served := n + 1 }, site.serveDir n ev)
  | .exlib path =>
    match s.srv.bind fun srv => exlib site.malloc srv ⟨path, ev.hm.query, site.env n⟩ with
    | none => (⟨none, n + 1, s.outbox⟩, ⟨[], none, false⟩)
    | some (srv, evs, _) =>
      (⟨some srv, n + 1, s.outbox ++ evs.flatMap (Event.others site n ev)⟩,
        ⟨evs.flatMap (Event.sends site n ev), none, false⟩)

/-- The texts for other connections reach their send buffers, where these are open. -/
def deliver (calloc : ℕ → Bool) (m : Mgr Handler) : Mgr Handler :=
  ⟨m.usr.outbox.foldl (fun conns x => conns.modify x.1 fun w =>
      if w.isOpen then { w with conn := mgSend calloc w.conn x.2 } else w) m.conns,
    { m.usr with outbox := [] }⟩

def serverStep (site : Site) (m : Mgr Handler) : MgrEvent → Option (Mgr Handler)
  | .accept net => mgrStep (serve site) m (.accept net)
  | .poll k p => (mgrStep (serve site) m (.poll k p)).map (deliver p.calloc)

/-- The calls of `exlib` for messages, of which the first has the number `n`. -/
def exlibRequests (site : Site) : ℕ → List HttpMsg → List Request
  | _, [] => []
  | n, ev :: evs => (exlibRequest site n ev).toList ++ exlibRequests site (n + 1) evs

section Serve

variable {site : Site} {srv : Server} {g : Hashmap} {c : Cache} {n : ℕ}

/-- One message: the handler goes on, and `exlib` has been called if the message leads to it. -/
theorem serve_spec {s : Handler} (hs : s.srv = some srv) (h : Represents srv g c) (ev : HttpMsg) :
    ∃ srv' c' outs, (serve site s ev).1.srv = some srv' ∧
      (serve site s ev).1.served = s.served + 1 ∧
      feed (exlib site.malloc) srv (exlibRequest site s.served ev).toList = some (srv', outs) ∧
      Represents srv' g c' := by
  unfold serve exlibRequest
  simp only
  cases cb (site.access s.served) (site.allocs s.served) ev.hm with
  | dropped => exact ⟨srv, c, [], hs, rfl, rfl, h⟩
  | ealloc => exact ⟨srv, c, [], hs, rfl, rfl, h⟩
  | serveDir => exact ⟨srv, c, [], hs, rfl, rfl, h⟩
  | exlib path =>
    obtain ⟨srv', he, hR, -⟩ :=
      exlib_represents site.malloc h ⟨path, ev.hm.query, site.env s.served⟩
    simp only [hs, Option.bind_some, he, Option.toList_some, feed, Option.map_some]
    exact ⟨srv', _, _, rfl, trivial, rfl, hR⟩

/-- Any number of messages. -/
theorem legal_serve {s s' : Handler} {log : List (HttpMsg × Response)}
    (hlog : Legal (serve site) s log s') (hs : s.srv = some srv) (h : Represents srv g c) :
    ∃ srv' c' outs, s'.srv = some srv' ∧ s'.served = s.served + log.length ∧
      feed (exlib site.malloc) srv (exlibRequests site s.served (log.map Prod.fst)) =
        some (srv', outs) ∧ Represents srv' g c' := by
  induction hlog generalizing srv c with
  | nil => exact ⟨srv, c, [], hs, rfl, rfl, h⟩
  | @cons s s' ev log hlog ih =>
    obtain ⟨srv₁, c₁, outs₁, h₁, hserved₁, hf₁, hR₁⟩ := @serve_spec site srv g c s hs h ev
    obtain ⟨srv', c', outs, h', hserved, hf, hR⟩ := ih h₁ hR₁
    rw [hserved₁] at hserved hf
    refine ⟨srv', c', outs₁ ++ outs, h', ?_, ?_, hR⟩
    · rw [hserved, List.length_cons, Nat.add_assoc, Nat.add_comm 1]
    · exact feed_append hf₁ hf

/-! ### Modules that keep to their connection -/

section Own

variable (hown : site.Own)
include hown

theorem Event.others_of_own (n : ℕ) (ev : HttpMsg) (e : Event) : e.others site n ev = [] := by
  cases e with
  | call sym =>
    refine List.filterMap_eq_nil_iff.mpr fun x hx => ?_
    rw [hown n sym ev x hx, Option.map_none]
  | _ => rfl

theorem outbox_serve (s : Handler) (ev : HttpMsg) :
    (serve site s ev).1.outbox = s.outbox := by
  have hnone : ∀ evs : List Event, evs.flatMap (Event.others site s.served ev) = [] :=
    fun evs => List.flatMap_eq_nil_iff.mpr fun e _ => e.others_of_own hown s.served ev
  unfold serve
  simp only
  split
  · rfl
  · rfl
  · rfl
  · split
    · rfl
    · simp only [hnone, List.append_nil]

theorem outbox_legal {s s' : Handler} {log : List (HttpMsg × Response)}
    (hlog : Legal (serve site) s log s') : s'.outbox = s.outbox := by
  induction hlog with
  | nil => rfl
  | cons hlog ih => exact ih.trans (outbox_serve hown _ _)

theorem serverStep_of_mgrStep {m m' : Mgr Handler} {e : MgrEvent}
    (h : mgrStep (serve site) m e = some m') (hbox : m.usr.outbox = []) :
    serverStep site m e = some m' ∧ m'.usr.outbox = [] := by
  obtain ⟨calls, hlegal⟩ := legal_mgrStep h
  have hbox' : m'.usr.outbox = [] := (outbox_legal hown hlegal).trans hbox
  refine ⟨?_, hbox'⟩
  cases e with
  | accept net => exact h
  | poll k p =>
    have hsame : deliver p.calloc m' = m' := by
      obtain ⟨conns, srv, served, outbox⟩ := m'
      obtain rfl : outbox = [] := hbox'
      rfl
    show (mgrStep (serve site) m (.poll k p)).map (deliver p.calloc) = some m'
    rw [h, Option.map_some, hsame]

theorem exec_of_mgrStep {m m' : Mgr Handler} {es : List MgrEvent}
    (h : exec (mgrStep (serve site)) m es = some m') (hbox : m.usr.outbox = []) :
    exec (serverStep site) m es = some m' ∧ m'.usr.outbox = [] ∧
      mgrBatches (serve site) (serverStep site) m es =
        mgrBatches (serve site) (mgrStep (serve site)) m es := by
  induction es generalizing m with
  | nil =>
    cases h
    exact ⟨rfl, hbox, rfl⟩
  | cons e es ih =>
    obtain ⟨m₁, h₁, h⟩ := Option.bind_eq_some_iff.mp h
    obtain ⟨hstep, hbox₁⟩ := serverStep_of_mgrStep hown h₁ hbox
    obtain ⟨hexec, hbox', hbatches⟩ := ih h hbox₁
    refine ⟨by rwa [exec, hstep], hbox', ?_⟩
    unfold mgrBatches at hbatches ⊢
    rw [seen, seen, hstep, h₁]
    exact congrArg (mgrBatch (serve site) m e ++ ·) hbatches

end Own

end Serve

/-- A site with one module for every path. -/
def tplSite : Site where
  malloc := .bump
  access _ _ := true
  allocs _ := ⟨true, true⟩
  env _ := ⟨fun _ => 0, true, 4096, some 4352, true, some 0⟩
  dlerror _ := []
  entry n _ _ := [⟨none, ascii "tpl"⟩, ⟨none, ascii (toString n)⟩]
  serveDir _ _ := ⟨[], none, false⟩

/-- Two clients, of which the second is served first. -/
def tplClients : List MgrEvent :=
  [.accept (ascii "GET /tpl HTTP/1.1\r\n\r\n"),
    .accept (ascii "GET /tpl?flush=true HTTP/1.1\r\n\r\n"),
    .poll 1 ⟨some (.bytes 50), none, fun _ => true⟩,
    .poll 0 ⟨some (.bytes 50), none, fun _ => true⟩]

end Csrv.App
