import Csrv.Mongoose.Replay

/-!
# Many connections

`mg_mgr_poll` goes through the connections one by one, and the handler works on the same state
for all of them. An `MgrEvent` is what happens to one connection during an iteration, or a new
connection; an iteration is a number of such events.

1. `Answered`: a connection has got the output for its own calls, in the batches that `http_cb` has
   taken (`mgrBatches`).
2. With the handler that replays, a connection is a component that shares the real one with the
   others (`Moves`), and its path is a `Session` (`session_of_path`).
3. `connections_isolated`: whatever the order of events, the handler is called as if one message
   came after the other, and each connection gets the responses to its own messages.
-/

namespace Csrv.Mongoose

open Incremental (Drains)
open Shared (Legal Path Recorded part)

variable {τ : Type*}

/-! ## The manager -/

/-- `struct mg_mgr`, with the state of the handler. -/
structure Mgr (τ : Type*) where
  conns : List (World Unit)
  usr : τ

/-- `accept_conn`, of a peer that is going to send `net`, or the part of an iteration of
`mg_mgr_poll` that belongs to connection `k`. -/
inductive MgrEvent
  | accept (net : Bytes)
  | poll (k : ℕ) (p : Poll)

def mgrStep (fn : τ → HttpMsg → τ × Response) (m : Mgr τ) : MgrEvent → Option (Mgr τ)
  | .accept net => some { m with conns := m.conns ++ [accepted () net] }
  | .poll k p =>
    match m.conns[k]? with
    | none => some m
    | some w =>
      (mgMgrPoll fn (w.withUsr m.usr) p).map fun w' => ⟨m.conns.set k (w'.withUsr ()), w'.conn.usr⟩

/-- What `http_cb` takes in an iteration, with the number of the connection. -/
def mgrBatch (fn : τ → HttpMsg → τ × Response) (m : Mgr τ) : MgrEvent → List (ℕ × List HttpMsg)
  | .accept _ => []
  | .poll k p => ((m.conns[k]?).map fun w => (k, batchOf fn (w.withUsr m.usr) p)).toList

/-- What it takes during a run of the manager. -/
def mgrBatches (fn : τ → HttpMsg → τ × Response) (step : Mgr τ → MgrEvent → Option (Mgr τ))
    (m : Mgr τ) (es : List MgrEvent) : List (ℕ × List HttpMsg) :=
  (Run.seen step (mgrBatch fn) m es).flatten

/-! ## What a connection gets -/

/-- The file that is left to `static_cb` by calls that one run of `http_cb` makes. -/
def lastFile : List (HttpMsg × Response) → Option Bytes
  | [] => none
  | call :: calls => (lastFile calls).or call.2.file

/-- The output for such calls. -/
def texts (calls : List (HttpMsg × Response)) : List Bytes :=
  calls.flatMap (·.2.sends) ++ (lastFile calls).toList

/-- How a connection stands that has made `calls` of the handler, and whose `http_cb` has taken the
batches `bs`: the messages are those of what it has read of its stream, and what has been written,
what waits in the send buffer and what is left of a file are the output for its own calls, batch by
batch. When it closes, what is left in its buffer may be one message more. -/
def Answered (net : Bytes) (bs : List (List HttpMsg)) (calls : List (HttpMsg × Response))
    (w : World Unit) : Prop :=
  ∃ (taken waiting rest : Bytes) (e : Option Stop) (groups : List (List (HttpMsg × Response)))
      (last : List (HttpMsg × Response)), net = taken ++ (waiting ++ w.net) ∧
    Drains request taken bs.flatten rest e ∧ groups.map (·.map Prod.fst) = bs ∧
    calls = groups.flatten ++ last ∧
    if w.isOpen then
      last = [] ∧
        w.wire ++ (w.conn.send.buf ++ w.conn.pfn.getD []) = (groups.flatMap texts).flatten
    else
      last.map Prod.fst <+: (closingMsg (rest ++ waiting)).toList ∧
        w.wire <+: (groups.flatMap texts).flatten

/-- Calls in batches of the given sizes. -/
def regroup : List (List HttpMsg) → List (HttpMsg × Response) → List (List (HttpMsg × Response))
  | [], _ => []
  | b :: bs, calls => calls.take b.length :: regroup bs (calls.drop b.length)

section Answered

variable {calls : List (HttpMsg × Response)}

theorem batch_replay {b : List HttpMsg} (hb : b.length ≤ calls.length) (seen : List HttpMsg) :
    batch replay (calls.map Prod.snd, seen) b =
      (((calls.drop b.length).map Prod.snd, seen ++ b), (calls.take b.length).flatMap (·.2.sends),
        lastFile (calls.take b.length)) := by
  induction b generalizing calls seen with
  | nil => simp only [batch, List.length_nil, List.drop_zero, List.append_nil, List.take_zero,
      List.flatMap_nil, lastFile]
  | cons ev b ih =>
    cases calls with
    | nil => exact absurd hb (Nat.not_succ_le_zero _)
    | cons call calls =>
      have h := ih (Nat.le_of_succ_le_succ hb) (seen ++ [ev])
      unfold batch
      simp only [replay, List.map_cons, List.tail_cons, List.headD_cons, h, List.length_cons,
        List.drop_succ_cons, List.take_succ_cons, List.flatMap_cons, lastFile, List.append_assoc,
        List.singleton_append]

theorem seen_batch_replay (b : List HttpMsg) (s : List Response × List HttpMsg) :
    (batch replay s b).1.2 = s.2 ++ b := by
  induction b generalizing s with
  | nil => exact (List.append_nil _).symm
  | cons ev b ih =>
    unfold batch
    simp only [ih, replay, List.append_assoc, List.singleton_append]

theorem seen_pieces_replay (bs : List (List HttpMsg)) (s : List Response × List HttpMsg) :
    (pieces replay s bs).1.2 = s.2 ++ bs.flatten := by
  induction bs generalizing s with
  | nil => exact (List.append_nil _).symm
  | cons b bs ih =>
    unfold pieces
    simp only [ih, seen_batch_replay, List.flatten_cons, List.append_assoc]

theorem pieces_replay {bs : List (List HttpMsg)} (h : bs.flatten.length ≤ calls.length)
    (seen : List HttpMsg) :
    (pieces replay (calls.map Prod.snd, seen) bs).2 = (regroup bs calls).flatMap texts := by
  induction bs generalizing calls seen with
  | nil => rfl
  | cons b bs ih =>
    rw [List.flatten_cons, List.length_append] at h
    unfold pieces
    simp only [batch_replay (by omega : b.length ≤ calls.length)]
    rw [ih (by rw [List.length_drop]; omega), regroup, List.flatMap_cons]
    rfl

theorem flatten_regroup (bs : List (List HttpMsg)) :
    (regroup bs calls).flatten = calls.take bs.flatten.length := by
  induction bs generalizing calls with
  | nil => rfl
  | cons b bs ih =>
    rw [regroup, List.flatten_cons, ih, List.flatten_cons, List.length_append, List.take_add]

/-- The messages of the calls in batches. -/
theorem messages_regroup {bs : List (List HttpMsg)} {tail : List HttpMsg}
    (h : calls.map Prod.fst = bs.flatten ++ tail) :
    (regroup bs calls).map (·.map Prod.fst) = bs := by
  induction bs generalizing calls with
  | nil => rfl
  | cons b bs ih =>
    rw [List.flatten_cons, List.append_assoc] at h
    rw [regroup, List.map_cons, List.map_take, h, List.take_left]
    refine congrArg (b :: ·) (ih ?_)
    rw [List.map_drop, h, List.drop_left]

/-- There are enough calls for the batches, and what is left of them. -/
theorem rest_regroup {bs : List (List HttpMsg)} {tail : List HttpMsg}
    (h : calls.map Prod.fst = bs.flatten ++ tail) :
    bs.flatten.length ≤ calls.length ∧ (calls.drop bs.flatten.length).map Prod.fst = tail := by
  have hlen := congrArg List.length h
  rw [List.length_map, List.length_append] at hlen
  refine ⟨by omega, ?_⟩
  rw [List.map_drop, h, List.drop_left]

theorem answered_of_session {net : Bytes} {w : World Unit} {bs : List (List HttpMsg)}
    (h : Session replay (calls.map Prod.snd, []) net True bs
      (w.withUsr ([], calls.map Prod.fst))) :
    Answered net bs calls w := by
  have hsplit : calls = (regroup bs calls).flatten ++ calls.drop bs.flatten.length := by
    rw [flatten_regroup, List.take_append_drop]
  cases h with
  | alive g hbs hopen hclosing hg =>
    subst hbs
    have husr := congrArg Prod.snd hg.usr
    rw [seen_pieces_replay] at husr
    have hcalls := husr.trans (List.append_nil _).symm
    obtain ⟨hle, hlast⟩ := rest_regroup hcalls
    have hsent := hg.sent
    rw [hg.accepted.full trivial, pieces_replay hle] at hsent
    refine ⟨g.taken, g.waiting, g.rest, g.stop, _, _, hg.stream, hg.drains,
      messages_regroup hcalls, hsplit, ?_⟩
    rw [if_pos (show w.isOpen = true from hopen)]
    exact ⟨List.map_eq_nil_iff.mp hlast, hsent⟩
  | closed g hbs hopen hg =>
    subst hbs
    obtain ⟨tail, htail, hcalls⟩ : ∃ tail, tail <+: (closingMsg (g.rest ++ g.waiting)).toList ∧
        calls.map Prod.fst = g.batches.flatten ++ tail := by
      rcases hg.usr with husr | husr
      · have h := congrArg Prod.snd husr
        rw [seen_pieces_replay] at h
        exact ⟨[], List.nil_prefix, h.trans (List.append_nil _).symm⟩
      · have h := congrArg Prod.snd husr
        rw [seen_batch_replay, seen_pieces_replay] at h
        exact ⟨_, List.prefix_refl _, h⟩
    obtain ⟨hle, hlast⟩ := rest_regroup hcalls
    have hsent := hg.sent
    rw [hg.accepted.full trivial, pieces_replay hle] at hsent
    refine ⟨g.taken, g.waiting, g.rest, g.stop, _, _, hg.stream, hg.drains,
      messages_regroup hcalls, hsplit, ?_⟩
    rw [if_neg (by rw [show w.isOpen = false from hopen]; exact Bool.false_ne_true), hlast]
    exact ⟨htail, hsent⟩

end Answered

/-! ## All connections -/

/-- A connection with the batches that `http_cb` has taken. -/
structure Tracked where
  world : World Unit
  batches : List (List HttpMsg)

/-- A step of a connection, with the calls it makes. -/
def Moves (x : Tracked) (calls : List (HttpMsg × Response)) (x' : Tracked) : Prop :=
  ∃ p : Poll, Allocates p.calloc ∧
    x'.batches = x.batches ++ [batchOf replay (x.world.withUsr ([], [])) p] ∧
    ∀ rs seen, mgMgrPoll replay (x.world.withUsr (calls.map Prod.snd ++ rs, seen)) p =
      some (x'.world.withUsr (rs, seen ++ calls.map Prod.fst))

theorem exec_of_path {w₀ : World Unit} {x : Tracked} {calls : List (HttpMsg × Response)}
    (h : Path Moves ⟨w₀, []⟩ calls x) : ∃ ps, (∀ p ∈ ps, Allocates p.calloc) ∧ ∀ rs seen,
      Run.exec (mgMgrPoll replay) (w₀.withUsr (calls.map Prod.snd ++ rs, seen)) ps =
          some (x.world.withUsr (rs, seen ++ calls.map Prod.fst)) ∧
        batchesOf replay (w₀.withUsr (calls.map Prod.snd ++ rs, seen)) ps = x.batches := by
  induction h with
  | refl =>
    refine ⟨[], fun p hp => absurd hp List.not_mem_nil, fun rs seen => ⟨?_, rfl⟩⟩
    rw [List.map_nil, List.map_nil, List.append_nil]
    rfl
  | @tail x x' log log' h hmove ih =>
    obtain ⟨ps, hps, hexec⟩ := ih
    obtain ⟨p, hp, hbatch, hpoll⟩ := hmove
    refine ⟨ps ++ [p], ?_, fun rs seen => ?_⟩
    · intro q hq
      rcases List.mem_append.mp hq with hq | hq
      · exact hps q hq
      · exact List.mem_singleton.mp hq ▸ hp
    · obtain ⟨hrun, hseen⟩ := hexec (log'.map Prod.snd ++ rs) seen
      rw [List.map_append, List.append_assoc]
      constructor
      · rw [Run.exec_append, hrun, List.map_append, ← List.append_assoc]
        simp only [Option.bind_some, Run.exec, hpoll]
      · have hlast := batchOf_withUsr replay replay (x.world.withUsr ([], []))
          (log'.map Prod.snd ++ rs, seen ++ log.map Prod.fst) p
        unfold batchesOf at hseen ⊢
        rw [Run.seen_concat hrun, hseen, hbatch, ← hlast]
        rfl

theorem session_of_path {net : Bytes} (hnet : Plain net) {x : Tracked}
    {calls : List (HttpMsg × Response)} (h : Path Moves ⟨accepted () net, []⟩ calls x) :
    Session replay (calls.map Prod.snd, []) net True x.batches
      (x.world.withUsr ([], calls.map Prod.fst)) := by
  obtain ⟨ps, hps, hexec⟩ := exec_of_path h
  obtain ⟨w', hw', hs⟩ :=
    @session_run _ replay net True hnet (calls.map Prod.snd, []) ps fun _ => hps
  obtain ⟨hsame, hbatches⟩ := hexec [] []
  rw [List.append_nil] at hsame hbatches
  cases hw'.symm.trans hsame
  exact hbatches ▸ hs

section Manager

variable {fn : τ → HttpMsg → τ × Response} {u : τ}

/-- The handler's state changes by calls only. -/
theorem legal_mgrStep {m m' : Mgr τ} {e : MgrEvent} (h : mgrStep fn m e = some m') :
    ∃ calls, Legal fn m.usr calls m'.usr := by
  cases e with
  | accept net =>
    cases h
    exact ⟨[], .nil⟩
  | poll k p =>
    unfold mgrStep at h
    simp only at h
    split at h
    · cases h
      exact ⟨[], .nil⟩
    · obtain ⟨w', hw', rfl⟩ := Option.map_eq_some_iff.mp h
      obtain ⟨calls, hlegal, -⟩ := mgMgrPoll_replay hw'
      exact ⟨calls, hlegal⟩

/-- The streams of the connections that are accepted. -/
def accepts (es : List MgrEvent) : List Bytes :=
  es.filterMap fun
    | .accept net => some net
    | .poll _ _ => none

/-- An event of a stream without a chunked head, or without a failing allocation. -/
def MgrEvent.Good : MgrEvent → Prop
  | .accept net => Plain net
  | .poll _ p => Allocates p.calloc

/-- The connections of a manager, with the streams they read and what `http_cb` has taken. -/
structure Serving (fn : τ → HttpMsg → τ × Response) (u : τ) (nets : List Bytes)
    (log : List (ℕ × HttpMsg × Response)) (taken : List (ℕ × List HttpMsg)) (m : Mgr τ)
    (xs : List Tracked) : Prop where
  plain : ∀ net ∈ nets, Plain net
  conns : m.conns = xs.map Tracked.world
  bound : ∀ b ∈ taken, b.1 < xs.length
  batches : Threads.All (fun k x => x.batches = part k taken) xs
  recorded : Recorded fn Moves u (nets.map fun net => ⟨accepted () net, []⟩) log xs m.usr

theorem serving_nil (fn : τ → HttpMsg → τ × Response) (u : τ) :
    Serving fn u [] [] [] ⟨[], u⟩ [] where
  plain _ h := absurd h List.not_mem_nil
  conns := rfl
  bound _ h := absurd h List.not_mem_nil
  batches := Threads.all_nil
  recorded := Shared.recorded_nil

section Serving

variable {nets : List Bytes} {log : List (ℕ × HttpMsg × Response)}
  {taken : List (ℕ × List HttpMsg)} {m : Mgr τ} {xs : List Tracked}

theorem Serving.session (h : Serving fn u nets log taken m xs) {k : ℕ} {net : Bytes}
    {w : World Unit} (hnet : nets[k]? = some net) (hw : m.conns[k]? = some w) :
    Session replay ((part k log).map Prod.snd, []) net True (part k taken)
      (w.withUsr ([], (part k log).map Prod.fst)) := by
  rw [h.conns, List.getElem?_map] at hw
  obtain ⟨x, hx, rfl⟩ := Option.map_eq_some_iff.mp hw
  rw [← h.batches k x hx]
  refine session_of_path (h.plain net (List.mem_of_getElem? hnet)) (h.recorded.path k x hx _ ?_)
  rw [List.getElem?_map, hnet]
  rfl

theorem Serving.accept (h : Serving fn u nets log taken m xs) {net : Bytes} (hnet : Plain net) :
    Serving fn u (nets ++ [net]) log taken { m with conns := m.conns ++ [accepted () net] }
      (xs ++ [⟨accepted () net, []⟩]) where
  plain net' hnet' := by
    rcases List.mem_append.mp hnet' with hnet' | hnet'
    · exact h.plain net' hnet'
    · exact List.mem_singleton.mp hnet' ▸ hnet
  conns := by
    rw [List.map_append, ← h.conns]
    rfl
  bound b hb := by
    rw [List.length_append]
    exact Nat.lt_add_right _ (h.bound b hb)
  batches := Threads.All.concat h.batches
    (Shared.part_eq_nil fun b hb => Nat.ne_of_lt (h.bound b hb)).symm
  recorded := by
    rw [List.map_append]
    exact h.recorded.concat ⟨accepted () net, []⟩

theorem Serving.poll (h : Serving fn u nets log taken m xs) {k : ℕ} {p : Poll}
    (hp : Allocates p.calloc) {w : World Unit} (hw : m.conns[k]? = some w) {w' : World τ}
    (hpoll : mgMgrPoll fn (w.withUsr m.usr) p = some w') :
    ∃ log' xs', Serving fn u nets log' (taken ++ [(k, batchOf fn (w.withUsr m.usr) p)])
      ⟨m.conns.set k (w'.withUsr ()), w'.conn.usr⟩ xs' := by
  obtain ⟨calls, hlegal, heq⟩ := mgMgrPoll_replay hpoll
  rw [h.conns, List.getElem?_map] at hw
  obtain ⟨x, hx, rfl⟩ := Option.map_eq_some_iff.mp hw
  have hbatch : batchOf fn (x.world.withUsr m.usr) p =
      batchOf replay (x.world.withUsr ([], [])) p :=
    batchOf_withUsr replay fn (x.world.withUsr ([], [])) m.usr p
  refine ⟨log ++ calls.map (k, ·), xs.set k ⟨w'.withUsr (),
    x.batches ++ [batchOf fn (x.world.withUsr m.usr) p]⟩, h.plain, ?_, ?_, ?_, ?_⟩
  · rw [List.map_set, ← h.conns]
  · intro b hb
    rw [List.length_set]
    rcases List.mem_append.mp hb with hb | hb
    · exact h.bound b hb
    · rw [List.mem_singleton.mp hb]
      exact (List.getElem?_eq_some_iff.mp hx).1
  · intro j y hy
    rw [Shared.part_append]
    obtain ⟨rfl, rfl⟩ | ⟨hj, hy⟩ := Threads.getElem?_set_some hy
    · rw [h.batches j x hx]
      exact congrArg (part j taken ++ ·) (@Shared.part_same _ j [_]).symm
    · have hother : part j [(k, batchOf fn (x.world.withUsr m.usr) p)] = [] := by
        refine Shared.part_eq_nil fun b hb => ?_
        rw [List.mem_singleton.mp hb]
        exact fun heq => hj heq.symm
      rw [hother, List.append_nil]
      exact h.batches j y hy
  · refine h.recorded.step hx ⟨p, hp, ?_, heq⟩ hlegal
    rw [hbatch]

theorem Serving.step (h : Serving fn u nets log taken m xs) {e : MgrEvent} (he : e.Good) :
    ∃ m' log' xs', mgrStep fn m e = some m' ∧
      Serving fn u (nets ++ accepts [e]) log' (taken ++ mgrBatch fn m e) m' xs' := by
  cases e with
  | accept net =>
    refine ⟨_, log, xs ++ [⟨accepted () net, []⟩], rfl, ?_⟩
    rw [show mgrBatch fn m (.accept net) = [] from rfl, List.append_nil]
    exact h.accept he
  | poll k p =>
    rw [show accepts [MgrEvent.poll k p] = [] from rfl, List.append_nil]
    simp only [mgrStep, mgrBatch]
    cases hw : m.conns[k]? with
    | none =>
      refine ⟨m, log, xs, rfl, ?_⟩
      rwa [Option.map_none, Option.toList_none, List.append_nil]
    | some w =>
      obtain ⟨net, hnet⟩ : ∃ net, nets[k]? = some net := by
        have hk := (List.getElem?_eq_some_iff.mp hw).1
        rw [h.conns, List.length_map, h.recorded.length, List.length_map] at hk
        exact ⟨_, List.getElem?_eq_getElem hk⟩
      -- the loop ends with the handler that replays, so it ends
      obtain ⟨v, hv, -⟩ := session_mgMgrPoll (h.plain net (List.mem_of_getElem? hnet)) p
        (fun _ => he) (h.session hnet hw)
      have hsome : (mgMgrPoll fn (w.withUsr m.usr) p).isSome = true := by
        rw [← @isSome_mgMgrPoll _ _ fn replay p (w.withUsr m.usr) ([], (part k log).map Prod.fst)]
        exact Option.isSome_of_eq_some hv
      obtain ⟨w', hw'⟩ := Option.isSome_iff_exists.mp hsome
      obtain ⟨log', xs', h'⟩ := h.poll he hw hw'
      exact ⟨_, log', xs', congrArg (Option.map _) hw', h'⟩

theorem exec_serving (h : Serving fn u nets log taken m xs) {es : List MgrEvent}
    (hes : ∀ e ∈ es, e.Good) :
    ∃ m' log' xs', Run.exec (mgrStep fn) m es = some m' ∧
      Serving fn u (nets ++ accepts es) log' (taken ++ mgrBatches fn (mgrStep fn) m es) m' xs' := by
  induction es generalizing nets log taken m xs with
  | nil =>
    refine ⟨m, log, xs, rfl, ?_⟩
    rw [show accepts [] = [] from rfl, List.append_nil]
    exact (List.append_nil taken).symm ▸ h
  | cons e es ih =>
    obtain ⟨m₁, log₁, xs₁, hm₁, h₁⟩ := h.step (hes e List.mem_cons_self)
    obtain ⟨m', log', xs', hm', h'⟩ := ih h₁ fun e' he' => hes e' (List.mem_cons_of_mem _ he')
    refine ⟨m', log', xs', ?_, ?_⟩
    · rw [Run.exec, hm₁]
      exact hm'
    · have hbatches : mgrBatches fn (mgrStep fn) m (e :: es) =
          mgrBatch fn m e ++ mgrBatches fn (mgrStep fn) m₁ es := by
        unfold mgrBatches
        rw [Run.seen, hm₁]
        rfl
      have haccepts : accepts (e :: es) = accepts [e] ++ accepts es := by
        unfold accepts
        rw [← List.filterMap_append, List.singleton_append]
      rw [List.append_assoc, List.append_assoc] at h'
      rwa [hbatches, haccepts]

end Serving

/-- **Connections do not mix.** The streams end somewhere and not in front of a chunked head, and every
allocation succeeds. Then whatever the order of events, the manager goes on; the handler has been
called as if the messages of all connections had come one after the other, and each connection has
got the responses to its own messages, in the order of its stream and in the batches that `http_cb`
has taken of it. -/
theorem connections_isolated (fn : τ → HttpMsg → τ × Response) (u : τ) {es : List MgrEvent}
    (hes : ∀ e ∈ es, e.Good) :
    ∃ m log, Run.exec (mgrStep fn) ⟨[], u⟩ es = some m ∧
      Legal fn u (log.map Prod.snd) m.usr ∧ (∀ call ∈ log, call.1 < m.conns.length) ∧
      m.conns.length = (accepts es).length ∧
      ∀ k net w, (accepts es)[k]? = some net → m.conns[k]? = some w →
        Answered net (part k (mgrBatches fn (mgrStep fn) ⟨[], u⟩ es)) (part k log) w := by
  obtain ⟨m, log, xs, hm, h⟩ := exec_serving (serving_nil fn u) hes
  have hlen := h.recorded.length
  rw [List.length_map, List.nil_append] at hlen
  have hconns : m.conns.length = xs.length := by rw [h.conns, List.length_map]
  refine ⟨m, log, hm, h.recorded.legal, ?_, hconns.trans hlen, ?_⟩
  · intro call hcall
    have := h.recorded.bound call hcall
    rwa [← h.recorded.length, ← hconns] at this
  · intro k net w hnet hw
    exact answered_of_session (h.session hnet hw)

/-- A handler that answers with the path. -/
def echo (n : ℕ) (ev : HttpMsg) : ℕ × Response := (n + 1, ⟨[ev.hm.uri], none, false⟩)

/-- A second connection comes while the first request is being read. -/
def twoPeers : List MgrEvent :=
  [.accept (ascii "GET /a HTTP/1.1\r\n\r\n"), .poll 0 ⟨some (.bytes 9), none, fun _ => true⟩,
    .accept (ascii "GET /b HTTP/1.1\r\n\r\n"), .poll 1 ⟨some (.bytes 50), none, fun _ => true⟩,
    .poll 0 ⟨some (.bytes 50), none, fun _ => true⟩]

theorem connections_isolated_two :
    ∃ m log, Run.exec (mgrStep echo) ⟨[], 0⟩ twoPeers = some m ∧
      Legal echo 0 (log.map Prod.snd) m.usr ∧ (∀ call ∈ log, call.1 < m.conns.length) ∧
      m.conns.length = 2 ∧
      ∀ k net w, [ascii "GET /a HTTP/1.1\r\n\r\n", ascii "GET /b HTTP/1.1\r\n\r\n"][k]? = some net →
        m.conns[k]? = some w →
        Answered net (part k (mgrBatches echo (mgrStep echo) ⟨[], 0⟩ twoPeers)) (part k log) w := by
  refine connections_isolated echo 0 fun e he => ?_
  unfold twoPeers at he
  simp only [List.mem_cons, List.not_mem_nil, or_false] at he
  rcases he with rfl | rfl | rfl | rfl | rfl
  · exact plain_of_drain 2 (by decide +kernel)
  · exact fun _ => rfl
  · exact plain_of_drain 2 (by decide +kernel)
  · exact fun _ => rfl
  · exact fun _ => rfl

end Manager

end Csrv.Mongoose
