import Csrv.Mongoose.Connection

/-!
# What a connection answers

The peer sends one stream of bytes, and `select` and the sockets cut it up as they like. The
messages that `http_cb` finds are those of the stream, and what is written follows them.

1. `batch` and `pieces` are the texts and files that the handler produces, batch by batch: what
   one run of `http_cb` takes from the buffer. The file of a batch comes after its texts. The
   batches of a run are those that a handler sees which writes its messages down (`batchesOf`).
2. `Alive` relates a connection to the part of the stream it has taken. Each step of the event
   loop keeps it (`alive_pollEvent`, `alive_readConn`, `alive_writeConn`).
3. `session_run`: every schedule leads to a `Session`.
-/

namespace Csrv.Mongoose

open Incremental (Drains)

variable {τ : Type*} {fn : τ → HttpMsg → τ × Response} {calloc : ℕ → Bool} {c : Conn τ} {u : τ}

/-! ## What the handler produces -/

/-- The state, the texts and the file after messages taken in one run of `http_cb`. -/
def batch (fn : τ → HttpMsg → τ × Response) : τ → List HttpMsg → τ × List Bytes × Option Bytes
  | u, [] => (u, [], none)
  | u, ev :: evs =>
    let r := fn u ev
    let b := batch fn r.1 evs
    (b.1, r.2.sends ++ b.2.1, b.2.2.or r.2.file)

/-- The state and everything produced after a number of batches. -/
def pieces (fn : τ → HttpMsg → τ × Response) : τ → List (List HttpMsg) → τ × List Bytes
  | u, [] => (u, [])
  | u, b :: bs =>
    let r := batch fn u b
    let ps := pieces fn r.1 bs
    (ps.1, r.2.1 ++ r.2.2.toList ++ ps.2)

theorem batch_append (evs evs' : List HttpMsg) :
    batch fn u (evs ++ evs') =
      ((batch fn (batch fn u evs).1 evs').1,
        (batch fn u evs).2.1 ++ (batch fn (batch fn u evs).1 evs').2.1,
        (batch fn (batch fn u evs).1 evs').2.2.or (batch fn u evs).2.2) := by
  induction evs generalizing u with
  | nil => simp only [List.nil_append, batch, Option.or_none]
  | cons ev evs ih => simp only [List.cons_append, batch, ih, List.append_assoc, Option.or_assoc]

theorem pieces_concat (bs : List (List HttpMsg)) (b : List HttpMsg) :
    pieces fn u (bs ++ [b]) =
      ((batch fn (pieces fn u bs).1 b).1,
        (pieces fn u bs).2 ++ ((batch fn (pieces fn u bs).1 b).2.1 ++
          (batch fn (pieces fn u bs).1 b).2.2.toList)) := by
  induction bs generalizing u with
  | nil => simp only [List.nil_append, pieces, List.append_nil]
  | cons a bs ih => simp only [List.cons_append, pieces, ih, List.append_assoc]

theorem pieces_concat_nil (bs : List (List HttpMsg)) :
    pieces fn u (bs ++ [[]]) = pieces fn u bs := by
  rw [pieces_concat]
  simp only [batch, Option.toList_none, List.append_nil]

/-- A batch without a message. -/
theorem flatten_concat_nil (bs : List (List HttpMsg)) : (bs ++ [[]]).flatten = bs.flatten := by
  rw [List.flatten_append, List.flatten_singleton, List.append_nil]

/-! ## The batches of a run -/

/-- The handler, which also writes down the messages it is called for. -/
def noting (fn : τ → HttpMsg → τ × Response) (s : τ × List HttpMsg) (ev : HttpMsg) :
    (τ × List HttpMsg) × Response :=
  (((fn s.1 ev).1, s.2 ++ [ev]), (fn s.1 ev).2)

/-- The messages that `http_cb` takes during an iteration, before the connection may be closed. -/
def batchOf (fn : τ → HttpMsg → τ × Response) (w : World τ) (p : Poll) : List HttpMsg :=
  if w.isOpen then
    ((pollSockets (noting fn) p (0 < w.conn.send.buf.length)
      (World.withUsr { w with conn := pollEvent p.calloc w.conn } (w.conn.usr, []))).map
        fun w' => w'.conn.usr.2).getD []
  else []

/-- What `http_cb` takes in the iterations of a run. -/
def batchesOf (fn : τ → HttpMsg → τ × Response) (w : World τ) (ps : List Poll) :
    List (List HttpMsg) := Run.seen (mgMgrPoll fn) (batchOf fn) w ps

theorem batch_noting (evs : List HttpMsg) (seen : List HttpMsg) :
    (batch (noting fn) (u, seen) evs).1 = ((batch fn u evs).1, seen ++ evs) := by
  induction evs generalizing u seen with
  | nil => rw [batch, batch, List.append_nil]
  | cons ev evs ih => simp only [batch, noting, ih, List.append_assoc, List.singleton_append]

/-! ## Sending -/

/-- Texts that have been accepted: all of them if the allocations succeed. -/
structure Accepted (full : Prop) (acc sends : List Bytes) : Prop where
  sublist : acc.Sublist sends
  full : full → acc = sends

section Accepted

variable {full : Prop} {a b s t : List Bytes}

theorem Accepted.refl (full : Prop) (s : List Bytes) : Accepted full s s :=
  ⟨List.Sublist.refl s, fun _ => rfl⟩

theorem Accepted.append (h : Accepted full a s) (h' : Accepted full b t) :
    Accepted full (a ++ b) (s ++ t) :=
  ⟨h.sublist.append h'.sublist, fun hf => by rw [h.full hf, h'.full hf]⟩

theorem Accepted.mono {full' : Prop} (h : Accepted full a s) (hf : full' → full) :
    Accepted full' a s := ⟨h.sublist, fun h' => h.full (hf h')⟩

end Accepted

/-- All allocations succeed. -/
def Allocates (calloc : ℕ → Bool) : Prop := ∀ n, calloc n = true

theorem mgSend_send (calloc : ℕ → Bool) (c : Conn τ) (d : Bytes) :
    ∃ acc, Accepted (Allocates calloc) acc [d] ∧
      (mgSend calloc c d).send.buf = c.send.buf ++ acc.flatten := by
  rcases mgIobufAppend_buf calloc c.send d with h | ⟨h, n, hn⟩
  · exact ⟨[d], .refl _ _, by rw [List.flatten_singleton]; exact h⟩
  · refine ⟨[], ⟨List.nil_sublist _, fun hc => ?_⟩, h.trans (List.append_nil _).symm⟩
    rw [hc n] at hn
    cases hn

theorem foldl_mgSend (calloc : ℕ → Bool) (sends : List Bytes) (c : Conn τ) :
    ∃ acc, Accepted (Allocates calloc) acc sends ∧
      sends.foldl (mgSend calloc) c =
        { c with send := (sends.foldl (mgSend calloc) c).send } ∧
      (sends.foldl (mgSend calloc) c).send.buf = c.send.buf ++ acc.flatten := by
  induction sends generalizing c with
  | nil => exact ⟨[], .refl _ _, rfl, (List.append_nil _).symm⟩
  | cons d sends ih =>
    obtain ⟨acc₁, hacc₁, hbuf₁⟩ := mgSend_send calloc c d
    obtain ⟨acc, hacc, hframe, hbuf⟩ := ih (mgSend calloc c d)
    refine ⟨acc₁ ++ acc, hacc₁.append hacc, ?_, ?_⟩
    · exact hframe
    · rw [List.foldl_cons, hbuf, hbuf₁, List.flatten_append, List.append_assoc]

/-- No message asks for the connection to be drained. -/
def NoDrain (fn : τ → HttpMsg → τ × Response) : Prop := ∀ u ev, (fn u ev).2.isDraining = false

/-- The connection after a message: what the handler does not touch, and what it sends. -/
theorem httpMsgEvent_spec (fn : τ → HttpMsg → τ × Response) (calloc : ℕ → Bool) (c : Conn τ)
    (ev : HttpMsg) :
    ∃ acc, Accepted (Allocates calloc) acc (fn c.usr ev).2.sends ∧
      (httpMsgEvent fn calloc c ev).send.buf = c.send.buf ++ acc.flatten ∧
      (httpMsgEvent fn calloc c ev).usr = (fn c.usr ev).1 ∧
      (httpMsgEvent fn calloc c ev).pfn = (fn c.usr ev).2.file.or c.pfn ∧
      (httpMsgEvent fn calloc c ev).isClosing = c.isClosing ∧
      (NoDrain fn → (httpMsgEvent fn calloc c ev).isDraining = c.isDraining) := by
  obtain ⟨acc, hacc, hframe, hbuf⟩ :=
    foldl_mgSend calloc (fn c.usr ev).2.sends { c with usr := (fn c.usr ev).1 }
  have husr := congrArg Conn.usr hframe
  have hpfn := congrArg Conn.pfn hframe
  have hclosing := congrArg Conn.isClosing hframe
  have hdraining := congrArg Conn.isDraining hframe
  refine ⟨acc, hacc, hbuf, husr, congrArg ((fn c.usr ev).2.file.or ·) hpfn, hclosing, fun hd => ?_⟩
  show (_ || (fn c.usr ev).2.isDraining) = _
  rw [hd, Bool.or_false]
  exact hdraining

/-! ## A run of `http_cb` -/

/-- The connection `d` after `http_cb` has taken the messages `is` from the buffer of `c`. -/
structure Handled (fn : τ → HttpMsg → τ × Response) (calloc : ℕ → Bool) (c d : Conn τ)
    (is : List HttpMsg) (rest : Bytes) (closing : Bool) : Prop where
  recv : d.recv.buf = rest
  usr : d.usr = (batch fn c.usr is).1
  pfn : d.pfn = (batch fn c.usr is).2.2.or c.pfn
  isClosing : d.isClosing = (closing || c.isClosing)
  isDraining : NoDrain fn → d.isDraining = c.isDraining
  send : ∃ acc, Accepted (Allocates calloc) acc (batch fn c.usr is).2.1 ∧
    d.send.buf = c.send.buf ++ acc.flatten

theorem Handled.nil {d : Conn τ} {rest : Bytes} {closing : Bool} (hrecv : d.recv.buf = rest)
    (hsend : d.send = c.send) (hpfn : d.pfn = c.pfn) (husr : d.usr = c.usr)
    (hclosing : d.isClosing = (closing || c.isClosing)) (hdraining : d.isDraining = c.isDraining) :
    Handled fn calloc c d [] rest closing :=
  ⟨hrecv, husr, hpfn, hclosing, fun _ => hdraining, [], .refl _ _,
    by rw [hsend, List.flatten_nil, List.append_nil]⟩

/-- A message, and a run after it. -/
theorem Handled.cons {ev : HttpMsg} {recv : Iobuf} {d : Conn τ} {is : List HttpMsg} {rest : Bytes}
    {closing : Bool}
    (h : Handled fn calloc { httpMsgEvent fn calloc c ev with recv } d is rest closing) :
    Handled fn calloc c d (ev :: is) rest closing := by
  obtain ⟨acc₁, hacc₁, hbuf₁, husr, hpfn, hclosing, hdraining⟩ :=
    httpMsgEvent_spec fn calloc c ev
  obtain ⟨acc, hacc, hbuf⟩ := h.send
  refine ⟨h.recv, ?_, ?_, ?_, fun hd => (h.isDraining hd).trans (hdraining hd), acc₁ ++ acc, ?_, ?_⟩
  · rw [h.usr, husr]; rfl
  · rw [h.pfn, hpfn, husr, ← Option.or_assoc]; rfl
  · rw [h.isClosing, hclosing]
  · rw [husr] at hacc; exact hacc₁.append hacc
  · rw [hbuf, hbuf₁, List.flatten_append, List.append_assoc]

/-- **A run of `http_cb`** takes what the parser takes, and ends if the parser does. -/
theorem httpCbLoop_spec {s rest : Bytes} {is : List HttpMsg} {e : Option Stop} {fuel : ℕ}
    (h : Drains request s is rest e) (he : e ≠ some .chunked) (hs : c.recv.buf = s)
    (hfuel : is.length < fuel) :
    ∃ d, httpCbLoop fn calloc false fuel c = some d ∧ Handled fn calloc c d is rest e.isSome := by
  induction h generalizing c fuel with
  | more hp =>
    obtain ⟨fuel, rfl⟩ := Nat.exists_eq_add_of_lt hfuel
    subst hs
    exact ⟨_, httpCbLoop_wait _ (httpRound_of_more hp), .nil rfl rfl rfl rfl rfl rfl⟩
  | @halt s x hp =>
    obtain ⟨fuel, rfl⟩ := Nat.exists_eq_add_of_lt hfuel
    subst hs
    cases x with
    | chunked => exact absurd rfl he
    | malformed =>
      exact ⟨_, httpCbLoop_error _ (httpRound_of_malformed hp), .nil rfl rfl rfl rfl rfl rfl⟩
  | @item s ev n is rest e hp h ih =>
    subst hs
    cases fuel with
    | zero => exact absurd hfuel (Nat.not_lt_zero _)
    | succ fuel =>
      have hle := (length_httpRound_le.2 _ _ (httpRound_of_item hp)).trans c.recv.length_le
      obtain ⟨d, hd, hh⟩ := @ih
        { httpMsgEvent fn calloc c ev with recv := ⟨c.recv.size, c.recv.buf.drop n, hle⟩ } fuel
        he rfl (Nat.lt_of_succ_lt_succ hfuel)
      exact ⟨d, (httpCbLoop_message fuel (httpRound_of_item hp)).trans hd, hh.cons⟩

/-! ## Files -/

/-- `static_cb` moves bytes from the file to the buffer. -/
theorem staticCb_spec {fd : Bytes} (hpfn : c.pfn = some fd) :
    (staticCb calloc c fd).send.buf ++ (staticCb calloc c fd).pfn.getD [] = c.send.buf ++ fd := by
  have hbuf := roomToSend_buf calloc c.send
  unfold staticCb
  simp only
  split_ifs with hfull hlast
  · rw [hbuf, hpfn, Option.getD_some]
  · -- the buffer has not been filled: the file is at its end
    rw [Iobuf.push_buf, Iobuf.push_size, List.length_append, List.length_take] at hlast
    show (roomToSend calloc c.send).buf ++ fd.take _ ++ [] = _
    rw [List.take_of_length_le (by omega), hbuf, List.append_nil]
  · show (roomToSend calloc c.send).buf ++ fd.take _ ++ fd.drop _ = _
    rw [List.append_assoc, List.take_append_drop, hbuf]

theorem staticCb_frame (calloc : ℕ → Bool) (c : Conn τ) (fd : Bytes) :
    (staticCb calloc c fd).recv = c.recv ∧ (staticCb calloc c fd).usr = c.usr ∧
      (staticCb calloc c fd).isClosing = c.isClosing := by
  unfold staticCb
  simp only
  split_ifs
  · exact ⟨rfl, rfl, rfl⟩
  · exact ⟨rfl, rfl, rfl⟩
  · exact ⟨rfl, rfl, rfl⟩

/-- What `mg_call` of `MG_EV_POLL` or `MG_EV_WRITE` leaves as it is. -/
theorem pollEvent_frame (calloc : ℕ → Bool) (c : Conn τ) :
    (pollEvent calloc c).recv = c.recv ∧ (pollEvent calloc c).usr = c.usr ∧
      (pollEvent calloc c).isClosing = c.isClosing ∧
      (c.pfn = none → (pollEvent calloc c).pfn = none) := by
  unfold pollEvent
  cases h : c.pfn with
  | none => exact ⟨rfl, rfl, rfl, fun _ => h⟩
  | some fd =>
    obtain ⟨hrecv, husr, hclosing⟩ := staticCb_frame calloc c fd
    exact ⟨hrecv, husr, hclosing, fun h => by cases h⟩

theorem pollEvent_spec :
    (pollEvent calloc c).send.buf ++ (pollEvent calloc c).pfn.getD [] =
      c.send.buf ++ c.pfn.getD [] := by
  unfold pollEvent
  cases h : c.pfn with
  | none => simp only [h]
  | some fd => exact staticCb_spec h

/-! ## The stream and the connection -/

/-- A stream whose messages end somewhere, and not in front of a chunked head. -/
def Plain (net : Bytes) : Prop :=
  ∃ is rest e, Drains request net is rest e ∧ e ≠ some .chunked

/-- Running the parser shows that a stream is plain. -/
theorem plain_of_drain {net : Bytes} (fuel : ℕ)
    (h : ((Incremental.drain request fuel net).any fun r => r.2.2 ≠ some .chunked) = true) :
    Plain net := by
  obtain ⟨⟨is, rest, e⟩, hd, he⟩ := (Option.any_eq_true _ _).mp h
  exact ⟨is, rest, e, Incremental.drains_of_drain hd, by simpa using he⟩

theorem Plain.prefix {s t : Bytes} (h : Plain (s ++ t)) : Plain s := by
  obtain ⟨is, rest, e, hd, he⟩ := h
  obtain ⟨js, rest', e', hd'⟩ := stable_request.exists_drains_prefix hd
  refine ⟨js, rest', e', hd', ?_⟩
  rintro rfl
  exact he (hd.unique (stable_request.halt_append hd' t)).2.2

/-- No message is answered with a file. -/
def NoFile (fn : τ → HttpMsg → τ × Response) : Prop := ∀ u ev, (fn u ev).2.file = none

theorem batch_file (hf : NoFile fn) (u : τ) (evs : List HttpMsg) :
    (batch fn u evs).2.2 = none := by
  induction evs generalizing u with
  | nil => rfl
  | cons ev evs ih =>
    unfold batch
    simp only [ih, hf u ev, Option.or_none]

/-- How far a session has come: what `http_cb` has taken of the stream, what has been read since
while a file was sent, what the parser has left, and what it has found, batch by batch. -/
structure Progress where
  taken : Bytes
  waiting : Bytes
  rest : Bytes
  stop : Option Stop
  batches : List (List HttpMsg)
  accepted : List Bytes

/-- A connection of which `g` is the history: what has been written, what is in the send buffer
and what is left of a file are, one after the other, what the handler has produced. -/
structure Alive (fn : τ → HttpMsg → τ × Response) (u : τ) (net : Bytes) (full : Prop)
    (g : Progress) (w : World τ) : Prop where
  stream : net = g.taken ++ (g.waiting ++ w.net)
  drains : Drains request g.taken g.batches.flatten g.rest g.stop
  stop : g.stop ≠ some .chunked
  recv : w.conn.recv.buf = g.rest ++ g.waiting
  usr : w.conn.usr = (pieces fn u g.batches).1
  accepted : Accepted full g.accepted (pieces fn u g.batches).2
  sent : w.wire ++ (w.conn.send.buf ++ w.conn.pfn.getD []) = g.accepted.flatten
  closing : g.stop.isSome = true → w.conn.isClosing = true
  waiting : NoFile fn → w.conn.pfn = none ∧ g.waiting = []

section Steps

variable {net : Bytes} {full : Prop} {g : Progress} {w : World τ}

theorem alive_accepted : Alive fn u net full ⟨[], [], [], none, [], []⟩ (accepted u net) where
  stream := rfl
  drains := .more rfl
  stop := by rintro ⟨⟩
  recv := rfl
  usr := rfl
  accepted := .refl _ _
  sent := rfl
  closing h := by cases h
  waiting _ := ⟨rfl, rfl⟩

theorem alive_pollEvent (calloc : ℕ → Bool) (h : Alive fn u net full g w) :
    Alive fn u net full g { w with conn := pollEvent calloc w.conn } := by
  obtain ⟨hrecv, husr, hclosing, hpfn⟩ := pollEvent_frame calloc w.conn
  exact
    { h with
      recv := (congrArg Iobuf.buf hrecv).trans h.recv
      usr := husr.trans h.usr
      sent := (congrArg (w.wire ++ ·) pollEvent_spec).trans h.sent
      closing := fun hs => hclosing.trans (h.closing hs)
      waiting := fun hf => ⟨hpfn (h.waiting hf).1, (h.waiting hf).2⟩ }

theorem Alive.stop_eq_none (h : Alive fn u net full g w) (hclosing : w.conn.isClosing = false) :
    g.stop = none := by
  cases hs : g.stop with
  | none => rfl
  | some x =>
    have := h.closing (by rw [hs]; rfl)
    rw [hclosing] at this
    cases this

/-- The fields that keep a connection alive may be all that it shares with another. -/
theorem Alive.congr (h : Alive fn u net full g w) {c : Conn τ}
    (hrecv : c.recv.buf = w.conn.recv.buf) (husr : c.usr = w.conn.usr)
    (hsend : c.send.buf = w.conn.send.buf) (hpfn : c.pfn = w.conn.pfn)
    (hclosing : w.conn.isClosing = true → c.isClosing = true) :
    Alive fn u net full g { w with conn := c } :=
  { h with
    recv := hrecv.trans h.recv
    usr := husr.trans h.usr
    sent := by rw [← h.sent]; simp only [hsend, hpfn]
    closing := fun hs => hclosing (h.closing hs)
    waiting := fun hf => ⟨hpfn.trans (h.waiting hf).1, (h.waiting hf).2⟩ }

/-- An iteration in which `http_cb` takes nothing. -/
theorem Alive.idle (h : Alive fn u net full g w) :
    Alive fn u net full { g with batches := g.batches ++ [[]] } w := by
  have hpieces := @pieces_concat_nil τ fn u g.batches
  exact
    { h with
      drains := (flatten_concat_nil g.batches).symm ▸ h.drains
      usr := by simp only [hpieces]; exact h.usr
      accepted := by simp only [hpieces]; exact h.accepted }

theorem readEvent_of_http (hpfn : c.pfn = none) :
    readEvent fn calloc c = httpCb fn calloc false c := by
  unfold readEvent
  rw [hpfn]

theorem readEvent_of_file {fd : Bytes} (hpfn : c.pfn = some fd) :
    readEvent fn calloc c = some c := by
  unfold readEvent
  rw [hpfn]

/-- `MG_EV_READ`: `http_cb` takes a batch, or the bytes wait until a file has been sent. -/
theorem alive_readEvent (hnet : Plain net) (h : Alive fn u net full g w)
    (hclosing : w.conn.isClosing = false) (hfull : full → Allocates calloc) {recv : Iobuf}
    {got left : Bytes} (hrecv : recv.buf = w.conn.recv.buf ++ got) (hgot : w.net = got ++ left) :
    ∃ d g', readEvent fn calloc { w.conn with recv } = some d ∧
      Alive fn u net full g' { w with conn := d, net := left } ∧
      d.isClosing = g'.stop.isSome ∧ (NoDrain fn → d.isDraining = w.conn.isDraining) ∧
      ∃ d', readEvent (noting fn) calloc (Conn.withUsr { w.conn with recv } (w.conn.usr, [])) =
        some d' ∧ g'.batches = g.batches ++ [d'.usr.2] := by
  have hstop := h.stop_eq_none hclosing
  have hnet' : net = g.taken ++ (g.waiting ++ got) ++ left := by
    rw [h.stream, hgot]
    simp only [List.append_assoc]
  cases hpfn : w.conn.pfn with
  | some fd =>
    refine ⟨_, { g with waiting := g.waiting ++ got, batches := g.batches ++ [[]] },
      readEvent_of_file hpfn, ?_, by simp only [hstop, hclosing, Option.isSome_none],
      fun _ => rfl, _, readEvent_of_file hpfn, rfl⟩
    exact
      { h.idle with
        stream := by rw [hnet', List.append_assoc]
        recv := by rw [hrecv, h.recv, List.append_assoc]
        waiting := fun hf => by rw [(h.waiting hf).1] at hpfn; cases hpfn }
  | none =>
    rw [hnet'] at hnet
    obtain ⟨js, rest, e, hd, he⟩ := hnet.prefix
    have hdrains := h.drains
    rw [hstop] at hdrains
    obtain ⟨ks, rfl, hks⟩ := (stable_request.append hdrains).mp hd
    have hbuf : recv.buf = g.rest ++ (g.waiting ++ got) := by
      rw [hrecv, h.recv, List.append_assoc]
    obtain ⟨d, hloop, hh⟩ := @httpCbLoop_spec τ fn calloc { w.conn with recv } _ _ _ _
      (recv.buf.length + 1) hks he hbuf (Nat.lt_succ_of_le (hbuf ▸ hks.length_le))
    obtain ⟨acc, hacc, hsend⟩ := hh.send
    have husr := h.usr
    -- the handler that writes its messages down is called for the same ones
    obtain ⟨d', hloop', hh'⟩ := @httpCbLoop_spec _ (noting fn) calloc
      (Conn.withUsr { w.conn with recv } (w.conn.usr, [])) _ _ _ _
      (recv.buf.length + 1) hks he hbuf (Nat.lt_succ_of_le (hbuf ▸ hks.length_le))
    have hnoted : d'.usr.2 = ks := by
      rw [hh'.usr, Conn.withUsr, batch_noting]
      exact List.nil_append ks
    refine ⟨d, ⟨g.taken ++ (g.waiting ++ got), [], rest, e, g.batches ++ [ks],
      g.accepted ++ (acc ++ (batch fn w.conn.usr ks).2.2.toList)⟩,
      .trans (readEvent_of_http hpfn) hloop, ?_, by rw [hh.isClosing, hclosing, Bool.or_false],
      hh.isDraining, d', .trans (readEvent_of_http hpfn) hloop', by rw [hnoted]⟩
    constructor
    · exact hnet'
    · rwa [List.flatten_append, List.flatten_singleton]
    · exact he
    · exact hh.recv.trans (List.append_nil _).symm
    · rw [pieces_concat, ← husr]
      exact hh.usr
    · rw [pieces_concat, ← husr]
      exact h.accepted.append ((hacc.mono hfull).append (.refl _ _))
    · have hfile : ((batch fn w.conn.usr ks).2.2.or none).getD [] =
          (batch fn w.conn.usr ks).2.2.toList.flatten := by
        cases (batch fn w.conn.usr ks).2.2 <;> simp
      have hsent := h.sent
      rw [hpfn, Option.getD_none, List.append_nil] at hsent
      show w.wire ++ (d.send.buf ++ d.pfn.getD []) = _
      rw [hsend, hh.pfn, hpfn, hfile, List.flatten_append, List.flatten_append, ← hsent]
      simp only [List.append_assoc]
    · intro hs
      rw [hh.isClosing]
      simp [hs]
    · intro hf
      refine ⟨?_, rfl⟩
      rw [hh.pfn, hpfn, Option.or_none]
      exact batch_file hf _ _

theorem roomToRead_buf {io io' : Iobuf} (h : roomToRead calloc io = some io') :
    io'.buf = io.buf := by
  unfold roomToRead at h
  simp only at h
  split_ifs at h with hsmall hok
  · cases h
    exact mgIobufResize_buf _ (Nat.add_one_ne_zero _)
  · cases h
    rfl

theorem alive_mgError (h : Alive fn u net full g w) :
    Alive fn u net full g { w with conn := mgError w.conn } :=
  h.congr rfl rfl rfl rfl fun _ => rfl

/-- `g'` is the history after a part of an iteration in which `http_cb` has taken what the handler of
`o` has written down. -/
def Noted (g g' : Progress) (o : Option (World (τ × List HttpMsg))) : Prop :=
  ∃ w', o = some w' ∧ g'.batches = g.batches ++ [w'.conn.usr.2]

theorem alive_readConn (hnet : Plain net) (h : Alive fn u net full g w)
    (hclosing : w.conn.isClosing = false) (hfull : full → Allocates calloc) (io : Io) :
    ∃ w' g', readConn fn calloc io w = some w' ∧ Alive fn u net full g' w' ∧
      w'.isOpen = w.isOpen ∧
      Noted g g' (readConn (noting fn) calloc io (w.withUsr (w.conn.usr, []))) := by
  unfold readConn
  simp only [World.withUsr, Conn.withUsr]
  by_cases hmax : w.conn.recv.buf.length ≥ mgMaxRecvBufSize
  · simp only [hmax, if_true]
    exact ⟨_, _, rfl, alive_mgError h.idle, rfl, _, rfl, rfl⟩
  simp only [hmax, if_false]
  cases hroom : roomToRead calloc w.conn.recv with
  | none => exact ⟨_, _, rfl, alive_mgError h.idle, rfl, _, rfl, rfl⟩
  | some recv =>
    have hrecv := roomToRead_buf hroom
    cases io with
    | wouldBlock => exact ⟨_, _, rfl, h.idle.congr hrecv rfl rfl rfl id, rfl, _, rfl, rfl⟩
    | gone => exact ⟨_, _, rfl, h.idle.congr hrecv rfl rfl rfl fun _ => rfl, rfl, _, rfl, rfl⟩
    | bytes n =>
      by_cases hempty : (w.net.take (min n (recv.size - recv.buf.length))).length = 0
      · simp only [hempty, if_true]
        exact ⟨_, _, rfl, h.idle.congr hrecv rfl rfl rfl id, rfl, _, rfl, rfl⟩
      · simp only [hempty, if_false]
        have hfits := room_le recv w.net (Nat.min_le_right n _)
        have hpush : (recv.push _ hfits).buf =
            w.conn.recv.buf ++ w.net.take (min n (recv.size - recv.buf.length)) := by
          rw [Iobuf.push_buf, hrecv]
        have hgot := List.prefix_iff_eq_append.mp
          (List.take_prefix (min n (recv.size - recv.buf.length)) w.net)
        obtain ⟨d, g', hd, hg, -, -, d', hd', hnoted⟩ :=
          alive_readEvent hnet h hclosing hfull hpush hgot.symm
        simp only [Conn.withUsr] at hd'
        rw [hd, hd']
        exact ⟨_, g', rfl, hg, rfl, _, rfl, hnoted⟩

/-- Bytes that have been written leave the send buffer. -/
theorem alive_sent (h : Alive fn u net full g w) {send : Iobuf} {sent : Bytes}
    (hs : w.conn.send.buf = sent ++ send.buf) :
    Alive fn u net full g { w with conn := { w.conn with send }, wire := w.wire ++ sent } :=
  { h with
    sent := by
      rw [← h.sent, hs]
      simp only [List.append_assoc] }

theorem alive_writeConn (h : Alive fn u net full g w) (io : Io) :
    Alive fn u net full g (writeConn calloc io w) := by
  unfold writeConn
  cases io with
  | wouldBlock => exact h
  | gone => exact h.congr rfl rfl rfl rfl fun _ => rfl
  | bytes n =>
    simp only
    split_ifs with hempty
    · exact h
    · refine alive_pollEvent calloc (alive_sent h ?_)
      rw [sentBuf_buf]
      exact (List.prefix_iff_eq_append.mp (List.take_prefix n w.conn.send.buf)).symm

/-! ### The end of the connection -/

/-- A connection that has been closed: a beginning of what the handler has produced is written. At
the end the handler may have seen one message more, made of all that was left. -/
structure Closed (fn : τ → HttpMsg → τ × Response) (u : τ) (net : Bytes) (full : Prop)
    (g : Progress) (w : World τ) : Prop where
  stream : net = g.taken ++ (g.waiting ++ w.net)
  drains : Drains request g.taken g.batches.flatten g.rest g.stop
  accepted : Accepted full g.accepted (pieces fn u g.batches).2
  sent : w.wire <+: g.accepted.flatten
  usr : w.conn.usr = (pieces fn u g.batches).1 ∨
    w.conn.usr = (batch fn (pieces fn u g.batches).1 (closingMsg (g.rest ++ g.waiting)).toList).1
  waiting : NoFile fn → g.waiting = [] ∧
    w.conn.usr = (batch fn (pieces fn u g.batches).1 (closingMsg g.rest).toList).1

theorem Closed.idle (h : Closed fn u net full g w) :
    Closed fn u net full { g with batches := g.batches ++ [[]] } w := by
  have hpieces := @pieces_concat_nil τ fn u g.batches
  exact
    { h with
      drains := (flatten_concat_nil g.batches).symm ▸ h.drains
      usr := by simp only [hpieces]; exact h.usr
      accepted := by simp only [hpieces]; exact h.accepted
      waiting := by simp only [hpieces]; exact h.waiting }

theorem closeEvent_spec (fn : τ → HttpMsg → τ × Response) (calloc : ℕ → Bool) (c : Conn τ) :
    ∃ d, closeEvent fn calloc c = some d ∧
    ((c.pfn.isSome = true ∧ d.usr = c.usr) ∨
      (c.pfn = none ∧ d.usr = (batch fn c.usr (closingMsg c.recv.buf).toList).1)) := by
  unfold closeEvent
  cases hpfn : c.pfn with
  | some fd => exact ⟨_, rfl, .inl ⟨rfl, rfl⟩⟩
  | none =>
    cases hmsg : closingMsg c.recv.buf with
    | none =>
      exact ⟨_, httpCbLoop_wait _ (httpRound_close_of_none hmsg), .inr ⟨rfl, rfl⟩⟩
    | some ev =>
      have hround := httpRound_close_of_some hmsg
      obtain ⟨k, hk⟩ : ∃ k, c.recv.buf.length = k + 1 := by
        refine Nat.exists_eq_succ_of_ne_zero fun h0 => ?_
        rw [List.length_eq_zero_iff.mp h0] at hmsg
        cases hmsg
      -- a second round finds an empty buffer
      refine ⟨{ httpMsgEvent fn calloc c ev with recv := ⟨c.recv.size, [], Nat.zero_le _⟩ }, ?_,
        .inr ⟨rfl, ?_⟩⟩
      · show httpCbLoop fn calloc true (c.recv.buf.length + 1) c = _
        rw [hk, httpCbLoop_message _ hround]
        exact httpCbLoop_wait _ (httpRound_close_of_none rfl)
      · obtain ⟨acc, -, -, husr, -⟩ := httpMsgEvent_spec fn calloc c ev
        exact husr

theorem closed_closeConn (calloc : ℕ → Bool) (h : Alive fn u net full g w) :
    ∃ w', closeConn fn calloc w = some w' ∧ Closed fn u net full g w' ∧ w'.isOpen = false := by
  obtain ⟨d, hd, husr⟩ := closeEvent_spec fn calloc w.conn
  unfold closeConn
  rw [hd]
  refine ⟨_, rfl, ?_, rfl⟩
  constructor
  · exact h.stream
  · exact h.drains
  · exact h.accepted
  · exact ⟨_, h.sent⟩
  · rcases husr with ⟨-, hu⟩ | ⟨-, hu⟩
    · exact .inl (hu.trans h.usr)
    · rw [h.recv, h.usr] at hu
      exact .inr hu
  · intro hf
    obtain ⟨hpfn, hwait⟩ := h.waiting hf
    refine ⟨hwait, ?_⟩
    rcases husr with ⟨hp, -⟩ | ⟨-, hu⟩
    · rw [hpfn] at hp
      cases hp
    · rw [h.recv, h.usr, hwait, List.append_nil] at hu
      exact hu

/-! ### Polls -/

theorem isOpen_writeConn (io : Io) : (writeConn calloc io w).isOpen = w.isOpen := by
  unfold writeConn
  cases io with
  | wouldBlock => rfl
  | gone => rfl
  | bytes n =>
    simp only
    split_ifs <;> rfl

/-- What `write_conn` leaves as it is. -/
theorem writeConn_frame (calloc : ℕ → Bool) (io : Io) (w : World τ) :
    (writeConn calloc io w).net = w.net ∧ (writeConn calloc io w).conn.usr = w.conn.usr ∧
      (writeConn calloc io w).conn.recv = w.conn.recv := by
  unfold writeConn
  cases io with
  | wouldBlock => exact ⟨rfl, rfl, rfl⟩
  | gone => exact ⟨rfl, rfl, rfl⟩
  | bytes n =>
    simp only
    split_ifs
    · exact ⟨rfl, rfl, rfl⟩
    · exact ⟨rfl, (pollEvent_frame _ _).2.1, (pollEvent_frame _ _).1⟩

/-- What holds after any number of polls, in which `http_cb` has taken the batches `bs`. -/
inductive Session (fn : τ → HttpMsg → τ × Response) (u : τ) (net : Bytes) (full : Prop)
    (bs : List (List HttpMsg)) (w : World τ) : Prop
  | alive (g : Progress) : g.batches = bs → w.isOpen = true → w.conn.isClosing = false →
      Alive fn u net full g w → Session fn u net full bs w
  | closed (g : Progress) : g.batches = bs → w.isOpen = false → Closed fn u net full g w →
      Session fn u net full bs w

theorem alive_pollRead (hnet : Plain net) (h : Alive fn u net full g w)
    (hclosing : w.conn.isClosing = false) (p : Poll) (hfull : full → Allocates p.calloc) :
    ∃ w' g', pollRead fn p w = some w' ∧ Alive fn u net full g' w' ∧ w'.isOpen = w.isOpen ∧
      Noted g g' (pollRead (noting fn) p (w.withUsr (w.conn.usr, []))) := by
  unfold pollRead
  cases p.readable with
  | none => exact ⟨w, _, rfl, h.idle, rfl, _, rfl, rfl⟩
  | some io => exact alive_readConn hnet h hclosing hfull io

theorem alive_pollWrite (h : Alive fn u net full g w) (p : Poll) (watched : Bool) :
    Alive fn u net full g (pollWrite p watched w) ∧ (pollWrite p watched w).isOpen = w.isOpen := by
  unfold pollWrite
  cases p.writable with
  | none => exact ⟨h, rfl⟩
  | some io =>
    cases watched with
    | false => exact ⟨h, rfl⟩
    | true => exact ⟨alive_writeConn h io, isOpen_writeConn io⟩

theorem usr_pollWrite (p : Poll) (watched : Bool) (w : World τ) :
    (pollWrite p watched w).conn.usr = w.conn.usr := by
  unfold pollWrite
  cases p.writable with
  | none => rfl
  | some io =>
    cases watched with
    | false => rfl
    | true => exact (writeConn_frame p.calloc io w).2.1

theorem session_pollEnd (calloc : ℕ → Bool) (h : Alive fn u net full g w)
    (hopen : w.isOpen = true) :
    ∃ w', pollEnd fn calloc w = some w' ∧ Session fn u net full g.batches w' := by
  unfold pollEnd
  simp only
  generalize hend :
    (w.conn.isClosing || (w.conn.isDraining && w.conn.send.buf.length = 0)) = closing
  have hg : Alive fn u net full g { w with conn := { w.conn with isClosing := closing } } :=
    h.congr rfl rfl rfl rfl fun hc => by rw [← hend, hc, Bool.true_or]
  cases closing with
  | true =>
    obtain ⟨w', hw', hc, hclosed⟩ := closed_closeConn calloc hg
    exact ⟨w', hw', .closed g rfl hclosed hc⟩
  | false => exact ⟨_, rfl, .alive g rfl hopen rfl hg⟩

theorem session_mgMgrPoll (hnet : Plain net) (p : Poll) (hfull : full → Allocates p.calloc)
    {bs : List (List HttpMsg)} (h : Session fn u net full bs w) :
    ∃ w', mgMgrPoll fn w p = some w' ∧ Session fn u net full (bs ++ [batchOf fn w p]) w' := by
  unfold mgMgrPoll batchOf
  cases h with
  | closed g hbs hopen hg =>
    rw [if_neg (by rw [hopen]; exact Bool.false_ne_true),
      if_neg (by rw [hopen]; exact Bool.false_ne_true)]
    exact ⟨w, rfl, .closed _ (by rw [hbs]) hopen hg.idle⟩
  | alive g hbs hopen hclosing hg =>
    have hpoll := alive_pollEvent p.calloc hg
    obtain ⟨-, husr, hclosing', -⟩ := pollEvent_frame p.calloc w.conn
    rw [hclosing] at hclosing'
    obtain ⟨w₁, g₁, hw₁, hg₁, hopen₁, w₂, hw₂, hnoted⟩ :=
      alive_pollRead hnet hpoll hclosing' p hfull
    obtain ⟨hg₂, hopen₂⟩ := alive_pollWrite hg₁ p (0 < w.conn.send.buf.length)
    obtain ⟨w', hw', hs⟩ :=
      session_pollEnd p.calloc hg₂ (hopen₂.trans (hopen₁.trans hopen))
    have hrunning : ¬ (pollEvent p.calloc w.conn).isClosing = true := by
      rw [hclosing']
      exact Bool.false_ne_true
    refine ⟨w', ?_, ?_⟩
    · unfold pollSockets
      rw [if_pos hopen, if_neg hrunning, hw₁]
      exact hw'
    · rw [husr] at hw₂
      have hsockets : pollSockets (noting fn) p (0 < w.conn.send.buf.length)
          (World.withUsr { w with conn := pollEvent p.calloc w.conn } (w.conn.usr, [])) =
            some (pollWrite p (0 < w.conn.send.buf.length) w₂) := by
        unfold pollSockets
        rw [hw₂]
        exact if_neg hrunning
      rw [if_pos hopen, hsockets]
      simp only [Option.map_some, Option.getD_some, usr_pollWrite]
      rwa [← hbs, ← hnoted]

/-- The stream and the output of a session, whether it is open or not. -/
theorem Session.history {bs : List (List HttpMsg)} (h : Session fn u net full bs w) :
    ∃ g : Progress, net = g.taken ++ (g.waiting ++ w.net) ∧
      Drains request g.taken bs.flatten g.rest g.stop ∧
      Accepted full g.accepted (pieces fn u bs).2 ∧
      if w.isOpen then
        w.conn.usr = (pieces fn u bs).1 ∧
          w.wire ++ (w.conn.send.buf ++ w.conn.pfn.getD []) = g.accepted.flatten
      else w.wire <+: g.accepted.flatten := by
  cases h with
  | alive g hbs hopen hclosing hg =>
    subst hbs
    refine ⟨g, hg.stream, hg.drains, hg.accepted, ?_⟩
    rw [if_pos hopen]
    exact ⟨hg.usr, hg.sent⟩
  | closed g hbs hopen hg =>
    subst hbs
    refine ⟨g, hg.stream, hg.drains, hg.accepted, ?_⟩
    rw [if_neg (by rw [hopen]; exact Bool.false_ne_true)]
    exact hg.sent

end Steps

/-- **Every schedule.** Whatever the sockets and the allocator do, the event loop goes on, and the
connection is where the stream of its peer has brought it. -/
theorem session_run {net : Bytes} {full : Prop} (hnet : Plain net) (u : τ) {ps : List Poll}
    (hfull : full → ∀ p ∈ ps, Allocates p.calloc) :
    ∃ w, Run.exec (mgMgrPoll fn) (accepted u net) ps = some w ∧
      Session fn u net full (batchesOf fn (accepted u net) ps) w := by
  have hstep : ∀ bs w p, Session fn u net full bs w → (full → Allocates p.calloc) →
      ∃ w', mgMgrPoll fn w p = some w' ∧ Session fn u net full (bs ++ [batchOf fn w p]) w' :=
    fun _ _ p hs hp => session_mgMgrPoll hnet p hp hs
  have hstart : Session fn u net full [] (accepted u net) := .alive _ rfl rfl rfl alive_accepted
  exact Run.exec_seen hstep hstart fun p hp hf => hfull hf p hp

/-! ## Handlers without files -/

theorem pieces_of_noFile (hf : NoFile fn) (bs : List (List HttpMsg)) :
    pieces fn u bs = ((batch fn u bs.flatten).1, (batch fn u bs.flatten).2.1) := by
  induction bs generalizing u with
  | nil => rfl
  | cons b bs ih =>
    rw [List.flatten_cons, batch_append, pieces, ih, batch_file hf]
    simp only [Option.toList_none, List.append_nil]

/-- What is written begins the answers to the whole stream. -/
theorem Session.wire_prefix {net rest : Bytes} {is : List HttpMsg} {e : Option Stop} {w : World τ}
    (hf : NoFile fn) (hnet : Drains request net is rest e) {bs : List (List HttpMsg)}
    (h : Session fn u net True bs w) :
    w.wire <+: (batch fn u is).2.1.flatten := by
  obtain ⟨g, hstream, hdrains, haccepted, hstate⟩ := h.history
  rw [haccepted.full trivial, pieces_of_noFile hf] at hstate
  have hsent : w.wire <+: (batch fn u bs.flatten).2.1.flatten := by
    split_ifs at hstate
    · exact ⟨_, hstate.2⟩
    · exact hstate
  rw [hstream] at hnet
  obtain ⟨ks, rfl⟩ := stable_request.isPrefix hdrains hnet
  rw [batch_append, List.flatten_append]
  exact hsent.trans (List.prefix_append _ _)

/-- How a connection stands whose handler has answered the messages of `taken` so far. -/
def InOrder (fn : τ → HttpMsg → τ × Response) (u : τ) (w : World τ) (taken : Bytes) : Prop :=
  ∃ is rest e, Drains request taken is rest e ∧
    if w.isOpen then
      e = none ∧ w.conn.recv.buf = rest ∧ w.conn.usr = (batch fn u is).1 ∧
        w.wire ++ w.conn.send.buf = (batch fn u is).2.1.flatten
    else
      w.conn.usr = (batch fn u (is ++ (closingMsg rest).toList)).1 ∧
        w.wire <+: (batch fn u is).2.1.flatten

/-- **Answers in order.** No message is answered with a file, the stream ends somewhere and not in
front of a chunked head, and every allocation succeeds. Then however the stream is cut up and the
writing goes on, the handler sees the messages of what has been read, each once and in order, and
what is written, followed by what waits in the send buffer, are its answers. A connection that has
been closed has written a beginning of them, and the handler has seen what was left as one message
more, if it has a head. -/
theorem answers_in_order {net : Bytes} (hf : NoFile fn) (hnet : Plain net) (u : τ) {ps : List Poll}
    (hps : ∀ p ∈ ps, Allocates p.calloc) :
    ∃ w taken, Run.exec (mgMgrPoll fn) (accepted u net) ps = some w ∧ net = taken ++ w.net ∧
      InOrder fn u w taken := by
  obtain ⟨w, hw, hs⟩ := @session_run τ fn net True hnet u ps fun _ => hps
  cases hs with
  | alive g _ hopen hclosing hg =>
    obtain ⟨hpfn, hwait⟩ := hg.waiting hf
    have hstop := hg.stop_eq_none hclosing
    have hstream := hg.stream
    have hrecv := hg.recv
    have husr := hg.usr
    have hsent := hg.sent
    rw [hwait, List.nil_append] at hstream
    rw [hwait, List.append_nil] at hrecv
    rw [pieces_of_noFile hf] at husr
    rw [hpfn, Option.getD_none, List.append_nil, hg.accepted.full trivial,
      pieces_of_noFile hf] at hsent
    refine ⟨w, g.taken, hw, hstream, g.batches.flatten, g.rest, g.stop, hg.drains, ?_⟩
    rw [if_pos hopen]
    exact ⟨hstop, hrecv, husr, hsent⟩
  | closed g _ hopen hg =>
    obtain ⟨hwait, husr⟩ := hg.waiting hf
    have hstream := hg.stream
    have hsent := hg.sent
    rw [hwait, List.nil_append] at hstream
    rw [pieces_of_noFile hf] at husr
    rw [hg.accepted.full trivial, pieces_of_noFile hf] at hsent
    refine ⟨w, g.taken, hw, hstream, g.batches.flatten, g.rest, g.stop, hg.drains, ?_⟩
    rw [if_neg (by rw [hopen]; exact Bool.false_ne_true), batch_append]
    exact ⟨husr, hsent⟩

theorem answers_in_order_two :
    ∃ w taken,
      Run.exec (mgMgrPoll fun (n : ℕ) ev => (n + 1, ⟨[ev.hm.uri, ascii "!"], none, false⟩))
        (accepted 0 (ascii "GET /a HTTP/1.1\r\n\r\nGET /b HTTP/1.1\r\n\r\n"))
        [⟨some (.bytes 25), some (.bytes 1), fun _ => true⟩,
          ⟨some (.bytes 25), some (.bytes 1), fun _ => true⟩] = some w ∧
      ascii "GET /a HTTP/1.1\r\n\r\nGET /b HTTP/1.1\r\n\r\n" = taken ++ w.net ∧
      InOrder (fun (n : ℕ) ev => (n + 1, ⟨[ev.hm.uri, ascii "!"], none, false⟩)) 0 w taken :=
  answers_in_order (fun _ _ => rfl) (plain_of_drain 3 (by decide +kernel)) 0 (by simp [Allocates])

/-! ## Handlers with files -/

/-- What the handler produces, message by message: the texts and then the file of each. -/
def answers (fn : τ → HttpMsg → τ × Response) : τ → List HttpMsg → τ × List Bytes
  | u, [] => (u, [])
  | u, ev :: evs =>
    let r := fn u ev
    let as := answers fn r.1 evs
    (as.1, r.2.sends ++ r.2.file.toList ++ as.2)

/-- Only the last message of a batch is answered with a file. -/
def FileLast (fn : τ → HttpMsg → τ × Response) : τ → List HttpMsg → Prop
  | _, [] => True
  | u, ev :: evs => (evs = [] ∨ (fn u ev).2.file = none) ∧ FileLast fn (fn u ev).1 evs

/-- The same of every batch. -/
def FilesLast (fn : τ → HttpMsg → τ × Response) : τ → List (List HttpMsg) → Prop
  | _, [] => True
  | u, b :: bs => FileLast fn u b ∧ FilesLast fn (batch fn u b).1 bs

/-- Clients that wait for each answer. -/
theorem filesLast_of_length_le {bs : List (List HttpMsg)} (h : ∀ b ∈ bs, b.length ≤ 1) :
    FilesLast fn u bs := by
  induction bs generalizing u with
  | nil => trivial
  | cons b bs ih =>
    refine ⟨?_, ih fun c hc => h c (List.mem_cons_of_mem _ hc)⟩
    match b, h b List.mem_cons_self with
    | [], _ => trivial
    | [ev], _ => exact ⟨.inl rfl, trivial⟩
    | _ :: _ :: _, hb => exact absurd hb (by simp)

theorem answers_append (evs evs' : List HttpMsg) :
    answers fn u (evs ++ evs') = ((answers fn (answers fn u evs).1 evs').1,
      (answers fn u evs).2 ++ (answers fn (answers fn u evs).1 evs').2) := by
  induction evs generalizing u with
  | nil => rfl
  | cons ev evs ih => simp only [List.cons_append, answers, ih, List.append_assoc]

theorem answers_of_fileLast {b : List HttpMsg} (hb : FileLast fn u b) :
    answers fn u b = ((batch fn u b).1, (batch fn u b).2.1 ++ (batch fn u b).2.2.toList) := by
  induction b generalizing u with
  | nil => rfl
  | cons ev evs ih =>
    rw [answers, batch, ih hb.2]
    rcases hb.1 with rfl | hev
    · simp only [batch, List.append_nil, Option.none_or, Option.toList_none]
    · simp only [hev, Option.toList_none, List.append_nil, Option.or_none, List.append_assoc]

theorem pieces_of_filesLast {bs : List (List HttpMsg)} (hbs : FilesLast fn u bs) :
    pieces fn u bs = answers fn u bs.flatten := by
  induction bs generalizing u with
  | nil => rfl
  | cons b bs ih => rw [List.flatten_cons, answers_append, answers_of_fileLast hbs.1, pieces, ih hbs.2]

/-- How a connection stands that has taken its messages in the batches `bs`: what is written, what
waits in the send buffer and what is left of a file are, batch by batch, the texts and the last
file. -/
def InBatches (fn : τ → HttpMsg → τ × Response) (u : τ) (w : World τ) (taken : Bytes)
    (bs : List (List HttpMsg)) : Prop :=
  (∃ rest e, Drains request taken bs.flatten rest e) ∧
    if w.isOpen then
      w.conn.usr = (pieces fn u bs).1 ∧
        w.wire ++ (w.conn.send.buf ++ w.conn.pfn.getD []) = (pieces fn u bs).2.flatten
    else w.wire <+: (pieces fn u bs).2.flatten

/-- Every schedule takes the messages in batches. -/
theorem exec_inBatches {net : Bytes} (hnet : Plain net) (u : τ) {ps : List Poll}
    (hps : ∀ p ∈ ps, Allocates p.calloc) :
    ∃ w taken waiting, Run.exec (mgMgrPoll fn) (accepted u net) ps = some w ∧
      net = taken ++ (waiting ++ w.net) ∧
      InBatches fn u w taken (batchesOf fn (accepted u net) ps) := by
  obtain ⟨w, hw, hs⟩ := @session_run τ fn net True hnet u ps fun _ => hps
  obtain ⟨g, hstream, hdrains, haccepted, hstate⟩ := hs.history
  rw [haccepted.full trivial] at hstate
  exact ⟨w, g.taken, g.waiting, hw, hstream, ⟨_, _, hdrains⟩, hstate⟩

/-- **Files come behind their batch.** The stream ends somewhere and not in front of a chunked head,
and every allocation succeeds. Then under every schedule the output is, batch by batch of what
`http_cb` takes in the iterations, the texts that answer the messages and the last file among the
answers. It is the answers in order if only the last message of each batch is answered with a file,
as it is for a client that does not pipeline. -/
theorem files_behind_batches {net : Bytes} (hnet : Plain net) (u : τ) {ps : List Poll}
    (hps : ∀ p ∈ ps, Allocates p.calloc) :
    ∃ w taken waiting, Run.exec (mgMgrPoll fn) (accepted u net) ps = some w ∧
      net = taken ++ (waiting ++ w.net) ∧
      InBatches fn u w taken (batchesOf fn (accepted u net) ps) ∧
      (FilesLast fn u (batchesOf fn (accepted u net) ps) →
        pieces fn u (batchesOf fn (accepted u net) ps) =
          answers fn u (batchesOf fn (accepted u net) ps).flatten) := by
  obtain ⟨w, taken, waiting, hw, hstream, hbs⟩ := @exec_inBatches τ fn net hnet u ps hps
  exact ⟨w, taken, waiting, hw, hstream, hbs, pieces_of_filesLast⟩

/-- A handler that answers every message with a file. -/
def twoFiles (n : ℕ) (ev : HttpMsg) : ℕ × Response :=
  (n + 1, ⟨[ev.hm.uri], some (ascii (toString n)), false⟩)

theorem files_behind_batches_two :
    ∃ w taken waiting,
      Run.exec (mgMgrPoll twoFiles)
        (accepted 0 (ascii "GET /a HTTP/1.1\r\n\r\nGET /b HTTP/1.1\r\n\r\n"))
        [⟨some (.bytes 50), none, fun _ => true⟩] = some w ∧
      ascii "GET /a HTTP/1.1\r\n\r\nGET /b HTTP/1.1\r\n\r\n" = taken ++ (waiting ++ w.net) ∧
      InBatches twoFiles 0 w taken
        (batchesOf twoFiles
          (accepted 0 (ascii "GET /a HTTP/1.1\r\n\r\nGET /b HTTP/1.1\r\n\r\n"))
          [⟨some (.bytes 50), none, fun _ => true⟩]) ∧
      (FilesLast twoFiles 0
          (batchesOf twoFiles
            (accepted 0 (ascii "GET /a HTTP/1.1\r\n\r\nGET /b HTTP/1.1\r\n\r\n"))
            [⟨some (.bytes 50), none, fun _ => true⟩]) →
        pieces twoFiles 0
          (batchesOf twoFiles
            (accepted 0 (ascii "GET /a HTTP/1.1\r\n\r\nGET /b HTTP/1.1\r\n\r\n"))
            [⟨some (.bytes 50), none, fun _ => true⟩]) =
          answers twoFiles 0
            (batchesOf twoFiles
              (accepted 0 (ascii "GET /a HTTP/1.1\r\n\r\nGET /b HTTP/1.1\r\n\r\n"))
              [⟨some (.bytes 50), none, fun _ => true⟩]).flatten) :=
  files_behind_batches (plain_of_drain 3 (by decide +kernel)) 0 (by simp [Allocates])

/-- A handler that answers with two texts. -/
def twoTexts (n : ℕ) (ev : HttpMsg) : ℕ × Response :=
  (n + 1, ⟨[ev.hm.uri, ascii "!"], none, false⟩)

end Csrv.Mongoose
