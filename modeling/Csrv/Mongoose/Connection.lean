import Csrv.Lib.Run
import Csrv.Mongoose.HttpCb
import Csrv.Mongoose.Iobuf

/-!
# A connection and its event loop

What `mg_mgr_poll` does with one accepted connection: `read_conn`, `write_conn`, `static_cb` and
`http_cb` work on the two buffers, and `close_conn` ends it. A `Poll` says what the sockets and
the allocator do during one iteration; the handler is a function of its own state and the message.
-/

namespace Csrv.Mongoose

def mgMaxRecvBufSize : ℕ := 3 * 1024 * 1024

/-- What a handler does to the connection: the texts it sends, the file it leaves to `static_cb`
(from the position it has been set to), and whether it asks for the connection to be drained. -/
structure Response where
  sends : List Bytes
  file : Option Bytes
  isDraining : Bool
  deriving DecidableEq

/-- `struct mg_connection`, with the state of the handler. `pfn` is `http_cb`, or `static_cb` with
what is left of its file. -/
structure Conn (τ : Type*) where
  recv : Iobuf
  send : Iobuf
  pfn : Option Bytes
  isDraining : Bool
  isClosing : Bool
  usr : τ

/-- What `recv` and `send` return: there is nothing to do yet, an error or the end of the stream,
or a number of bytes. -/
inductive Io
  | wouldBlock
  | gone
  | bytes (n : ℕ)

/-- One iteration of `mg_mgr_poll`: which sockets `select` reports, what they return, and the
sizes that the allocator can serve. -/
structure Poll where
  readable : Option Io
  writable : Option Io
  calloc : ℕ → Bool

/-- A connection, what its peer has sent and it has not read yet, and what it has written. -/
structure World (τ : Type*) where
  conn : Conn τ
  net : Bytes
  wire : Bytes
  isOpen : Bool

variable {σ τ : Type*}

/-- The same connection with another handler. -/
def Conn.withUsr (c : Conn σ) (usr : τ) : Conn τ :=
  ⟨c.recv, c.send, c.pfn, c.isDraining, c.isClosing, usr⟩

def World.withUsr (w : World σ) (usr : τ) : World τ := ⟨w.conn.withUsr usr, w.net, w.wire, w.isOpen⟩

/-! ## The handler -/

def mgSend (calloc : ℕ → Bool) (c : Conn τ) (buf : Bytes) : Conn τ :=
  { c with send := (mgIobufAppend calloc c.send buf).2 }

/-- `mg_call` of `MG_EV_HTTP_MSG`: a file replaces the one that may be there. -/
def httpMsgEvent (fn : τ → HttpMsg → τ × Response) (calloc : ℕ → Bool) (c : Conn τ)
    (ev : HttpMsg) : Conn τ :=
  let (usr, r) := fn c.usr ev
  let c := r.sends.foldl (mgSend calloc) { c with usr }
  { c with
    pfn := r.file.or c.pfn
    isDraining := c.isDraining || r.isDraining }

/-! ## `http_cb` -/

/-- A round of `http_cb` adds nothing to the receive buffer. -/
theorem length_httpRound_le {close : Bool} {s : Bytes} :
    (∀ recv, httpRound close s = .wait recv → recv.length ≤ s.length) ∧
      ∀ ev recv, httpRound close s = .message ev recv → recv.length ≤ s.length := by
  have hw := length_walkchunks_le s
  unfold httpRound
  cases mgHttpParse s with
  | none =>
    constructor
    · intro recv h
      simp only at h
      split_ifs at h
      cases h
      exact Nat.le_refl _
    · intro ev recv h
      simp only at h
      split_ifs at h
  | some hm =>
    have hwm := hw hm
    constructor
    · intro recv h
      simp only at h
      split_ifs at h <;> cases h <;> first | exact Nat.le_refl _ | exact hwm
    · intro ev recv h
      simp only at h
      split_ifs at h <;> cases h <;> rw [List.length_drop] <;>
        first | exact Nat.sub_le _ _ | exact (Nat.sub_le _ _).trans hwm

/-- `mg_error`, whose event the handler ignores. -/
def mgError (c : Conn τ) : Conn τ := { c with isClosing := true }

/-- The loop of `http_cb`. -/
def httpCbLoop (fn : τ → HttpMsg → τ × Response) (calloc : ℕ → Bool) (close : Bool) :
    ℕ → Conn τ → Option (Conn τ)
  | 0, _ => none
  | fuel + 1, c =>
    match h : httpRound close c.recv.buf with
    | .error => some (mgError c)
    | .wait recv =>
      some { c with
        recv := ⟨c.recv.size, recv, (length_httpRound_le.1 _ h).trans c.recv.length_le⟩ }
    | .message ev recv =>
      httpCbLoop fn calloc close fuel
        { httpMsgEvent fn calloc c ev with
          recv := ⟨c.recv.size, recv, (length_httpRound_le.2 _ _ h).trans c.recv.length_le⟩ }

section Loop

variable {fn : τ → HttpMsg → τ × Response} {calloc : ℕ → Bool} {close : Bool} {c : Conn τ}
  {recv : Bytes} {ev : HttpMsg} (fuel : ℕ)

theorem httpCbLoop_error (h : httpRound close c.recv.buf = .error) :
    httpCbLoop fn calloc close (fuel + 1) c = some (mgError c) := by
  unfold httpCbLoop
  split
  · rfl
  · rename_i h'; cases h.symm.trans h'
  · rename_i h'; cases h.symm.trans h'

theorem httpCbLoop_wait (h : httpRound close c.recv.buf = .wait recv) :
    httpCbLoop fn calloc close (fuel + 1) c = some { c with
      recv := ⟨c.recv.size, recv, (length_httpRound_le.1 _ h).trans c.recv.length_le⟩ } := by
  unfold httpCbLoop
  split
  · rename_i h'; cases h.symm.trans h'
  · rename_i h'; cases h.symm.trans h'; rfl
  · rename_i h'; cases h.symm.trans h'

theorem httpCbLoop_message (h : httpRound close c.recv.buf = .message ev recv) :
    httpCbLoop fn calloc close (fuel + 1) c =
      httpCbLoop fn calloc close fuel { httpMsgEvent fn calloc c ev with
        recv := ⟨c.recv.size, recv, (length_httpRound_le.2 _ _ h).trans c.recv.length_le⟩ } := by
  conv_lhs => unfold httpCbLoop
  split
  · rename_i h'; cases h.symm.trans h'
  · rename_i h'; cases h.symm.trans h'
  · rename_i h'; cases h.symm.trans h'; rfl

end Loop

/-- `http_cb` at `MG_EV_READ` and `MG_EV_CLOSE`; `none` is a loop that does not end. -/
def httpCb (fn : τ → HttpMsg → τ × Response) (calloc : ℕ → Bool) (close : Bool) (c : Conn τ) :
    Option (Conn τ) := httpCbLoop fn calloc close (c.recv.buf.length + 1) c

/-! ## `static_cb` -/

/-- The send buffer that `static_cb` reads into. -/
def roomToSend (calloc : ℕ → Bool) (send : Iobuf) : Iobuf :=
  if h : send.size < 2 * mgIoSize then
    (mgIobufResize calloc send (2 * mgIoSize) (.inr (send.length_le.trans h.le))).2
  else send

theorem roomToSend_buf (calloc : ℕ → Bool) (send : Iobuf) :
    (roomToSend calloc send).buf = send.buf := by
  unfold roomToSend
  split_ifs
  · exact mgIobufResize_buf _ (by decide)
  · rfl

theorem room_le (io : Iobuf) (d : Bytes) {n : ℕ} (h : n ≤ io.size - io.buf.length) :
    io.buf.length + (d.take n).length ≤ io.size := by
  have := io.length_le
  rw [List.length_take]
  omega

/-- `static_cb` at `MG_EV_WRITE` and `MG_EV_POLL`, with what is left of its file. -/
def staticCb (calloc : ℕ → Bool) (c : Conn τ) (fd : Bytes) : Conn τ :=
  let send := roomToSend calloc c.send
  if send.buf.length ≥ send.size then { c with send }
  else
    let n := send.size - send.buf.length
    let send := send.push (fd.take n) (room_le send fd (Nat.le_refl _))
    { c with
      send
      pfn := if send.buf.length < send.size then none else some (fd.drop n) }

/-- `mg_call` of `MG_EV_WRITE` or `MG_EV_POLL`. -/
def pollEvent (calloc : ℕ → Bool) (c : Conn τ) : Conn τ :=
  match c.pfn with
  | none => c
  | some fd => staticCb calloc c fd

/-- `mg_call` of `MG_EV_READ`. -/
def readEvent (fn : τ → HttpMsg → τ × Response) (calloc : ℕ → Bool) (c : Conn τ) :
    Option (Conn τ) :=
  match c.pfn with
  | none => httpCb fn calloc false c
  | some _ => some c

/-- `mg_call` of `MG_EV_CLOSE`. -/
def closeEvent (fn : τ → HttpMsg → τ × Response) (calloc : ℕ → Bool) (c : Conn τ) :
    Option (Conn τ) :=
  match c.pfn with
  | none => httpCb fn calloc true c
  | some _ => some { c with pfn := none }

/-! ## The event loop -/

/-- The receive buffer before `recv` is called, with a chunk of room; `none` is out of memory. -/
def roomToRead (calloc : ℕ → Bool) (io : Iobuf) : Option Iobuf :=
  if io.size - io.buf.length < mgIoSize then
    let r := mgIobufResize calloc io (io.size + mgIoSize)
      (.inr (io.length_le.trans (Nat.le_add_right _ _)))
    if r.1 then some r.2 else none
  else some io

def readConn (fn : τ → HttpMsg → τ × Response) (calloc : ℕ → Bool) (io : Io) (w : World τ) :
    Option (World τ) :=
  if w.conn.recv.buf.length ≥ mgMaxRecvBufSize then some { w with conn := mgError w.conn }
  else
    match roomToRead calloc w.conn.recv with
    | none => some { w with conn := mgError w.conn }
    | some recv =>
      match io with
      | .wouldBlock => some { w with conn := { w.conn with recv } }
      | .gone => some { w with conn := { w.conn with recv, isClosing := true } }
      | .bytes n =>
        let got := w.net.take (min n (recv.size - recv.buf.length))
        if got.length = 0 then some { w with conn := { w.conn with recv } }
        else
          (readEvent fn calloc { w.conn with
            recv := recv.push got (room_le recv w.net (Nat.min_le_right _ _)) }).map fun conn =>
              { w with conn, net := w.net.drop got.length }

/-- The send buffer after `n` bytes have been written. -/
def sentBuf (calloc : ℕ → Bool) (send : Iobuf) (n : ℕ) : Iobuf :=
  let send := mgIobufDelete send n
  if send.buf.length = 0 then (mgIobufResize calloc send 0 (.inl rfl)).2 else send

theorem sentBuf_buf (calloc : ℕ → Bool) (send : Iobuf) (n : ℕ) :
    (sentBuf calloc send n).buf = send.buf.drop n := by
  unfold sentBuf
  simp only
  split_ifs with hdone
  · exact (List.length_eq_zero_iff.mp hdone).symm
  · rfl

/-- `write_conn`, where there is something to send. -/
def writeConn (calloc : ℕ → Bool) (io : Io) (w : World τ) : World τ :=
  match io with
  | .wouldBlock => w
  | .gone => { w with conn := { w.conn with isClosing := true } }
  | .bytes n =>
    let sent := w.conn.send.buf.take n
    if sent.length = 0 then w
    else
      { w with
        conn := pollEvent calloc { w.conn with send := sentBuf calloc w.conn.send sent.length }
        wire := w.wire ++ sent }

def closeConn (fn : τ → HttpMsg → τ × Response) (calloc : ℕ → Bool) (w : World τ) :
    Option (World τ) :=
  (closeEvent fn calloc w.conn).map fun conn =>
    { w with conn := { conn with recv := .empty, send := .empty }, isOpen := false }

def pollRead (fn : τ → HttpMsg → τ × Response) (p : Poll) (w : World τ) : Option (World τ) :=
  match p.readable with
  | none => some w
  | some io => readConn fn p.calloc io w

def pollWrite (p : Poll) (watched : Bool) (w : World τ) : World τ :=
  match p.writable with
  | none => w
  | some io => if watched then writeConn p.calloc io w else w

/-- The end of an iteration. -/
def pollEnd (fn : τ → HttpMsg → τ × Response) (calloc : ℕ → Bool) (w : World τ) :
    Option (World τ) :=
  let closing := w.conn.isClosing || (w.conn.isDraining && w.conn.send.buf.length = 0)
  let w : World τ := { w with conn := { w.conn with isClosing := closing } }
  if closing then closeConn fn calloc w else some w

/-- The sockets of a connection: `read_conn`, then `write_conn`. -/
def pollSockets (fn : τ → HttpMsg → τ × Response) (p : Poll) (watched : Bool) (w : World τ) :
    Option (World τ) :=
  if w.conn.isClosing then some w else (pollRead fn p w).map (pollWrite p watched)

/-- What an iteration of `mg_mgr_poll` does with the connection. `select` watches the socket for
writing if there was something to send before the iteration. -/
def mgMgrPoll (fn : τ → HttpMsg → τ × Response) (w : World τ) (p : Poll) : Option (World τ) :=
  if w.isOpen then
    (pollSockets fn p (0 < w.conn.send.buf.length)
      { w with conn := pollEvent p.calloc w.conn }).bind (pollEnd fn p.calloc)
  else some w

/-- A connection as `accept_conn` leaves it; the peer is going to send `net`. -/
def accepted (usr : τ) (net : Bytes) : World τ :=
  ⟨⟨.empty, .empty, none, false, false, usr⟩, net, [], true⟩

end Csrv.Mongoose
