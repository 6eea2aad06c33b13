import Csrv.Mongoose.Session
import Mathlib.Logic.Relation

/-!
# When a connection makes progress

* `httpCb_hangs_iff`: `http_cb` goes round for ever iff it comes to a message whose length it
  takes for zero; `messageLen_eq_zero_iff` says which these are.
* `stalled`: once the peer has sent everything, what is in the receive buffer stays there.
* `eventually_answered`: a peer that reads and writes gets all its answers.
-/

namespace Csrv.Mongoose

open Incremental (Drains)

variable {τ : Type*} {fn : τ → HttpMsg → τ × Response} {calloc : ℕ → Bool} {c : Conn τ} {u : τ}

/-! ## Loops that do not end -/

/-- `http_cb` gets from one receive buffer to the other. -/
def Rounds : Bytes → Bytes → Prop :=
  Relation.ReflTransGen fun s t => ∃ ev, httpRound false s = .message ev t

/-- A message at the front of the buffer whose length is taken for zero. -/
def Stuck (s : Bytes) : Prop :=
  ∃ hm, mgHttpParse s = some hm ∧ hm.messageLen = 0 ∧
    (mgIsChunked hm = true → lastChunk s hm.headLen = none)

section Rounds

variable {s t : Bytes} {ev : HttpMsg}

theorem headLen_le {hm : HttpMessage} (h : mgHttpParse s = some hm) : hm.headLen ≤ s.length := by
  obtain ⟨hpos, hlen⟩ := requestLen_of_parse h
  have hle : mgHttpGetRequestLen s ≤ (0 : ℕ) + s.length := requestLenLoop_le
  rw [hlen]
  omega

theorem headLen_pos {hm : HttpMessage} (h : mgHttpParse s = some hm) : 0 < hm.headLen := by
  obtain ⟨hpos, hlen⟩ := requestLen_of_parse h
  rw [hlen]
  omega

theorem httpRound_of_stuck (h : Stuck s) : ∃ ev, httpRound false s = .message ev s := by
  obtain ⟨hm, hp, hlen, hc⟩ := h
  refine ⟨httpMsg s hm, ?_⟩
  unfold httpRound
  rw [hp]
  cases hchunked : mgIsChunked hm with
  | false => simp [hchunked, hlen]
  | true => simp [hchunked, walkchunks_of_none (hc hchunked), hlen]

/-- A round takes bytes from the buffer, unless it is stuck. -/
theorem length_lt_of_round (h : httpRound false s = .message ev t) (hs : ¬ Stuck s) :
    t.length < s.length := by
  unfold httpRound at h
  cases hp : mgHttpParse s with
  | none =>
    rw [hp] at h
    simp only at h
    split_ifs at h
  | some hm =>
    have hpos := headLen_pos hp
    have hle := length_walkchunks_le s hm
    rw [hp] at h
    cases hchunked : mgIsChunked hm with
    | false =>
      have hlen : hm.messageLen ≠ 0 := fun h0 => hs ⟨hm, hp, h0, fun h => by simp [hchunked] at h⟩
      simp only [hchunked, Bool.false_eq_true, if_false] at h
      split_ifs at h with hall
      cases h
      rw [List.length_drop]
      omega
    | true =>
      simp only [hchunked, Bool.false_eq_true, if_false, if_true] at h
      have hlen : (walkchunks s hm).2.messageLen ≠ 0 := by
        cases hlast : lastChunk s hm.headLen with
        | none =>
          rw [walkchunks_of_none hlast]
          exact fun h0 => hs ⟨hm, hp, h0, fun _ => hlast⟩
        | some cl =>
          have := headLen_le_messageLen_walkchunks hlast
          omega
      split_ifs at h with hall
      cases h
      rw [List.length_drop]
      omega

theorem httpCbLoop_of_stuck (h : Rounds s t) (ht : Stuck t) (fuel : ℕ) (hs : c.recv.buf = s) :
    httpCbLoop fn calloc false fuel c = none := by
  induction fuel generalizing c s with
  | zero => rfl
  | succ fuel ih =>
    rcases h.cases_head with rfl | ⟨s', ⟨ev, hround⟩, h'⟩
    · obtain ⟨ev, hround⟩ := httpRound_of_stuck ht
      rw [← hs] at hround
      rw [httpCbLoop_message fuel hround]
      exact ih .refl hs
    · rw [← hs] at hround
      rw [httpCbLoop_message fuel hround]
      exact ih h' rfl

theorem httpCbLoop_ne_none {fuel : ℕ} (hs : c.recv.buf = s) (hfuel : s.length < fuel)
    (hfree : ∀ t, Rounds s t → ¬ Stuck t) : httpCbLoop fn calloc false fuel c ≠ none := by
  induction fuel generalizing c s with
  | zero => exact absurd hfuel (Nat.not_lt_zero _)
  | succ fuel ih =>
    subst hs
    cases hround : httpRound false c.recv.buf with
    | error => rw [httpCbLoop_error fuel hround]; exact Option.some_ne_none _
    | wait recv => rw [httpCbLoop_wait fuel hround]; exact Option.some_ne_none _
    | message ev recv =>
      rw [httpCbLoop_message fuel hround]
      have hlt := length_lt_of_round hround (hfree _ .refl)
      exact ih rfl (by show recv.length < fuel; omega)
        fun t ht => hfree t (.head ⟨ev, hround⟩ ht)

end Rounds

theorem lt_requestLenLoop {s : Bytes} {i : ℕ} {p2 p1 : Option UInt8}
    (h : 0 < requestLenLoop i p2 p1 s) : (i : ℤ) < requestLenLoop i p2 p1 s := by
  induction s generalizing i p2 p1 with
  | nil => exact absurd h (lt_irrefl _)
  | cons b s ih =>
    have hrec := @ih (i + 1) p1 (some b)
    rw [requestLenLoop] at h ⊢
    by_cases hbad : (!isprint b && b ≠ 0x0d && b ≠ 0x0a && b < 128) = true
    · rw [if_pos hbad] at h
      omega
    · rw [if_neg hbad] at h ⊢
      split_ifs at h ⊢
      · omega
      · have := hrec h
        push_cast at this
        omega

/-- A head has at least two bytes. -/
theorem one_lt_headLen {s : Bytes} {hm : HttpMessage} (h : mgHttpParse s = some hm) :
    1 < hm.headLen := by
  obtain ⟨hpos, hlen⟩ := requestLen_of_parse h
  rw [hlen]
  cases s with
  | nil => exact absurd hpos (lt_irrefl _)
  | cons b s =>
    unfold mgHttpGetRequestLen at hpos ⊢
    rw [requestLenLoop] at hpos ⊢
    by_cases hbad : (!isprint b && b ≠ 0x0d && b ≠ 0x0a && b < 128) = true
    · rw [if_pos hbad] at hpos
      omega
    · rw [if_neg hbad, if_neg (by simp)] at hpos ⊢
      have := lt_requestLenLoop hpos
      omega

theorem requestLens_eq_zero_iff {p q : Prop} [Decidable p] [Decidable q] {n b : ℕ} (hn : 1 < n)
    (hlt : n < 2 ^ 31) :
    (if b = sizeMax ∧ p then (0, n) else if b = sizeMax ∧ q then (0, n)
      else (b, (n + b) % 2 ^ 64)).2 = 0 ↔ (n + b) % 2 ^ 64 = 0 := by
  unfold sizeMax
  split_ifs with hp hq
  · exact iff_of_false (by omega) (by omega)
  · exact iff_of_false (by omega) (by omega)
  · rfl

theorem bodyLengths_eq_zero_iff {s method uri : Bytes} {n : ℕ} {cl : Option Bytes} (hn : 1 < n)
    (hlt : n < 2 ^ 31) : (bodyLengths s n method uri cl).2 = 0 ↔
      ∃ v, cl = some v ∧ ((n : ℤ) + mgTo64 v) % 2 ^ 64 = 0 := by
  unfold bodyLengths
  cases cl with
  | none =>
    simp only
    split_ifs
    · exact iff_of_false (by omega) (by simp)
    · exact iff_of_false (by omega) (by simp)
    · exact iff_of_false (by decide) (by simp)
  | some v =>
    have h0 : 0 ≤ mgTo64 v % 2 ^ 64 := Int.emod_nonneg _ (by decide)
    have hb : ((mgTo64 v % 2 ^ 64).toNat : ℤ) = mgTo64 v % 2 ^ 64 := Int.toNat_of_nonneg h0
    have hmod : ((n : ℤ) + mgTo64 v) % 2 ^ 64 = ((n : ℤ) + (mgTo64 v % 2 ^ 64).toNat) % 2 ^ 64 := by
      rw [hb]
      exact (Int.add_emod_emod _ _ _).symm
    simp only [Option.some.injEq, exists_eq_left']
    rw [hmod, requestLens_eq_zero_iff hn hlt]
    omega

/-- When the length of a message is taken for zero: its `Content-Length` is the length of its head
below zero. -/
theorem messageLen_eq_zero_iff {s : Bytes} {hm : HttpMessage} (h : mgHttpParse s = some hm)
    (hs : s.length < 2 ^ 31) :
    hm.messageLen = 0 ↔ ∃ cl, mgHttpGetHeader hm.headers (ascii "Content-Length") = some cl ∧
      ((hm.headLen : ℤ) + mgTo64 cl) % 2 ^ 64 = 0 := by
  have hone := one_lt_headLen h
  have hlt := Nat.lt_of_le_of_lt (headLen_le h) hs
  simp only [mgHttpParse] at h
  split_ifs at h with hlen
  obtain rfl := Option.some.inj h
  simp only at hone hlt ⊢
  rw [bodyLengths_eq_zero_iff hone hlt]

theorem length_le_of_rounds {s t : Bytes} (h : Rounds s t) : t.length ≤ s.length := by
  induction h with
  | refl => exact Nat.le_refl _
  | tail _ hround ih =>
    obtain ⟨ev, hround⟩ := hround
    exact (length_httpRound_le.2 _ _ hround).trans ih

/-- **Loops without end.** A connection hangs the server iff, behind messages that it takes from
the buffer, it comes to one whose `Content-Length` is the length of its head below zero. -/
theorem httpCb_hangs_iff (fn : τ → HttpMsg → τ × Response) (calloc : ℕ → Bool) (c : Conn τ)
    (hlt : c.recv.buf.length < 2 ^ 31) :
    (∀ fuel, httpCbLoop fn calloc false fuel c = none) ↔ ∃ s hm, Rounds c.recv.buf s ∧
      mgHttpParse s = some hm ∧ (mgIsChunked hm = true → lastChunk s hm.headLen = none) ∧
      ∃ cl, mgHttpGetHeader hm.headers (ascii "Content-Length") = some cl ∧
        ((hm.headLen : ℤ) + mgTo64 cl) % 2 ^ 64 = 0 := by
  constructor
  · intro h
    by_contra hno
    refine httpCbLoop_ne_none rfl (Nat.lt_succ_self _) (fun t ht hstuck => hno ?_)
      (h (c.recv.buf.length + 1))
    obtain ⟨hm, hp, hlen, hc⟩ := hstuck
    exact ⟨t, hm, ht, hp, hc,
      (messageLen_eq_zero_iff hp ((length_le_of_rounds ht).trans_lt hlt)).mp hlen⟩
  · rintro ⟨s, hm, hr, hp, hc, hcl⟩ fuel
    have hlen := (messageLen_eq_zero_iff hp ((length_le_of_rounds hr).trans_lt hlt)).mpr hcl
    exact httpCbLoop_of_stuck hr ⟨hm, hp, hlen, hc⟩ fuel rfl

theorem httpCb_hangs_iff_request :
    (fun fuel => httpCbLoop (fun (n : ℕ) _ => (n + 1, ⟨[], none, false⟩)) (fun _ => true) false fuel
      ⟨⟨2048, ascii "GET / HTTP/1.1\r\nContent-Length: -39\r\n\r\n", by decide⟩, .empty, none,
        false, false, 0⟩) = fun _ => none :=
  funext <| (httpCb_hangs_iff _ _ _ (by decide)).mpr
    ⟨ascii "GET / HTTP/1.1\r\nContent-Length: -39\r\n\r\n",
      ⟨ascii "GET", ascii "/", [], ascii "HTTP/1.1", [⟨ascii "Content-Length", ascii "-39"⟩], 39,
        2 ^ 64 - 39, 0⟩,
      .refl, by decide +kernel, by decide, ascii "-39", by decide, by decide⟩

/-! ## Requests that wait -/

section Stalled

variable {w w' : World τ}

/-- The peer has sent everything, and the connection has taken nothing more from its buffer. -/
def Stays (w w' : World τ) : Prop :=
  w'.net = [] ∧ (w'.isOpen = true → w.isOpen = true ∧ w'.conn.usr = w.conn.usr ∧
    w'.conn.recv.buf = w.conn.recv.buf)

theorem stays_readConn {io : Io} (hnet : w.net = []) (h : readConn fn calloc io w = some w') :
    Stays w w' ∧ w'.isOpen = w.isOpen := by
  unfold readConn at h
  split_ifs at h with hmax
  · cases h
    exact ⟨⟨hnet, fun ho => ⟨ho, rfl, rfl⟩⟩, rfl⟩
  · cases hroom : roomToRead calloc w.conn.recv with
    | none =>
      rw [hroom] at h
      cases h
      exact ⟨⟨hnet, fun ho => ⟨ho, rfl, rfl⟩⟩, rfl⟩
    | some recv =>
      have hrecv := roomToRead_buf hroom
      rw [hroom] at h
      cases io with
      | wouldBlock =>
        cases h
        exact ⟨⟨hnet, fun ho => ⟨ho, rfl, hrecv⟩⟩, rfl⟩
      | gone =>
        cases h
        exact ⟨⟨hnet, fun ho => ⟨ho, rfl, hrecv⟩⟩, rfl⟩
      | bytes n =>
        simp only [hnet, List.take_nil, List.length_nil, if_true] at h
        cases h
        exact ⟨⟨rfl, fun ho => ⟨ho, rfl, hrecv⟩⟩, rfl⟩

theorem stays_pollRead {p : Poll} (hnet : w.net = []) (h : pollRead fn p w = some w') :
    Stays w w' ∧ w'.isOpen = w.isOpen := by
  unfold pollRead at h
  cases hr : p.readable with
  | none =>
    rw [hr] at h
    cases h
    exact ⟨⟨hnet, fun ho => ⟨ho, rfl, rfl⟩⟩, rfl⟩
  | some io =>
    rw [hr] at h
    exact stays_readConn hnet h

theorem stays_pollWrite (p : Poll) (watched : Bool) (hnet : w.net = []) :
    Stays w (pollWrite p watched w) ∧ (pollWrite p watched w).isOpen = w.isOpen := by
  unfold pollWrite
  cases p.writable with
  | none => exact ⟨⟨hnet, fun ho => ⟨ho, rfl, rfl⟩⟩, rfl⟩
  | some io =>
    cases watched with
    | false => exact ⟨⟨hnet, fun ho => ⟨ho, rfl, rfl⟩⟩, rfl⟩
    | true =>
      obtain ⟨hn, husr, hrecv⟩ := writeConn_frame p.calloc io w
      refine ⟨⟨hn.trans hnet, fun ho => ⟨?_, husr, congrArg Iobuf.buf hrecv⟩⟩, isOpen_writeConn io⟩
      exact (isOpen_writeConn io).symm.trans ho

theorem Stays.trans {w₁ w₂ w₃ : World τ} (h : Stays w₁ w₂) (h' : Stays w₂ w₃) : Stays w₁ w₃ := by
  refine ⟨h'.1, fun ho => ?_⟩
  obtain ⟨ho', husr, hrecv⟩ := h'.2 ho
  obtain ⟨ho'', husr', hrecv'⟩ := h.2 ho'
  exact ⟨ho'', husr.trans husr', hrecv.trans hrecv'⟩

theorem stays_pollEnd (hnet : w.net = []) (h : pollEnd fn calloc w = some w') : Stays w w' := by
  unfold pollEnd at h
  simp only at h
  split_ifs at h with hend
  · unfold closeConn at h
    obtain ⟨d, -, rfl⟩ := Option.map_eq_some_iff.mp h
    exact ⟨hnet, fun ho => by cases ho⟩
  · cases h
    exact ⟨hnet, fun ho => ⟨ho, rfl, rfl⟩⟩

theorem stays_mgMgrPoll {p : Poll} (hnet : w.net = []) (h : mgMgrPoll fn w p = some w') :
    Stays w w' := by
  unfold mgMgrPoll at h
  split_ifs at h with hopen
  · have hpoll : Stays w { w with conn := pollEvent p.calloc w.conn } := by
      obtain ⟨hrecv, husr, -⟩ := pollEvent_frame p.calloc w.conn
      exact ⟨hnet, fun ho => ⟨ho, husr, congrArg Iobuf.buf hrecv⟩⟩
    obtain ⟨w₁, h₁, hend⟩ := Option.bind_eq_some_iff.mp h
    unfold pollSockets at h₁
    split_ifs at h₁ with hclosing
    · cases h₁
      exact hpoll.trans (stays_pollEnd hnet hend)
    · obtain ⟨w₂, h₂, rfl⟩ := Option.map_eq_some_iff.mp h₁
      have hread := (stays_pollRead hpoll.1 h₂).1
      have hwrite := (stays_pollWrite p (0 < w.conn.send.buf.length) hread.1).1
      exact hpoll.trans (hread.trans (hwrite.trans (stays_pollEnd hwrite.1 hend)))
  · cases h
    exact ⟨hnet, fun ho => ⟨ho, rfl, rfl⟩⟩

/-- **Requests that wait.** Once the peer has sent everything, no request is taken from the receive
buffer any more, however long the event loop goes on: what arrived while a file was being sent is
not answered before the connection closes. -/
theorem stalled {ps : List Poll} (hnet : w.net = [])
    (h : Run.exec (mgMgrPoll fn) w ps = some w') (hopen : w'.isOpen = true) :
    w'.conn.usr = w.conn.usr ∧ w'.conn.recv.buf = w.conn.recv.buf := by
  have hstays : Stays w w' := by
    induction ps generalizing w with
    | nil => cases h; exact ⟨hnet, fun ho => ⟨ho, rfl, rfl⟩⟩
    | cons p ps ih =>
      obtain ⟨w₁, h₁, h₂⟩ := Option.bind_eq_some_iff.mp h
      have hs := stays_mgMgrPoll hnet h₁
      exact hs.trans (ih hs.1 h₂)
  exact (hstays.2 hopen).2

/-- A second request behind a file of a page. -/
theorem stalled_behind_file :
    ∃ w w', Run.exec
        (mgMgrPoll fun (n : ℕ) _ => (n + 1, ⟨[], some (List.replicate 4096 0x61), false⟩))
        (accepted 0 (ascii "GET /a HTTP/1.1\r\n\r\nGET /b HTTP/1.1\r\n\r\n"))
        [⟨some (.bytes 19), none, fun _ => true⟩, ⟨some (.bytes 19), none, fun _ => true⟩] =
          some w ∧
      Run.exec (mgMgrPoll fun (n : ℕ) _ => (n + 1, ⟨[], some (List.replicate 4096 0x61), false⟩))
        w [⟨none, some (.bytes 4096), fun _ => true⟩, ⟨some (.bytes 19), none, fun _ => true⟩] =
          some w' ∧
      w'.conn.pfn = none ∧ w.conn.usr = 1 ∧ w'.conn.usr = w.conn.usr ∧
      w'.conn.recv.buf = w.conn.recv.buf := by
  obtain ⟨w, hw, h⟩ := Option.bind_eq_some_iff.mp (show (Run.exec
      (mgMgrPoll fun (n : ℕ) _ => (n + 1, ⟨[], some (List.replicate 4096 0x61), false⟩))
      (accepted 0 (ascii "GET /a HTTP/1.1\r\n\r\nGET /b HTTP/1.1\r\n\r\n"))
      [⟨some (.bytes 19), none, fun _ => true⟩, ⟨some (.bytes 19), none, fun _ => true⟩]).bind
        (fun w => (Run.exec
          (mgMgrPoll fun (n : ℕ) _ => (n + 1, ⟨[], some (List.replicate 4096 0x61), false⟩)) w
          [⟨none, some (.bytes 4096), fun _ => true⟩, ⟨some (.bytes 19), none, fun _ => true⟩]).map
            fun w' => (w.net, w.conn.usr, w'.isOpen, w'.conn.pfn)) = some ([], 1, true, none) by
    decide +kernel)
  obtain ⟨w', hw', heq⟩ := Option.map_eq_some_iff.mp h
  simp only [Prod.mk.injEq] at heq
  obtain ⟨hnet, husr, hopen, hpfn⟩ := heq
  exact ⟨w, w', hw, hw', hpfn, husr, stalled hnet hw' hopen⟩

end Stalled

/-! ## Answers in the end -/

/-- An iteration in which the peer reads and writes and no allocation fails. -/
structure Serves (p : Poll) : Prop where
  readable : ∃ n, p.readable = some (.bytes (n + 1))
  writable : ∃ n, p.writable = some (.bytes (n + 1))
  allocates : Allocates p.calloc

/-- What is left after any part of the stream does not reach the limit of the receive buffer. -/
def Fits (net : Bytes) : Prop :=
  ∀ taken left is rest, net = taken ++ left → Drains request taken is rest none →
    rest.length < mgMaxRecvBufSize

theorem fits_of_length_lt {net : Bytes} (h : net.length < mgMaxRecvBufSize) : Fits net := by
  rintro taken left is rest rfl hd
  rw [List.length_append] at h
  have := hd.length_rest_le
  omega

/-- A connection that nothing has stopped. -/
structure Answering (fn : τ → HttpMsg → τ × Response) (u : τ) (net : Bytes) (g : Progress)
    (w : World τ) : Prop where
  alive : Alive fn u net True g w
  isOpen : w.isOpen = true
  isClosing : w.conn.isClosing = false
  isDraining : w.conn.isDraining = false

section Answering

variable {net : Bytes} {g : Progress} {w : World τ}

theorem Alive.drains_buf (hf : NoFile fn) (h : Alive fn u net True g w)
    (hclosing : w.conn.isClosing = false) :
    net = g.taken ++ w.net ∧ Drains request g.taken g.batches.flatten w.conn.recv.buf none ∧
      w.wire ++ w.conn.send.buf = (batch fn u g.batches.flatten).2.1.flatten := by
  obtain ⟨hpfn, hwait⟩ := h.waiting hf
  have hstream := h.stream
  have hdrains := h.drains
  have hsent := h.sent
  rw [hwait, List.nil_append] at hstream
  rw [h.stop_eq_none hclosing] at hdrains
  rw [hpfn, Option.getD_none, List.append_nil, h.accepted.full trivial,
    pieces_of_noFile hf] at hsent
  rw [h.recv, hwait, List.append_nil]
  exact ⟨hstream, hdrains, hsent⟩

theorem roomToRead_of_allocates (hc : Allocates calloc) (io : Iobuf) :
    ∃ io', roomToRead calloc io = some io' ∧ io'.buf = io.buf ∧ io'.buf.length < io'.size := by
  unfold roomToRead
  have hle := io.length_le
  split_ifs with hsmall
  · obtain ⟨hok, hsize⟩ := @mgIobufResize_of_calloc calloc io (io.size + mgIoSize)
      (.inr (hle.trans (Nat.le_add_right _ _))) (hc _)
    have hbuf := @mgIobufResize_buf calloc io (io.size + mgIoSize)
      (.inr (hle.trans (Nat.le_add_right _ _))) (Nat.add_one_ne_zero _)
    simp only [hok, if_true]
    refine ⟨_, rfl, hbuf, ?_⟩
    rw [hbuf, hsize]
    exact Nat.lt_of_le_of_lt hle (Nat.lt_add_of_pos_right (by decide))
  · refine ⟨io, rfl, rfl, ?_⟩
    have : 0 < mgIoSize := by decide
    omega

/-- Reading with room for it takes something, if there is something. -/
theorem readConn_bytes (hlen : w.conn.recv.buf.length < mgMaxRecvBufSize)
    (hc : Allocates calloc) (n : ℕ) : ∃ recv : Iobuf,
      (w.net = [] ∧ recv.buf = w.conn.recv.buf ∧
        readConn fn calloc (.bytes (n + 1)) w = some { w with conn := { w.conn with recv } }) ∨
      ∃ got left, got ≠ [] ∧ recv.buf = w.conn.recv.buf ++ got ∧ w.net = got ++ left ∧
        readConn fn calloc (.bytes (n + 1)) w =
          (readEvent fn calloc { w.conn with recv }).map fun conn =>
            { w with conn, net := left } := by
  obtain ⟨io, hroom, hbuf, hlt⟩ := roomToRead_of_allocates hc w.conn.recv
  unfold readConn
  rw [if_neg (Nat.not_le.mpr hlen), hroom]
  simp only
  split_ifs with hempty
  · rw [List.length_take] at hempty
    exact ⟨io, .inl ⟨List.length_eq_zero_iff.mp (by omega), hbuf, rfl⟩⟩
  · refine ⟨_, .inr ⟨_, _, fun h0 => hempty (List.length_eq_zero_iff.mpr h0),
      congrArg (· ++ _) hbuf, ?_, rfl⟩⟩
    exact (List.prefix_iff_eq_append.mp (List.take_prefix _ _)).symm

theorem answering_pollRead (hf : NoFile fn) (hd : NoDrain fn)
    (hnet : ∃ js rest, Drains request net js rest none) (hfits : Fits net)
    (h : Answering fn u net g w) {p : Poll} (hp : Serves p) :
    ∃ w' g', pollRead fn p w = some w' ∧ Answering fn u net g' w' ∧ w'.wire = w.wire ∧
      w'.net.length ≤ w.net.length ∧ (w.net ≠ [] → w'.net.length < w.net.length) := by
  obtain ⟨n, hn⟩ := hp.readable
  obtain ⟨hstream, hdrains, -⟩ := h.alive.drains_buf hf h.isClosing
  have hlen := hfits _ _ _ _ hstream hdrains
  unfold pollRead
  rw [hn]
  obtain ⟨recv, ⟨hempty, hbuf, heq⟩ | ⟨got, left, hne, hrecv, hgot, heq⟩⟩ :=
    @readConn_bytes τ fn p.calloc w hlen hp.allocates n
  · refine ⟨_, g, heq, ⟨h.alive.congr hbuf rfl rfl rfl id, h.isOpen, h.isClosing, h.isDraining⟩,
      rfl, Nat.le_refl _, fun h0 => absurd hempty h0⟩
  · obtain ⟨js, rest, hjs⟩ := hnet
    obtain ⟨d, g', hd', hg', hclosing, hdraining, -⟩ :=
      alive_readEvent ⟨js, rest, none, hjs, by simp⟩ h.alive h.isClosing
        (fun _ => hp.allocates) hrecv hgot
    -- the stream never makes the parser stop
    have hstop : g'.stop = none := by
      cases hs : g'.stop with
      | none => rfl
      | some x =>
        have hdr := hg'.drains
        rw [hs] at hdr
        have hnet' := stable_request.halt_append hdr (g'.waiting ++ left)
        rw [← hg'.stream] at hnet'
        cases (hjs.unique hnet').2.2
    have hlt : left.length < w.net.length := by
      rw [hgot, List.length_append]
      have := List.length_pos_iff.mpr hne
      omega
    refine ⟨{ w with conn := d, net := left }, g', ?_, ⟨hg', h.isOpen, ?_, ?_⟩, rfl, hlt.le,
      fun _ => hlt⟩
    · exact heq.trans (by rw [hd']; rfl)
    · rw [hclosing, hstop]
      rfl
    · exact (hdraining hd).trans h.isDraining

theorem pollEvent_of_http (hpfn : c.pfn = none) : pollEvent calloc c = c := by
  unfold pollEvent
  rw [hpfn]

/-- Without a file to send, writing only moves bytes from the send buffer to the socket. -/
theorem writeConn_of_http (hpfn : w.conn.pfn = none) (n : ℕ) :
    ∃ send, writeConn calloc (.bytes n) w =
      { w with conn := { w.conn with send }, wire := w.wire ++ w.conn.send.buf.take n } := by
  have hpoll : ∀ send, pollEvent calloc { w.conn with send } = { w.conn with send } :=
    fun send => pollEvent_of_http hpfn
  unfold writeConn
  simp only [hpoll]
  split_ifs with hempty
  · refine ⟨w.conn.send, ?_⟩
    rw [List.length_eq_zero_iff.mp hempty, List.append_nil]
  · exact ⟨_, rfl⟩

/-- What is written in one iteration. -/
theorem answering_pollWrite (hf : NoFile fn) (h : Answering fn u net g w) {p : Poll}
    (hp : Serves p) (watched : Bool) :
    Answering fn u net g (pollWrite p watched w) ∧ (pollWrite p watched w).net = w.net ∧
      w.wire.length ≤ (pollWrite p watched w).wire.length ∧
      (watched = true → w.conn.send.buf ≠ [] →
        w.wire.length < (pollWrite p watched w).wire.length) := by
  obtain ⟨n, hn⟩ := hp.writable
  obtain ⟨halive, hopen⟩ := alive_pollWrite h.alive p watched
  obtain ⟨send, heq⟩ := @writeConn_of_http τ p.calloc w (h.alive.waiting hf).1 (n + 1)
  cases watched with
  | false =>
    have hsame : pollWrite p false w = w := by
      unfold pollWrite
      rw [hn]
      exact if_neg Bool.false_ne_true
    rw [hsame]
    exact ⟨h, rfl, Nat.le_refl _, fun h0 => by cases h0⟩
  | true =>
    have hwrite : pollWrite p true w = writeConn p.calloc (.bytes (n + 1)) w := by
      unfold pollWrite
      rw [hn]
      exact if_pos rfl
    rw [hwrite, heq] at halive ⊢
    refine ⟨⟨halive, h.isOpen, h.isClosing, h.isDraining⟩, rfl, ?_, fun _ hne => ?_⟩
    · rw [List.length_append]
      exact Nat.le_add_right _ _
    · rw [List.length_append, List.length_take]
      have := List.length_pos_iff.mpr hne
      omega

/-- What the peer has not sent and what it has not received. -/
def remaining (total : Bytes) (w : World τ) : ℕ := w.net.length + (total.length - w.wire.length)

theorem pollEnd_of_running (hclosing : w.conn.isClosing = false)
    (hdraining : w.conn.isDraining = false) : pollEnd fn calloc w = some w := by
  rcases w with ⟨⟨recv, send, pfn, draining, closing, usr⟩, left, wire, isOpen⟩
  obtain rfl : closing = false := hclosing
  obtain rfl : draining = false := hdraining
  rfl

section Whole

variable {is : List HttpMsg} {rest : Bytes} (hf : NoFile fn)
  (hnet : Drains request net is rest none)
include hf hnet

/-- The answers so far begin the answers to the whole stream. -/
theorem Answering.sent_prefix (h : Answering fn u net g w) :
    ∃ more, (batch fn u is).2.1.flatten = w.wire ++ w.conn.send.buf ++ more ∧
      (w.net = [] → more = [] ∧ w.conn.usr = (batch fn u is).1) := by
  obtain ⟨hstream, hdrains, hsent⟩ := h.alive.drains_buf hf h.isClosing
  have husr := h.alive.usr
  rw [pieces_of_noFile hf] at husr
  rw [hstream] at hnet
  obtain ⟨ks, rfl, hks⟩ := (stable_request.append hdrains).mp hnet
  refine ⟨(batch fn (batch fn u g.batches.flatten).1 ks).2.1.flatten, ?_, fun hempty => ?_⟩
  · rw [batch_append, hsent, List.flatten_append]
  · rw [hempty, List.append_nil] at hks
    obtain ⟨rfl, -⟩ := hks.unique (.more hdrains.more_rest)
    exact ⟨rfl, by rw [List.append_nil]; exact husr⟩

/-- An iteration brings the connection nearer to the end. -/
theorem answering_mgMgrPoll (hd : NoDrain fn) (hfits : Fits net) (h : Answering fn u net g w)
    {p : Poll} (hp : Serves p) :
    ∃ w' g', mgMgrPoll fn w p = some w' ∧ Answering fn u net g' w' ∧
      remaining (batch fn u is).2.1.flatten w' ≤ remaining (batch fn u is).2.1.flatten w - 1 := by
  obtain ⟨w₁, g₁, hread, h₁, hwire₁, hle₁, hlt₁⟩ := answering_pollRead hf hd ⟨_, _, hnet⟩ hfits h hp
  obtain ⟨h₂, hnet₂, hle₂, hlt₂⟩ := answering_pollWrite hf h₁ hp (0 < w.conn.send.buf.length)
  refine ⟨pollWrite p (0 < w.conn.send.buf.length) w₁, g₁, ?_, h₂, ?_⟩
  · unfold mgMgrPoll pollSockets
    rw [pollEvent_of_http (h.alive.waiting hf).1, if_pos h.isOpen,
      if_neg (by rw [h.isClosing]; exact Bool.false_ne_true), hread]
    exact pollEnd_of_running h₂.isClosing h₂.isDraining
  · obtain ⟨more, hmore, hall⟩ := h.sent_prefix hf hnet
    obtain ⟨more₁, hmore₁, hall₁⟩ := h₁.sent_prefix hf hnet
    have hlen := congrArg List.length hmore
    have hlen₁ := congrArg List.length hmore₁
    simp only [List.length_append] at hlen hlen₁
    unfold remaining
    rw [hnet₂]
    rw [hwire₁] at hle₂ hlt₂ hlen₁
    by_cases hempty : w.net = []
    · -- everything has been read: the answers are all in the send buffer
      have hempty₁ : w₁.net = [] := by
        rw [hempty] at hle₁
        exact List.length_eq_zero_iff.mp (Nat.le_zero.mp hle₁)
      rw [(hall hempty).1, List.length_nil] at hlen
      rw [(hall₁ hempty₁).1, List.length_nil] at hlen₁
      rw [hempty, hempty₁, List.length_nil]
      rcases Nat.eq_zero_or_pos w.conn.send.buf.length with h0 | hpos
      · omega
      · have := hlt₂ (by simpa using hpos) (List.length_pos_iff.mp (by omega))
        omega
    · have := hlt₁ hempty
      omega

theorem exec_answering (hd : NoDrain fn) (hfits : Fits net) {ps : List Poll}
    (hps : ∀ p ∈ ps, Serves p) (h : Answering fn u net g w) :
    ∃ w' g', Run.exec (mgMgrPoll fn) w ps = some w' ∧ Answering fn u net g' w' ∧
      remaining (batch fn u is).2.1.flatten w' ≤
        remaining (batch fn u is).2.1.flatten w - ps.length := by
  induction ps generalizing w g with
  | nil => exact ⟨w, g, rfl, h, Nat.le_refl _⟩
  | cons p ps ih =>
    obtain ⟨w₁, g₁, hw₁, h₁, hle₁⟩ :=
      answering_mgMgrPoll hf hnet hd hfits h (hps p List.mem_cons_self)
    obtain ⟨w', g', hw', h', hle'⟩ := ih (fun q hq => hps q (List.mem_cons_of_mem _ hq)) h₁
    refine ⟨w', g', ?_, h', ?_⟩
    · rw [Run.exec, hw₁]
      exact hw'
    · rw [List.length_cons]
      omega

theorem Answering.finished (h : Answering fn u net g w)
    (hdone : remaining (batch fn u is).2.1.flatten w = 0) :
    w.net = [] ∧ w.conn.usr = (batch fn u is).1 ∧ w.wire = (batch fn u is).2.1.flatten := by
  unfold remaining at hdone
  have hempty : w.net = [] := List.length_eq_zero_iff.mp (by omega)
  obtain ⟨more, hmore, hall⟩ := h.sent_prefix hf hnet
  obtain ⟨rfl, husr⟩ := hall hempty
  have hlen := congrArg List.length hmore
  simp only [List.length_append, List.length_nil] at hlen
  have hsend : w.conn.send.buf = [] := List.length_eq_zero_iff.mp (by omega)
  rw [hsend, List.append_nil, List.append_nil] at hmore
  exact ⟨hempty, husr, hmore.symm⟩

theorem exec_accepted (hd : NoDrain fn) (hfits : Fits net) (u : τ) {ps : List Poll}
    (hps : ∀ p ∈ ps, Serves p)
    (hlen : net.length + (batch fn u is).2.1.flatten.length ≤ ps.length) :
    ∃ w g, Run.exec (mgMgrPoll fn) (accepted u net) ps = some w ∧ Answering fn u net g w ∧
      remaining (batch fn u is).2.1.flatten w = 0 := by
  have h₀ : Answering fn u net ⟨[], [], [], none, [], []⟩ (accepted u net) :=
    ⟨alive_accepted, rfl, rfl, rfl⟩
  obtain ⟨w, g, hw, h, hle⟩ := exec_answering hf hnet hd hfits hps h₀
  have hstart : remaining (batch fn u is).2.1.flatten (accepted u net) =
      net.length + (batch fn u is).2.1.flatten.length := rfl
  exact ⟨w, g, hw, h, by omega⟩

end Whole

/-- **Answers in the end.** The handler sends no files and never asks for the connection to be drained,
nothing in the stream stops the parser, what is left of it fits the receive buffer, and every
allocation succeeds. Then a peer that goes on reading and writing gets all its answers, after no
more iterations than there are bytes to be read and written. -/
theorem eventually_answered {net rest : Bytes} {is : List HttpMsg} (hf : NoFile fn)
    (hd : NoDrain fn) (hnet : Drains request net is rest none) (hfits : Fits net) (u : τ)
    {ps : List Poll} (hps : ∀ p ∈ ps, Serves p)
    (hlen : net.length + (batch fn u is).2.1.flatten.length ≤ ps.length) :
    ∃ w, Run.exec (mgMgrPoll fn) (accepted u net) ps = some w ∧ w.isOpen = true ∧ w.net = [] ∧
      w.conn.usr = (batch fn u is).1 ∧ w.wire = (batch fn u is).2.1.flatten := by
  obtain ⟨w, g, hw, h, hdone⟩ := exec_accepted hf hnet hd hfits u hps hlen
  exact ⟨w, hw, h.isOpen, h.finished hf hnet hdone⟩

theorem eventually_answered_two :
    ∃ w, Run.exec
        (mgMgrPoll fun (n : ℕ) ev => (n + 1, ⟨[ev.hm.uri, ascii "!"], none, false⟩))
        (accepted 0 (ascii "GET /a HTTP/1.1\r\n\r\nGET /b HTTP/1.1\r\n\r\n"))
        (List.replicate 50 ⟨some (.bytes 1), some (.bytes 1), fun _ => true⟩) = some w ∧
      w.conn.usr = 2 ∧ w.wire = ascii "/a!/b!" := by
  obtain ⟨⟨is, rest, e⟩, hd, heq⟩ := Option.map_eq_some_iff.mp (show
    (Incremental.drain request 3
      (ascii "GET /a HTTP/1.1\r\n\r\nGET /b HTTP/1.1\r\n\r\n")).map
        (fun r => (r.2.2, (batch (fun (n : ℕ) ev =>
          (n + 1, ⟨[ev.hm.uri, ascii "!"], none, false⟩)) 0 r.1).1, (batch (fun (n : ℕ) ev =>
          (n + 1, ⟨[ev.hm.uri, ascii "!"], none, false⟩)) 0 r.1).2.1.flatten)) =
      some (none, 2, ascii "/a!/b!") by decide +kernel)
  simp only [Prod.mk.injEq] at heq
  obtain ⟨rfl, husr, hwire⟩ := heq
  have hps : ∀ p ∈ List.replicate 50 (⟨some (.bytes 1), some (.bytes 1), fun _ => true⟩ : Poll),
      Serves p := fun p hp => List.eq_of_mem_replicate hp ▸ ⟨⟨0, rfl⟩, ⟨0, rfl⟩, fun _ => rfl⟩
  obtain ⟨w, hw, -, -, husr', hwire'⟩ := eventually_answered (fun _ _ => rfl) (fun _ _ => rfl)
    (Incremental.drains_of_drain hd) (fits_of_length_lt (by decide)) 0 hps
    (by rw [hwire]; decide)
  exact ⟨w, hw, husr'.trans husr, hwire'.trans hwire⟩

end Answering

end Csrv.Mongoose
