import Csrv.Lib.Incremental
import Csrv.Mongoose.Http

/-!
# From a receive buffer to messages

`http_cb` takes the messages out of what a connection has received, and `walkchunks` rewrites a
chunked message in the buffer before it is taken. `httpRound` is one round of the loop. The
handler of the server ignores the events for single chunks, so these are left out.

* `request`: the messages without a chunked head, as an incremental parser; a round of the loop is
  that parser (`httpRound_of_more`, `httpRound_of_malformed`, `httpRound_of_item`).
* `stable_request`: what it finds does not depend on what follows.
-/

namespace Csrv.Mongoose

/-! ## Chunked bodies -/

/-- `mg_unhexn`. -/
def mgUnhexn (s : Bytes) : ℕ :=
  (s.foldl (fun (v : UInt64) c => v <<< 4 ||| (mgUnhexNimble c).toUInt64) 0).toNat

/-- The first loop of `get_chunk_length`. It compares the index with a line feed. -/
def chunkLineLoop : ℕ → Bytes → ℕ
  | i, [] => i
  | i, c :: buf => if c ≠ 0x0d ∧ i ≠ 0x0a then chunkLineLoop (i + 1) buf else i

/-- Its second loop. -/
def chunkSkipLoop : ℕ → Bytes → ℕ
  | i, [] => i
  | i, c :: buf => if c = 0x0d ∨ i = 0x0a then chunkSkipLoop (i + 1) buf else i

/-- `get_chunk_length`: the length of the chunk at the start of `buf`, zero where it is not all
there, and the length `ll` of its first line. -/
def getChunkLength (buf : Bytes) : ℕ × ℕ :=
  let i := chunkLineLoop 0 buf
  let n := mgUnhexn (buf.take i)
  let i := chunkSkipLoop i (buf.drop i)
  (if i < buf.length ∧ i + n + 2 < buf.length then i + n + 3 else 0, i + 1)

def memmove (buf : Bytes) (dst src n : ℕ) : Bytes :=
  buf.take dst ++ (buf.drop src).take n ++ buf.drop (dst + n)

/-- The first loop of `walkchunks`, up to the chunk that it takes for the last one: the length
of that chunk. -/
def findLast : ℕ → Bytes → Option ℕ
  | 0, _ => none
  | fuel + 1, buf =>
    if buf.length = 0 then none
    else
      let cl := (getChunkLength buf).1
      if cl = 0 then none
      else if cl ≤ 5 then some cl
      else findLast fuel (buf.drop cl)

/-- The second loop of `walkchunks`: `cl` is the length of the last chunk. The results are the
buffer, `off` and `bl`. -/
def cutOffLengths (cl : ℕ) : ℕ → Bytes → ℕ → ℕ → Bytes × ℕ × ℕ
  | 0, buf2, off, bl => (buf2, off, bl)
  | fuel + 1, buf2, off, bl =>
    if off < buf2.length then
      let (cl2, ll) := getChunkLength (buf2.drop off)
      let n := if cl < ll + 2 then 0 else cl2 - ll - 2
      let buf2 := memmove buf2 bl (off + ll) n
      if cl2 ≤ 5 then (buf2, off + cl2, bl + n)
      else cutOffLengths cl fuel buf2 (off + cl2) (bl + n)
    else (buf2, off, bl)

/-- The chunk that `walkchunks` takes for the last one behind a head of `reqlen` bytes. -/
def lastChunk (recv : Bytes) (reqlen : ℕ) : Option ℕ :=
  findLast ((recv.drop reqlen).length + 1) (recv.drop reqlen)

/-- `walkchunks`: the receive buffer and the message afterwards. -/
def walkchunks (recv : Bytes) (hm : HttpMessage) : Bytes × HttpMessage :=
  let buf := recv.drop hm.headLen
  match lastChunk recv hm.headLen with
  | none => (recv, hm)
  | some cl =>
    let (buf2, off, bl) := cutOffLengths cl (buf.length + 1) buf 0 0
    ((recv.take hm.headLen ++ buf2).take (recv.length - (off - bl)),
      { hm with messageLen := bl + hm.headLen, bodyLen := bl })

theorem walkchunks_of_none {recv : Bytes} {hm : HttpMessage}
    (h : lastChunk recv hm.headLen = none) : walkchunks recv hm = (recv, hm) := by
  unfold walkchunks
  rw [h]

theorem headLen_le_messageLen_walkchunks {recv : Bytes} {hm : HttpMessage} {cl : ℕ}
    (h : lastChunk recv hm.headLen = some cl) :
    hm.headLen ≤ (walkchunks recv hm).2.messageLen := by
  unfold walkchunks
  rw [h]
  exact Nat.le_add_left _ _

theorem length_walkchunks_le (recv : Bytes) (hm : HttpMessage) :
    (walkchunks recv hm).1.length ≤ recv.length := by
  unfold walkchunks
  simp only
  split
  · exact Nat.le_refl _
  · exact (List.length_take_le _ _).trans (Nat.sub_le _ _)

/-- `mg_strstr(haystack, needle) != NULL`. -/
def mgStrstr (haystack needle : Bytes) : Bool := haystack.tails.any needle.isPrefixOf

def mgIsChunked (hm : HttpMessage) : Bool :=
  (mgHttpGetHeader hm.headers (ascii "Transfer-Encoding")).any (mgStrstr · (ascii "chunked"))

/-! ## A round of `http_cb` -/

/-- What the handler sees: the message and its body. There is no body to see where the length of
the message has wrapped around. -/
structure HttpMsg where
  hm : HttpMessage
  body : Option Bytes
  deriving DecidableEq

def httpMsg (recv : Bytes) (hm : HttpMessage) : HttpMsg :=
  ⟨hm, if hm.messageLen = hm.headLen + hm.bodyLen then some ((recv.drop hm.headLen).take hm.bodyLen)
    else none⟩

/-- How a round ends: the loop is left, with an error or without, or a message has been taken and
the loop goes on with `recv`. -/
inductive Round
  | error
  | wait (recv : Bytes)
  | message (ev : HttpMsg) (recv : Bytes)
  deriving DecidableEq

/-- One round of the loop of `http_cb`, at `MG_EV_CLOSE` or at `MG_EV_READ`. -/
def httpRound (close : Bool) (recv : Bytes) : Round :=
  match mgHttpParse recv with
  | none => if !close && mgHttpGetRequestLen recv ≠ 0 then .error else .wait recv
  | some hm =>
    let (recv, hm) :=
      if close then
        (recv, { hm with messageLen := recv.length, bodyLen := recv.length - hm.headLen })
      else if mgIsChunked hm then walkchunks recv hm
      else (recv, hm)
    if hm.messageLen ≤ recv.length then .message (httpMsg recv hm) (recv.drop hm.messageLen)
    else .wait recv

/-! ### When the connection closes -/

/-- The message that `http_cb` makes of all that is left when the connection closes. -/
def closingMsg (recv : Bytes) : Option HttpMsg :=
  (mgHttpParse recv).map fun hm =>
    httpMsg recv { hm with messageLen := recv.length, bodyLen := recv.length - hm.headLen }

theorem httpRound_close_of_none {recv : Bytes} (h : closingMsg recv = none) :
    httpRound true recv = .wait recv := by
  unfold httpRound
  rw [Option.map_eq_none_iff.mp h]
  rfl

theorem httpRound_close_of_some {recv : Bytes} {ev : HttpMsg} (h : closingMsg recv = some ev) :
    httpRound true recv = .message ev [] := by
  obtain ⟨hm, hp, rfl⟩ := Option.map_eq_some_iff.mp h
  unfold httpRound
  rw [hp]
  simp only [if_true, Nat.le_refl, List.drop_length]

/-! ## Messages without a chunked head -/

/-- Why the messages end. -/
inductive Stop
  | malformed
  | chunked
  deriving DecidableEq

/-- A message at the front of what has been received. -/
def request (recv : Bytes) : Incremental.Outcome HttpMsg Stop :=
  match mgHttpParse recv with
  | none => if mgHttpGetRequestLen recv = 0 then .more else .halt .malformed
  | some hm =>
    if mgIsChunked hm then .halt .chunked
    else if hm.messageLen ≤ recv.length then .item (httpMsg recv hm) hm.messageLen
    else .more

section Request

variable {s t : Bytes} {hm : HttpMessage}

theorem httpRound_of_more (h : request s = .more) : httpRound false s = .wait s := by
  unfold request at h
  unfold httpRound
  cases hp : mgHttpParse s with
  | none =>
    rw [hp] at h
    simp only at h
    split_ifs at h with h0
    simp [h0]
  | some hm =>
    rw [hp] at h
    simp only at h
    split_ifs at h with hc hlen
    simp [hc, hlen]

theorem httpRound_of_malformed (h : request s = .halt .malformed) :
    httpRound false s = .error := by
  unfold request at h
  unfold httpRound
  cases hp : mgHttpParse s with
  | none =>
    rw [hp] at h
    simp only at h
    split_ifs at h with h0
    simp [h0]
  | some hm =>
    rw [hp] at h
    simp only at h
    split_ifs at h with hc hlen
    cases h

theorem httpRound_of_item {ev : HttpMsg} {n : ℕ} (h : request s = .item ev n) :
    httpRound false s = .message ev (s.drop n) := by
  unfold request at h
  unfold httpRound
  cases hp : mgHttpParse s with
  | none =>
    rw [hp] at h
    simp only at h
    split_ifs at h
  | some hm =>
    rw [hp] at h
    simp only at h
    split_ifs at h with hc hlen
    cases h
    simp [hc, hlen]

/-! ### What follows makes no difference -/

theorem requestLenLoop_append {i : ℕ} {p2 p1 : Option UInt8} (h : requestLenLoop i p2 p1 s ≠ 0) :
    requestLenLoop i p2 p1 (s ++ t) = requestLenLoop i p2 p1 s := by
  induction s generalizing i p2 p1 with
  | nil => exact absurd rfl h
  | cons b s ih =>
    rw [List.cons_append, requestLenLoop, requestLenLoop]
    rw [requestLenLoop] at h
    by_cases hbad : (!isprint b && b ≠ 0x0d && b ≠ 0x0a && b < 128) = true
    · rw [if_pos hbad, if_pos hbad]
    · rw [if_neg hbad] at h ⊢
      rw [if_neg hbad]
      split_ifs at h ⊢ with hend
      · rfl
      · exact ih h

theorem requestLenLoop_le {i : ℕ} {p2 p1 : Option UInt8} :
    requestLenLoop i p2 p1 s ≤ i + s.length := by
  induction s generalizing i p2 p1 with
  | nil =>
    rw [requestLenLoop]
    omega
  | cons b s ih =>
    have hrec := @ih (i + 1) p1 (some b)
    rw [requestLenLoop, List.length_cons]
    split_ifs <;> push_cast at * <;> omega

/-- The end of the headers is a line feed. -/
theorem lf_mem_of_requestLenLoop {i : ℕ} {p2 p1 : Option UInt8}
    (h : 0 < requestLenLoop i p2 p1 s) : 0x0a ∈ s := by
  induction s generalizing i p2 p1 with
  | nil => exact absurd h (lt_irrefl _)
  | cons b s ih =>
    rw [requestLenLoop] at h
    by_cases hbad : (!isprint b && b ≠ 0x0d && b ≠ 0x0a && b < 128) = true
    · rw [if_pos hbad] at h
      omega
    rw [if_neg hbad] at h
    split_ifs at h with hend
    · rcases hend with ⟨-, rfl, -⟩ | ⟨-, rfl, -⟩
      · exact List.mem_cons_self
      · exact List.mem_cons_self
    · exact List.mem_cons_of_mem _ (ih h)

theorem mgNcasecmp_cons (b d : UInt8) (s w : Bytes) (n : ℕ) :
    mgNcasecmp (b :: s) (d :: w) (n + 1) =
      if ((tolower b).toNat : ℤ) - (tolower d).toNat = 0 ∧ b ≠ 0 then mgNcasecmp s w n
      else ((tolower b).toNat : ℤ) - (tolower d).toNat := rfl

/-- Comparing stops at a byte that the other string does not have. -/
theorem mgNcasecmp_append {c : UInt8} {w : Bytes} {n : ℕ} (hc : c ∈ s)
    (hw : ∀ d ∈ w, tolower c ≠ tolower d) (hn : n ≤ w.length) :
    mgNcasecmp (s ++ t) w n = mgNcasecmp s w n := by
  induction n generalizing s w with
  | zero => rw [mgNcasecmp, mgNcasecmp]
  | succ n ih =>
    cases s with
    | nil => exact absurd hc List.not_mem_nil
    | cons b s =>
      cases w with
      | nil => exact absurd hn (Nat.not_succ_le_zero n)
      | cons d w =>
        rw [List.cons_append, mgNcasecmp_cons, mgNcasecmp_cons]
        split_ifs with heq
        · have hne : c ≠ b := by
            rintro rfl
            exact hw d List.mem_cons_self (UInt8.toNat_inj.mp (by omega))
          exact ih (List.mem_of_ne_of_mem hne hc) (fun e he => hw e (List.mem_cons_of_mem _ he))
            (Nat.le_of_succ_le_succ hn)
        · rfl

theorem mgHttpGetRequestLen_append (h : mgHttpGetRequestLen s ≠ 0) :
    mgHttpGetRequestLen (s ++ t) = mgHttpGetRequestLen s := requestLenLoop_append h

theorem bodyLengths_append {n : ℕ} {method uri : Bytes} {cl : Option Bytes}
    (h : 0 < mgHttpGetRequestLen s) :
    bodyLengths (s ++ t) n method uri cl = bodyLengths s n method uri cl := by
  have hhttp : mgNcasecmp (s ++ t) (ascii "HTTP/") 5 = mgNcasecmp s (ascii "HTTP/") 5 :=
    mgNcasecmp_append (lf_mem_of_requestLenLoop h) (by decide +kernel) (by decide)
  unfold bodyLengths
  rw [hhttp]

/-- A head that is all there, or malformed, is parsed as it stands. -/
theorem mgHttpParse_append (h : mgHttpGetRequestLen s ≠ 0) :
    mgHttpParse (s ++ t) = mgHttpParse s := by
  unfold mgHttpParse
  rw [mgHttpGetRequestLen_append h]
  by_cases hle : mgHttpGetRequestLen s ≤ 0
  · simp only [if_pos hle]
  · have htake : (s ++ t).take (mgHttpGetRequestLen s).toNat =
        s.take (mgHttpGetRequestLen s).toNat := by
      have hlen : mgHttpGetRequestLen s ≤ (0 : ℕ) + s.length := requestLenLoop_le
      exact List.take_append_of_le_length (by omega)
    simp only [if_neg hle, htake, bodyLengths_append (Int.not_le.mp hle)]

theorem requestLen_of_parse (h : mgHttpParse s = some hm) :
    0 < mgHttpGetRequestLen s ∧ hm.headLen = (mgHttpGetRequestLen s).toNat := by
  simp only [mgHttpParse] at h
  split_ifs at h with hlen
  obtain rfl := Option.some.inj h
  exact ⟨Int.not_le.mp hlen, rfl⟩

theorem httpMsg_append (h : hm.messageLen ≤ s.length) : httpMsg (s ++ t) hm = httpMsg s hm := by
  unfold httpMsg
  split_ifs with hlen
  · rw [List.drop_append_of_le_length (by omega), List.take_append_of_le_length]
    rw [List.length_drop]
    omega
  · rfl

/-- **What follows makes no difference** to a message that is all there, nor to a malformed or
chunked head. -/
theorem stable_request : Incremental.Stable request where
  halt {s e} t h := by
    have hne : mgHttpGetRequestLen s ≠ 0 := by
      intro h0
      unfold request mgHttpParse at h
      simp [h0] at h
    unfold request at h ⊢
    rw [mgHttpParse_append hne, mgHttpGetRequestLen_append hne]
    cases hp : mgHttpParse s with
    | none => rwa [hp] at h
    | some hm =>
      rw [hp] at h
      simp only at h ⊢
      split_ifs at h ⊢ with hc
      exact h
  item {s i n} t h := by
    unfold request at h ⊢
    cases hp : mgHttpParse s with
    | none =>
      rw [hp] at h
      simp only at h
      split_ifs at h
    | some hm =>
      have hpos := (requestLen_of_parse hp).1
      rw [mgHttpParse_append (by omega), hp]
      rw [hp] at h
      simp only at h ⊢
      split_ifs at h with hc hlen
      cases h
      rw [if_neg hc, if_pos (by rw [List.length_append]; omega), httpMsg_append hlen]
      exact ⟨hlen, rfl⟩

end Request

end Csrv.Mongoose
