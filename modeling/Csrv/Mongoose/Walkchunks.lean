import Csrv.Lib.Chunked
import Csrv.Mongoose.HttpCb

/-!
# What `walkchunks` makes of a chunked message

The stream is written as chunks: a line of hexadecimal digits with the size, and the data. The
body that reaches the handler is made of the chunks whose size line has a single digit
(`kept`), since the second loop of `walkchunks` measures every chunk by the last one. What
followed the message is not moved along (`httpRound_chunked`).
-/

namespace Csrv.Mongoose

open Chunked (crlf hexNumber)

/-! ## One chunk -/

theorem mgUnhexNimble_hexDigit {c : UInt8} {d : ℕ} (h : Json.hexDigit c = some d) :
    (mgUnhexNimble c).toNat = d ∧ d < 16 := by
  have hall : ∀ i : Fin 256, ∀ d, Json.hexDigit (UInt8.ofNat i) = some d →
      (mgUnhexNimble (UInt8.ofNat i)).toNat = d ∧ d < 16 := by
    have hdec : ∀ i : Fin 256, (Json.hexDigit (UInt8.ofNat i)).all fun d =>
        (mgUnhexNimble (UInt8.ofNat i)).toNat = d && d < 16 := by decide +kernel
    intro i d hd
    have := hdec i
    rw [hd] at this
    simpa using this
  have := hall ⟨c.toNat, c.toNat_lt⟩ d
  rw [UInt8.ofNat_toNat] at this
  exact this h

/-- `mg_unhexn` reads a hexadecimal number of at most fifteen digits. -/
theorem mgUnhexn_of_hexNumber {l : Bytes} {n : ℕ} (h : hexNumber l = some n)
    (hlen : l.length ≤ 15) : mgUnhexn l = n ∧ n < 16 ^ l.length := by
  induction l using List.reverseRecOn generalizing n with
  | nil => cases h; exact ⟨rfl, by decide⟩
  | append_singleton l c ih =>
    rw [Chunked.foldl_hexNumber] at h
    obtain ⟨m, hm, hc⟩ := Option.bind_eq_some_iff.mp h
    obtain ⟨d, hd, rfl⟩ := Option.map_eq_some_iff.mp hc
    rw [List.length_append, List.length_singleton] at hlen ⊢
    obtain ⟨hl, hlt⟩ := ih hm (by omega)
    obtain ⟨hnimble, hd16⟩ := mgUnhexNimble_hexDigit hd
    have hpow : 16 ^ l.length ≤ 16 ^ 14 := Nat.pow_le_pow_right (by decide) (by omega)
    have hshift : m <<< 4 % 2 ^ 64 = m <<< 4 := by
      rw [Nat.shiftLeft_eq]
      exact Nat.mod_eq_of_lt (by omega)
    refine ⟨?_, by rw [Nat.pow_succ]; omega⟩
    unfold mgUnhexn at hl ⊢
    rw [List.foldl_append, List.foldl_cons, List.foldl_nil, UInt64.toNat_or, UInt64.toNat_shiftLeft,
      hl]
    show m <<< 4 % 2 ^ 64 ||| (mgUnhexNimble c).toUInt64.toNat = 16 * m + d
    rw [hshift, UInt8.toNat_toUInt64, hnimble, ← Nat.shiftLeft_add_eq_or_of_lt (by omega),
      Nat.shiftLeft_eq]
    omega

/-- A line of a chunk: hexadecimal digits, at most eight, that say how long the data are. -/
structure Sized (c : Bytes × Bytes) : Prop where
  size : hexNumber c.1 = some c.2.length
  length_le : c.1.length ≤ 8
  ne_nil : c.2 ≠ []

/-- A chunk on the wire. -/
def chunkBytes (c : Bytes × Bytes) : Bytes := c.1 ++ crlf ++ c.2 ++ crlf

theorem length_chunkBytes (c : Bytes × Bytes) :
    (chunkBytes c).length = c.1.length + c.2.length + 4 := by
  simp [chunkBytes, crlf]
  omega

/-- The chunk at the end. -/
def zeroChunk : Bytes := ascii "0\r\n\r\n"

theorem chunkLineLoop_append {l : Bytes} (hl : 0x0d ∉ l) (r : Bytes) {i : ℕ}
    (hi : i + l.length ≤ 10) : chunkLineLoop i (l ++ 0x0d :: r) = i + l.length := by
  induction l generalizing i with
  | nil => rfl
  | cons c l ih =>
    rw [List.mem_cons, not_or] at hl
    rw [List.length_cons] at hi ⊢
    rw [List.cons_append, chunkLineLoop, if_pos ⟨fun h => hl.1 h.symm, by omega⟩,
      ih hl.2 (by omega)]
    omega

theorem chunkSkipLoop_crlf {i : ℕ} (hi : i ≤ 8) (r : Bytes) :
    chunkSkipLoop i (0x0d :: 0x0a :: r) = i + 1 := by
  rw [chunkSkipLoop, if_pos (.inl rfl), chunkSkipLoop, if_neg]
  rintro (h | h)
  · exact absurd h (by decide)
  · omega

theorem cr_not_mem_of_hexNumber {l : Bytes} {n : ℕ} (h : hexNumber l = some n) : 0x0d ∉ l := by
  induction l using List.reverseRecOn generalizing n with
  | nil => exact List.not_mem_nil
  | append_singleton l c ih =>
    rw [Chunked.foldl_hexNumber] at h
    obtain ⟨m, hm, hc⟩ := Option.bind_eq_some_iff.mp h
    obtain ⟨d, hd, -⟩ := Option.map_eq_some_iff.mp hc
    rw [List.mem_append, List.mem_singleton, not_or]
    refine ⟨ih hm, ?_⟩
    rintro rfl
    cases hd

/-- The chunk that a size line announces, if the buffer goes on behind its data. -/
theorem getChunkLength_line {l : Bytes} {n : ℕ} (h : hexNumber l = some n) (hlen : l.length ≤ 8)
    (r : Bytes) :
    getChunkLength (l ++ 0x0d :: 0x0a :: r) =
      (if n + 1 < r.length then l.length + n + 4 else 0, l.length + 2) := by
  have hn := (mgUnhexn_of_hexNumber h (by omega)).1
  have hline : chunkLineLoop 0 (l ++ 0x0d :: 0x0a :: r) = l.length := by
    rw [chunkLineLoop_append (cr_not_mem_of_hexNumber h) _ (by omega), Nat.zero_add]
  unfold getChunkLength
  simp only [hline, List.take_left, List.drop_left, hn, chunkSkipLoop_crlf hlen,
    List.length_append, List.length_cons]
  split_ifs with h₁ h₂ h₂
  · rw [show l.length + 1 + n + 3 = l.length + n + 4 by omega]
  · omega
  · omega
  · rfl

/-- A chunk is measured as it was written. -/
theorem getChunkLength_chunkBytes {c : Bytes × Bytes} (hc : Sized c) (w : Bytes) :
    getChunkLength (chunkBytes c ++ w) = ((chunkBytes c).length, c.1.length + 2) := by
  have hbuf : chunkBytes c ++ w = c.1 ++ 0x0d :: 0x0a :: (c.2 ++ crlf ++ w) := by
    simp [chunkBytes, crlf]
  rw [hbuf, getChunkLength_line hc.size hc.length_le, length_chunkBytes, if_pos]
  simp [crlf]

theorem getChunkLength_zeroChunk (t : Bytes) : getChunkLength (zeroChunk ++ t) = (5, 3) := by
  have hbuf : zeroChunk ++ t = [0x30] ++ 0x0d :: 0x0a :: (crlf ++ t) := rfl
  rw [hbuf, getChunkLength_line rfl (by decide), if_pos (by simp [crlf])]
  rfl

/-! ## The two loops -/

/-- Chunks behind one another. -/
def chunksBytes (cs : List (Bytes × Bytes)) : Bytes := cs.flatMap chunkBytes

/-- The data that `walkchunks` keeps: those of the chunks with a single digit on their line. -/
def kept (cs : List (Bytes × Bytes)) : Bytes :=
  cs.flatMap fun c => if c.1.length = 1 then c.2 else []

theorem Sized.line_pos {c : Bytes × Bytes} (hc : Sized c) : 0 < c.1.length := by
  obtain ⟨l, d⟩ := c
  refine List.length_pos_iff.mpr ?_
  rintro rfl
  have hsize : 0 = d.length := Option.some.inj hc.size
  exact hc.ne_nil (List.length_eq_zero_iff.mp hsize.symm)

theorem five_lt_length_chunkBytes {c : Bytes × Bytes} (hc : Sized c) :
    5 < (chunkBytes c).length := by
  have hd := List.length_pos_iff.mpr hc.ne_nil
  have hl := hc.line_pos
  rw [length_chunkBytes]
  omega

theorem findLast_chunks {cs : List (Bytes × Bytes)} (hcs : ∀ c ∈ cs, Sized c) (t : Bytes)
    {fuel : ℕ} (hfuel : cs.length < fuel) :
    findLast fuel (chunksBytes cs ++ (zeroChunk ++ t)) = some 5 := by
  induction cs generalizing fuel with
  | nil =>
    obtain ⟨fuel, rfl⟩ := Nat.exists_eq_add_of_lt hfuel
    unfold findLast
    rw [chunksBytes, List.flatMap_nil, List.nil_append, getChunkLength_zeroChunk]
    rfl
  | cons c cs ih =>
    cases fuel with
    | zero => exact absurd hfuel (Nat.not_lt_zero _)
    | succ fuel =>
      have hc := hcs c List.mem_cons_self
      have h5 := five_lt_length_chunkBytes hc
      have hbuf : chunksBytes (c :: cs) ++ (zeroChunk ++ t) =
          chunkBytes c ++ (chunksBytes cs ++ (zeroChunk ++ t)) := by
        rw [chunksBytes, List.flatMap_cons, List.append_assoc]
        rfl
      unfold findLast
      rw [hbuf, if_neg (by rw [List.length_append]; omega), getChunkLength_chunkBytes hc]
      simp only
      rw [if_neg (by omega), if_neg (by omega), List.drop_left]
      exact ih (fun d hd => hcs d (List.mem_cons_of_mem _ hd)) (Nat.lt_of_succ_lt_succ hfuel)

section Kept

variable {k orig : Bytes}

theorem drop_kept {m : ℕ} (hm : k.length ≤ m) : (k ++ orig.drop k.length).drop m = orig.drop m := by
  rw [List.drop_append, List.drop_eq_nil_of_le hm, List.nil_append, List.drop_drop,
    Nat.add_sub_cancel' hm]

theorem length_kept (hk : k.length ≤ orig.length) :
    (k ++ orig.drop k.length).length = orig.length := by
  rw [List.length_append, List.length_drop]
  omega

/-- Moving data to the end of what has been kept, from further behind. -/
theorem memmove_kept {src : ℕ} (hsrc : k.length ≤ src) (n : ℕ) :
    memmove (k ++ orig.drop k.length) k.length src n =
      k ++ (orig.drop src).take n ++ orig.drop (k.length + n) := by
  unfold memmove
  rw [List.take_left, drop_kept hsrc, drop_kept (Nat.le_add_right _ _)]

end Kept

theorem orig_at {orig pre w t : Bytes} (h : orig = pre ++ (w ++ (zeroChunk ++ t))) :
    pre.length < orig.length ∧ orig.drop pre.length = w ++ (zeroChunk ++ t) := by
  have hpos : 0 < zeroChunk.length := by decide
  subst h
  refine ⟨?_, List.drop_left⟩
  rw [List.length_append, List.length_append, List.length_append]
  omega

theorem chunksBytes_cons (c : Bytes × Bytes) (cs : List (Bytes × Bytes)) :
    chunksBytes (c :: cs) = chunkBytes c ++ chunksBytes cs := List.flatMap_cons

/-- What the second loop keeps of one chunk. -/
theorem kept_of_chunk {c : Bytes × Bytes} (hc : Sized c) {orig pre w : Bytes}
    (horig : orig = pre ++ (chunkBytes c ++ w)) :
    (orig.drop (pre.length + (c.1.length + 2))).take
        (if 5 < c.1.length + 2 + 2 then 0 else (chunkBytes c).length - (c.1.length + 2) - 2) =
      kept [c] ∧
    (if 5 < c.1.length + 2 + 2 then 0 else (chunkBytes c).length - (c.1.length + 2) - 2) =
      (kept [c]).length := by
  have hpos := hc.line_pos
  have hclen := length_chunkBytes c
  have hdata : orig.drop (pre.length + (c.1.length + 2)) = c.2 ++ (crlf ++ w) := by
    have hline : (c.1 ++ crlf).length = c.1.length + 2 := List.length_append
    rw [horig, ← List.drop_drop, List.drop_left, ← hline]
    show (c.1 ++ crlf ++ c.2 ++ crlf ++ w).drop _ = _
    rw [List.append_assoc _ c.2, List.append_assoc (c.1 ++ crlf), List.drop_left, List.append_assoc]
  unfold kept
  rw [List.flatMap_singleton, hdata]
  split_ifs with h5 h1 h1
  · omega
  · exact ⟨rfl, rfl⟩
  · have hn : (chunkBytes c).length - (c.1.length + 2) - 2 = c.2.length := by omega
    rw [hn]
    exact ⟨List.take_left, rfl⟩
  · omega

/-- The second loop, in the middle of its work: `k` has been kept of the chunks `pre`, and the rest
of the buffer is as it was. -/
theorem cutOffLengths_chunks {cs : List (Bytes × Bytes)} (hcs : ∀ c ∈ cs, Sized c) {t pre k : Bytes}
    {orig : Bytes} (horig : orig = pre ++ (chunksBytes cs ++ (zeroChunk ++ t)))
    (hk : k.length ≤ pre.length) {fuel : ℕ} (hfuel : cs.length < fuel) :
    cutOffLengths 5 fuel (k ++ orig.drop k.length) pre.length k.length =
      (k ++ kept cs ++ orig.drop (k ++ kept cs).length, pre.length + (chunksBytes cs).length + 5,
        (k ++ kept cs).length) := by
  induction cs generalizing pre k fuel with
  | nil =>
    obtain ⟨hlen, hoff⟩ := orig_at horig
    obtain ⟨fuel, rfl⟩ := Nat.exists_eq_add_of_lt hfuel
    rw [List.length_nil, Nat.zero_add]
    unfold cutOffLengths
    rw [if_pos (by rw [length_kept (by omega)]; exact hlen), drop_kept hk, hoff]
    rw [chunksBytes, List.flatMap_nil, List.nil_append, getChunkLength_zeroChunk]
    simp only [memmove_kept (show k.length ≤ pre.length + 3 by omega), kept, List.flatMap_nil]
    simp
  | cons c cs ih =>
    cases fuel with
    | zero => exact absurd hfuel (Nat.not_lt_zero _)
    | succ fuel =>
      have hc := hcs c List.mem_cons_self
      have hpos := hc.line_pos
      have h5 := five_lt_length_chunkBytes hc
      have hclen := length_chunkBytes c
      obtain ⟨hlen, hoff⟩ := orig_at horig
      rw [chunksBytes_cons, List.append_assoc] at horig hoff
      unfold cutOffLengths
      rw [if_pos (by rw [length_kept (by omega)]; exact hlen), drop_kept hk, hoff,
        getChunkLength_chunkBytes hc]
      simp only
      rw [if_neg (by omega), memmove_kept (by omega)]
      -- the data of this chunk, or nothing, are kept
      obtain ⟨hx, hn⟩ := kept_of_chunk hc horig
      have hpre : pre.length + (chunkBytes c).length = (pre ++ chunkBytes c).length :=
        (List.length_append).symm
      have hk' : k.length + (kept [c]).length = (k ++ kept [c]).length := List.length_append.symm
      rw [hx, hn, hk', hpre]
      have hle : (kept [c]).length ≤ (chunkBytes c).length := by
        rw [← hn]
        split_ifs <;> omega
      rw [ih (fun d hd => hcs d (List.mem_cons_of_mem _ hd)) (by rw [horig, List.append_assoc])
        (by rw [List.length_append, List.length_append]; omega) (Nat.lt_of_succ_lt_succ hfuel)]
      have hkept : k ++ kept [c] ++ kept cs = k ++ kept (c :: cs) := by
        simp only [kept, List.flatMap_cons, List.flatMap_nil, List.append_nil, List.append_assoc]
      have hoff' : (pre ++ chunkBytes c).length + (chunksBytes cs).length + 5 =
          pre.length + (chunksBytes (c :: cs)).length + 5 := by
        simp only [chunksBytes_cons, List.length_append]
        omega
      rw [hkept, hoff']

theorem kept_cons (c : Bytes × Bytes) (cs : List (Bytes × Bytes)) :
    kept (c :: cs) = (if c.1.length = 1 then c.2 else []) ++ kept cs := List.flatMap_cons

theorem length_kept_le (cs : List (Bytes × Bytes)) :
    (kept cs).length ≤ (cs.flatMap (·.2)).length := by
  induction cs with
  | nil => exact Nat.le_refl _
  | cons c cs ih =>
    rw [kept_cons, List.flatMap_cons, List.length_append, List.length_append]
    split_ifs
    · omega
    · rw [List.length_nil]
      omega

theorem length_data_le (cs : List (Bytes × Bytes)) :
    (cs.flatMap (·.2)).length ≤ (chunksBytes cs).length := by
  induction cs with
  | nil => exact Nat.le_refl _
  | cons c cs ih =>
    rw [chunksBytes_cons, List.flatMap_cons, List.length_append, List.length_append,
      length_chunkBytes]
    omega

theorem length_le_chunksBytes (cs : List (Bytes × Bytes)) :
    cs.length ≤ (chunksBytes cs).length := by
  induction cs with
  | nil => exact Nat.le_refl _
  | cons c cs ih =>
    rw [chunksBytes_cons, List.length_append, List.length_cons, length_chunkBytes]
    omega

/-- The body is whole iff no chunk has more than one digit on its line. -/
theorem kept_eq_iff {cs : List (Bytes × Bytes)} (hcs : ∀ c ∈ cs, Sized c) :
    kept cs = cs.flatMap (·.2) ↔ ∀ c ∈ cs, c.1.length = 1 := by
  induction cs with
  | nil => simp [kept]
  | cons c cs ih =>
    have htail := ih fun d hd => hcs d (List.mem_cons_of_mem _ hd)
    have hne := List.length_pos_iff.mpr (hcs c List.mem_cons_self).ne_nil
    have hle := length_kept_le cs
    rw [kept_cons, List.flatMap_cons, List.forall_mem_cons]
    split_ifs with h1
    · rw [List.append_cancel_left_eq, htail]
      exact ⟨fun h => ⟨h1, h⟩, fun h => h.2⟩
    · refine iff_of_false (fun h => ?_) fun h => h1 h.1
      have := congrArg List.length h
      simp only [List.nil_append, List.length_append] at this
      omega

/-- The buffer after `walkchunks`: the head, what has been kept, and stale bytes in place of what
followed the message. -/
theorem walkchunks_chunks {head : Bytes} {hm : HttpMessage} {cs : List (Bytes × Bytes)}
    (hhead : hm.headLen = head.length) (hcs : ∀ c ∈ cs, Sized c) (t : Bytes) :
    walkchunks (head ++ (chunksBytes cs ++ (zeroChunk ++ t))) hm =
      (head ++ (kept cs ++
          ((chunksBytes cs ++ (zeroChunk ++ t)).drop (kept cs).length).take t.length),
        { hm with messageLen := (kept cs).length + head.length, bodyLen := (kept cs).length }) := by
  have hfuel : cs.length < (chunksBytes cs ++ (zeroChunk ++ t)).length + 1 := by
    have := length_le_chunksBytes cs
    rw [List.length_append]
    omega
  have hlast : lastChunk (head ++ (chunksBytes cs ++ (zeroChunk ++ t))) hm.headLen = some 5 := by
    unfold lastChunk
    rw [hhead, List.drop_left]
    exact findLast_chunks hcs t hfuel
  have hcut := @cutOffLengths_chunks cs hcs t [] [] _ rfl (Nat.le_refl _) _ hfuel
  simp only [List.nil_append, List.length_nil, List.drop_zero, Nat.zero_add] at hcut
  have hkept := (length_kept_le cs).trans (length_data_le cs)
  have hzero : zeroChunk.length = 5 := rfl
  unfold walkchunks
  rw [hlast]
  simp only [hhead, List.drop_left, List.take_left, hcut, Prod.mk.injEq, and_true]
  -- what is cut off are the size lines and the data that have been dropped
  have hlen : (head ++ (chunksBytes cs ++ (zeroChunk ++ t))).length -
      ((chunksBytes cs).length + 5 - (kept cs).length) =
        head.length + ((kept cs).length + t.length) := by
    simp only [List.length_append, hzero]
    omega
  rw [hlen, List.take_length_add_append, List.take_length_add_append]

/-- **Chunked messages.** A chunked message that is all in the buffer, with size lines of at most eight
digits, is handed over with the data of the chunks whose size line has one digit as its body, which
are all of its data iff no line has more. The loop goes on behind it with as many bytes as followed
the message, but with stale ones. -/
theorem httpRound_chunked {head : Bytes} {hm : HttpMessage} {cs : List (Bytes × Bytes)}
    (hp : mgHttpParse head = some hm) (hhead : hm.headLen = head.length)
    (hchunked : mgIsChunked hm = true) (hcs : ∀ c ∈ cs, Sized c) (t : Bytes) :
    httpRound false (head ++ (chunksBytes cs ++ (zeroChunk ++ t))) =
        .message
          ⟨{ hm with messageLen := (kept cs).length + head.length, bodyLen := (kept cs).length },
            some (kept cs)⟩
          (((chunksBytes cs ++ (zeroChunk ++ t)).drop (kept cs).length).take t.length) ∧
      (kept cs = cs.flatMap (·.2) ↔ ∀ c ∈ cs, c.1.length = 1) := by
  refine ⟨?_, kept_eq_iff hcs⟩
  have hne : mgHttpGetRequestLen head ≠ 0 := by
    have := (requestLen_of_parse hp).1
    omega
  have hdrop : ∀ w : Bytes, (head ++ (kept cs ++ w)).drop ((kept cs).length + head.length) = w := by
    intro w
    rw [Nat.add_comm, ← List.drop_drop, List.drop_left, List.drop_left]
  have hbody : ∀ w : Bytes, ((head ++ (kept cs ++ w)).drop head.length).take (kept cs).length =
      kept cs := fun w => by rw [List.drop_left, List.take_left]
  unfold httpRound
  rw [mgHttpParse_append hne, hp]
  simp only [Bool.false_eq_true, if_false, hchunked, if_true, walkchunks_chunks hhead hcs]
  rw [if_pos (by simp only [List.length_append]; omega), hdrop]
  unfold httpMsg
  simp only [hhead, hbody]
  rw [if_pos (Nat.add_comm _ _)]

theorem httpRound_chunked_two :
    httpRound false (ascii "POST / HTTP/1.1\r\nTransfer-Encoding: chunked\r\n\r\n" ++
        (chunksBytes [(ascii "5", ascii "hello"), (ascii "10", ascii "0123456789abcdef")] ++
          (zeroChunk ++ ascii "GET"))) =
      .message
        ⟨⟨ascii "POST", ascii "/", [], ascii "HTTP/1.1",
            [⟨ascii "Transfer-Encoding", ascii "chunked"⟩], 47, 5, 52⟩, some (ascii "hello")⟩
        (ascii "llo") := by
  have hcs : ∀ c ∈ [(ascii "5", ascii "hello"), (ascii "10", ascii "0123456789abcdef")],
      Sized c := by
    simp only [List.forall_mem_cons]
    exact ⟨⟨by decide, by decide, by decide⟩, ⟨by decide, by decide, by decide⟩, by simp⟩
  have hp : mgHttpParse (ascii "POST / HTTP/1.1\r\nTransfer-Encoding: chunked\r\n\r\n") =
      some ⟨ascii "POST", ascii "/", [], ascii "HTTP/1.1",
        [⟨ascii "Transfer-Encoding", ascii "chunked"⟩], 47, sizeMax, sizeMax⟩ := by
    decide +kernel
  refine (httpRound_chunked hp (by decide) (by decide) hcs (ascii "GET")).1.trans ?_
  decide +kernel

end Csrv.Mongoose
