import Csrv.Mongoose.Reply
import Csrv.Mongoose.Static

/-!
# Directory listings

`listdir` prints a row for each entry of a directory, with a link that `mg_url_encode` makes of its
name. The length of the page is known when it has been printed, and is copied into the head then.

* `percentDecode_encode`: the decoder takes the encoded name for the name, and so a link leads to
  its entry (`listing_link`).
* `request_listdir`: the page is the body of one message, if its length fits the room in the head.
-/

namespace Csrv.Mongoose

open Chunked (crlf)

/-! ## `mg_url_encode` -/

def mgIsUrlSafe (c : UInt8) : Bool :=
  (0x30 ≤ c && c ≤ 0x39) || (0x61 ≤ c && c ≤ 0x7a) || (0x41 ≤ c && c ≤ 0x5a) || c == 0x2e ||
    c == 0x5f || c == 0x2d || c == 0x7e

/-- `mg_hex` of one byte. -/
def mgHex (c : UInt8) : Bytes :=
  let hex := fun n : UInt8 => if n < 10 then n + 0x30 else n + 0x57
  [hex (c >>> 4), hex (c &&& 0x0f)]

/-- The loop of `mg_url_encode` behind `n` bytes of a buffer of `len`. -/
def urlEncodeLoop (len : ℕ) : ℕ → Bytes → Option Bytes
  | _, [] => some []
  | n, c :: s =>
    if n + 4 ≥ len then none
    else if mgIsUrlSafe c then (urlEncodeLoop len (n + 1) s).map (c :: ·)
    else (urlEncodeLoop len (n + 3) s).map (0x25 :: mgHex c ++ ·)

/-- `mg_url_encode`. What does not fit has the length zero. -/
def mgUrlEncode (s : Bytes) (len : ℕ) : Bytes := (urlEncodeLoop len 0 s).getD []

section Encode

variable {s w : Bytes} {len n : ℕ}

theorem urlEncodeLoop_eq_some (h : n + 3 * s.length + 4 ≤ len) :
    ∃ w, urlEncodeLoop len n s = some w := by
  induction s generalizing n with
  | nil => exact ⟨[], rfl⟩
  | cons c s ih =>
    rw [List.length_cons] at h
    rw [urlEncodeLoop, if_neg (by omega)]
    split_ifs
    · obtain ⟨w, hw⟩ := @ih (n + 1) (by omega)
      exact ⟨c :: w, by rw [hw]; rfl⟩
    · obtain ⟨w, hw⟩ := @ih (n + 3) (by omega)
      exact ⟨0x25 :: mgHex c ++ w, by rw [hw]; rfl⟩

/-- Every byte comes back from its two digits. -/
theorem mgUnhex_mgHex (c : UInt8) : ∃ hi lo, mgHex c = [hi, lo] ∧
    (isxdigit hi && isxdigit lo) = true ∧ mgUnhex hi lo = c := by
  have hall : ∀ i : Fin 256, ((mgHex (UInt8.ofNat i)).all isxdigit &&
      mgUnhex ((mgHex (UInt8.ofNat i)).headD 0) ((mgHex (UInt8.ofNat i)).getLastD 0) ==
        UInt8.ofNat i) = true := by decide +kernel
  have h := hall ⟨c.toNat, c.toNat_lt⟩
  rw [UInt8.ofNat_toNat, Bool.and_eq_true, beq_iff_eq] at h
  refine ⟨_, _, rfl, ?_, h.2⟩
  simpa [mgHex] using h.1

theorem ne_percent_of_safe {c : UInt8} (h : mgIsUrlSafe c = true) : c ≠ 0x25 := by
  rintro rfl
  exact absurd h (by decide)

theorem percentDecode_cons {c : UInt8} (hc : c ≠ 0x25) (room : ℕ) (src : Bytes) :
    percentDecode (room + 1) (c :: src) =
      (c :: (percentDecode room src).1, (percentDecode room src).2) := by
  conv_lhs => unfold percentDecode
  rw [if_neg hc]

theorem percentDecode_escape {hi lo : UInt8} (hx : (isxdigit hi && isxdigit lo) = true) (room : ℕ)
    (src : Bytes) : percentDecode (room + 1) (0x25 :: hi :: lo :: src) =
      (mgUnhex hi lo :: (percentDecode room src).1, (percentDecode room src).2) := by
  conv_lhs => unfold percentDecode
  rw [if_pos rfl]
  simp only [hx, if_true]

/-- **Decoding undoes encoding**, in front of anything. -/
theorem percentDecode_encode (h : urlEncodeLoop len n s = some w) (room : ℕ) (t : Bytes) :
    percentDecode (room + s.length) (w ++ t) =
      (s ++ (percentDecode room t).1, (percentDecode room t).2) := by
  induction s generalizing n w with
  | nil =>
    cases h
    rfl
  | cons c s ih =>
    rw [urlEncodeLoop] at h
    split_ifs at h with hlen hsafe
    · obtain ⟨v, hv, rfl⟩ := Option.map_eq_some_iff.mp h
      rw [List.length_cons, ← Nat.add_assoc, List.cons_append,
        percentDecode_cons (ne_percent_of_safe hsafe), ih hv, List.cons_append]
    · obtain ⟨v, hv, rfl⟩ := Option.map_eq_some_iff.mp h
      obtain ⟨hi, lo, hhex, hdigits, hunhex⟩ := mgUnhex_mgHex c
      rw [List.length_cons, ← Nat.add_assoc, hhex]
      show percentDecode (room + s.length + 1) (0x25 :: hi :: lo :: (v ++ t)) = _
      rw [percentDecode_escape hdigits, ih hv, hunhex, List.cons_append]

end Encode

/-- Decoding a text that is decoded to its end, in front of anything. -/
theorem percentDecode_append : ∀ {room : ℕ} {s w : Bytes}, percentDecode room s = (w, true) →
    w.length < room → ∀ t, percentDecode room (s ++ t) =
      (w ++ (percentDecode (room - w.length) t).1, (percentDecode (room - w.length) t).2)
  | 0, _, w, _, hlt, _ => absurd hlt (Nat.not_lt_zero w.length)
  | room + 1, [], _, h, _, t => by
    cases h
    rfl
  | room + 1, c :: s, w, h, hlt, t => by
    by_cases hc : c = 0x25
    · subst hc
      obtain ⟨hi, lo, s, rfl, hx⟩ : ∃ hi lo s', s = hi :: lo :: s' ∧
          (isxdigit hi && isxdigit lo) = true := by
        unfold percentDecode at h
        rw [if_pos rfl] at h
        rcases s with _ | ⟨hi, _ | ⟨lo, s⟩⟩
        · cases h
        · cases h
        · by_cases hx : (isxdigit hi && isxdigit lo) = true
          · exact ⟨hi, lo, s, rfl, hx⟩
          · simp only [hx] at h
            cases h
      rw [percentDecode_escape hx, Prod.mk.injEq] at h
      obtain ⟨rfl, hok⟩ := h
      rw [List.length_cons] at hlt
      have ih := percentDecode_append (Prod.ext rfl hok) (Nat.lt_of_succ_lt_succ hlt) t
      simp only [List.cons_append]
      rw [percentDecode_escape hx, ih, List.length_cons, Nat.add_sub_add_right]
    · rw [percentDecode_cons hc, Prod.mk.injEq] at h
      obtain ⟨rfl, hok⟩ := h
      rw [List.length_cons] at hlt
      have ih := percentDecode_append (Prod.ext rfl hok) (Nat.lt_of_succ_lt_succ hlt) t
      simp only [List.cons_append]
      rw [percentDecode_cons hc, ih, List.length_cons, Nat.add_sub_add_right]

/-! ## `listdir` -/

/-- `%.1f` of a quotient. -/
def oneDecimal (n d : ℕ) : Bytes :=
  let q := 10 * n / d
  let r := 10 * n % d
  let q := if 2 * r > d ∨ 2 * r = d ∧ q % 2 = 1 then q + 1 else q
  ascii (toString (q / 10)) ++ ascii "." ++ ascii (toString (q % 10))

/-- What `listdir` works on; `mod` is a time as `strftime` and `localtime_r` write it. -/
structure Directory where
  fs : FileSystem
  extra : ExtraHeaders
  dir : Bytes
  list : List Bytes
  mod : UInt64 → Bytes

/-- The link of an entry. -/
def href (name : Bytes) (isDir : Bool) : Bytes :=
  mgUrlEncode name mgPathMax ++ if isDir then ascii "/" else []

def entrySize (st : Stat) : Bytes :=
  if st.isDir then ascii "[DIR]"
  else if st.size < 1024 then ascii (toString st.size)
  else if st.size < 0x100000 then oneDecimal st.size 1024 ++ ascii "k"
  else if st.size < 0x40000000 then oneDecimal st.size 1048576 ++ ascii "M"
  else oneDecimal st.size 1073741824 ++ ascii "G"

def printdirentry (d : Directory) (name : Bytes) : Bytes :=
  match d.fs.stat ((d.dir ++ ascii "/" ++ name).take (mgPathMax - 1)) with
  | none => []
  | some st =>
    ascii "  <tr><td><a href=\"" ++ href name st.isDir ++ ascii "\">" ++ name ++
      (if st.isDir then ascii "/" else []) ++ ascii "</a></td><td>" ++ d.mod st.mtime ++
      ascii "</td><td>" ++ entrySize st ++ ascii "</td></tr>\n"

def sortJsCode : Bytes :=
  ascii "<script>function srt(tb, sc, so, d) \x7b" ++
  ascii "var tr = Array.prototype.slice.call(tb.rows, 0)," ++
  ascii "tr = tr.sort(function (a, b) \x7b var c1 = a.cells[sc], c2 = b.cells[sc]," ++
  ascii "n1 = c1.getAttribute('name'), n2 = c2.getAttribute('name'), " ++
  ascii "t1 = a.cells[2].getAttribute('name'), " ++
  ascii "t2 = b.cells[2].getAttribute('name'); " ++
  ascii "return so * (t1 < 0 && t2 >= 0 ? -1 : t2 < 0 && t1 >= 0 ? 1 : " ++
  ascii "n1 ? parseInt(n2) - parseInt(n1) : " ++
  ascii "c1.textContent.trim().localeCompare(c2.textContent.trim())); \x7d);"

def sortJsCode2 : Bytes :=
  ascii "for (var i = 0; i < tr.length; i++) tb.appendChild(tr[i]); " ++
  ascii "if (!d) window.location.hash = ('sc=' + sc + '&so=' + so); " ++
  ascii "\x7d;" ++
  ascii "window.onload = function() \x7b" ++
  ascii "var tb = document.getElementById('tb');" ++
  ascii "var m = /sc=([012]).so=(1|-1)/.exec(window.location.hash) || [0, 2, 1];" ++
  ascii "var sc = m[1], so = m[2]; document.onclick = function(ev) \x7b " ++
  ascii "var c = ev.target.rel; if (c) \x7bif (c == sc) so *= -1; srt(tb, c, so); " ++
  ascii "sc = c; ev.preventDefault();\x7d\x7d;" ++
  ascii "srt(tb, sc, so, true);" ++
  ascii "\x7d" ++
  ascii "</script>"

/-- The page behind the head. -/
def listBody (d : Directory) (uri : Bytes) : Bytes :=
  ascii "<!DOCTYPE html><html><head><title>Index of " ++ uri ++ ascii "</title>" ++ sortJsCode ++
    sortJsCode2 ++
    ascii "<style>th,td \x7btext-align: left; padding-right: 1em; " ++
    ascii "font-family: monospace; \x7d</style></head><body><h1>Index of " ++ uri ++
    ascii "</h1><table cellpadding=\"0\"><thead><tr><th><a href=\"#\" rel=\"0\">Name</a></th>" ++
    ascii "<th><a href=\"#\" rel=\"1\">Modified</a></th>" ++
    ascii "<th><a href=\"#\" rel=\"2\">Size</a></th></tr>" ++
    ascii "<tr><td colspan=\"3\"><hr></td></tr></thead><tbody id=\"tb\">\n" ++
    d.list.flatMap (printdirentry d) ++
    ascii "</tbody><tfoot><tr><td colspan=\"3\"><hr></td></tr></tfoot></table>" ++
    ascii "<address>Mongoose v.7.4</address></body></html>\n"

/-- The head, with room for the length. -/
def listHead (extraHeaders : Bytes) : Bytes :=
  ascii "HTTP/1.1 200 OK\r\nContent-Type: text/html; charset=utf-8\r\n" ++ extraHeaders ++
    ascii "Content-Length:         \r\n\r\n"

/-- `listdir`, if the send buffer takes everything. The length is copied from a buffer of ten
bytes to ten bytes before the end of the head. -/
def listdir (d : Directory) (uri : Bytes) : Bytes :=
  let head := listHead (d.extra.headers.flatMap Message.headerLine)
  let body := listBody d uri
  let number := ascii (toString body.length)
  let n := if number.length > 10 then 0 else number.length
  let off := head.length
  head.take (off - 10) ++ (number.take 9 ++ [0]).take n ++ head.drop (off - 10 + n) ++ body

/-! ## The page as a message -/

section Client

/-- The headers in front of the length. -/
def listHeaders (extra : ExtraHeaders) : List HttpHeader :=
  ⟨ascii "Content-Type", ascii "text/html; charset=utf-8"⟩ :: extra.headers

/-- The head with the length in it. -/
def filledHead (extra : ExtraHeaders) (n : ℕ) : Bytes :=
  ascii "HTTP/1.1 200 OK" ++ crlf ++ (listHeaders extra).flatMap Message.headerLine ++
    paddedLine ⟨ascii "Content-Length", ascii (toString n)⟩ 3 (6 - (ascii (toString n)).length) ++
    crlf

/-- What is read of the head of a page of `n` bytes. -/
def listMessage (extra : ExtraHeaders) (n : ℕ) : HttpMessage where
  method := ascii "HTTP/1.1"
  uri := ascii "200"
  query := []
  proto := ascii "OK"
  headers := listHeaders extra ++ [⟨ascii "Content-Length", ascii (toString n)⟩]
  headLen := (filledHead extra n).length
  bodyLen := n
  messageLen := (filledHead extra n).length + n

variable {extra : ExtraHeaders} {n : ℕ}

theorem unframed_listHeaders (extra : ExtraHeaders) : ∀ h ∈ listHeaders extra, Unframed h := by
  intro h hh
  rcases List.mem_cons.mp hh with rfl | hh
  · refine ⟨⟨?_, ?_, ?_, ?_, ?_⟩, ?_, ?_⟩
    all_goals decide +kernel
  · exact extra.unframed h hh

theorem listHeaders_fit (extra : ExtraHeaders) : ∀ h ∈ listHeaders extra, HeaderFits h :=
  fun h hh => (unframed_listHeaders extra h hh).fits

theorem length_number (hn : n < 10 ^ 6) : (ascii (toString n)).length ≤ 6 := by
  show ((toString n).toList.map _).length ≤ 6
  rw [List.length_map]
  exact (Nat.length_repr_le_iff (by decide)).mpr hn

/-- Six digits fit in front of the end of the line. -/
theorem listdir_eq {d : Directory} {uri : Bytes} (hn : (listBody d uri).length < 10 ^ 6) :
    listdir d uri = filledHead d.extra (listBody d uri).length ++ listBody d uri := by
  have hlen := length_number hn
  have hstart : ascii "HTTP/1.1 200 OK\r\nContent-Type: text/html; charset=utf-8\r\n" =
      ascii "HTTP/1.1 200 OK" ++ crlf ++
        Message.headerLine ⟨ascii "Content-Type", ascii "text/html; charset=utf-8"⟩ := by
    decide +kernel
  have hroom : ascii "Content-Length:         \r\n\r\n" =
      (ascii "Content-Length" ++ 0x3a :: List.replicate 3 0x20) ++
        (List.replicate 6 0x20 ++ (crlf ++ crlf)) := by
    decide +kernel
  have hten : (List.replicate 6 (0x20 : UInt8) ++ (crlf ++ crlf)).length = 10 := rfl
  simp only [listdir, listHead, hroom]
  generalize listBody d uri = body at hlen ⊢
  generalize hnumber : ascii (toString body.length) = number at hlen ⊢
  have hcopy : (number.take 9 ++ [0]).take number.length = number := by
    rw [List.take_of_length_le (show number.length ≤ 9 by omega), List.take_left]
  have hrest : (List.replicate 6 (0x20 : UInt8) ++ (crlf ++ crlf)).drop number.length =
      List.replicate (6 - number.length) 0x20 ++ (crlf ++ crlf) := by
    rw [List.drop_append, List.drop_replicate, List.length_replicate,
      Nat.sub_eq_zero_of_le hlen, List.drop_zero]
  rw [← List.append_assoc _ _ (List.replicate 6 0x20 ++ (crlf ++ crlf)), List.length_append, hten,
    Nat.add_sub_cancel, List.take_left, if_neg (show ¬number.length > 10 by omega), hcopy,
    ← List.drop_drop, List.drop_left, hrest, hstart]
  simp only [filledHead, paddedLine, listHeaders, hnumber, List.flatMap_cons, List.append_assoc,
    List.cons_append]

theorem mgHttpGetRequestLen_filledHead (extra : ExtraHeaders) (n : ℕ) (r : Bytes) :
    mgHttpGetRequestLen (filledHead extra n ++ r) = (filledHead extra n).length := by
  have hnumber := (headerFits_contentLength n).text
  have hpadded : ∀ c ∈ ascii "Content-Length" ++ 0x3a :: (List.replicate 3 0x20 ++
      (ascii (toString n) ++ List.replicate (6 - (ascii (toString n)).length) 0x20)),
      TextByte c := by
    intro c hc
    simp only [List.mem_append, List.mem_cons, List.not_mem_nil, or_false, List.mem_replicate]
      at hnumber hc
    rcases hc with hc | rfl | ⟨-, rfl⟩ | hc | ⟨-, rfl⟩
    · exact hnumber c (.inl (.inl hc))
    · decide
    · decide
    · exact hnumber c (.inr hc)
    · decide
  have hsplit : filledHead extra n ++ r = ascii "HTTP/1.1 200 OK" ++ crlf ++
      ((listHeaders extra).flatMap Message.headerLine ++
        ((ascii "Content-Length" ++ 0x3a :: (List.replicate 3 0x20 ++ (ascii (toString n) ++
          List.replicate (6 - (ascii (toString n)).length) 0x20))) ++ crlf ++ (crlf ++ r))) := by
    simp [filledHead, paddedLine]
  rw [hsplit, mgHttpGetRequestLen, requestLenLoop_line (by decide +kernel) (by decide),
    requestLenLoop_headers (listHeaders_fit extra), requestLenLoop_line hpadded (by simp),
    requestLenLoop_end (by simp [crlf]; omega)]
  simp [filledHead, paddedLine, crlf]
  omega

/-- Headers in front of other lines. -/
theorem mgHttpParseHeaders_append {hs : List HttpHeader} (hhs : ∀ h ∈ hs, HeaderFits h)
    (hr : ∀ c ∈ r.head?, c ≠ 0 ∧ c ≠ 0x0a) (max : ℕ) :
    mgHttpParseHeaders (hs.length + max) (hs.flatMap Message.headerLine ++ r) =
      hs ++ mgHttpParseHeaders max r := by
  induction hs with
  | nil =>
    rw [List.length_nil, Nat.zero_add]
    rfl
  | cons h hs ih =>
    have htail : ∀ g ∈ hs, HeaderFits g := fun g hg => hhs g (List.mem_cons_of_mem _ hg)
    have hnext : ∀ c ∈ (hs.flatMap Message.headerLine ++ r).head?, c ≠ 0 ∧ c ≠ 0x0a := by
      cases hs with
      | nil => exact hr
      | cons g hs =>
        intro c hc
        rw [List.flatMap_cons, List.append_assoc] at hc
        have := (headerLine_head (htail g List.mem_cons_self) _ c hc).ne
        exact ⟨this.1, this.2.1⟩
    rw [List.flatMap_cons, List.append_assoc, List.length_cons, Nat.add_right_comm,
      mgHttpParseHeaders_cons (hhs h List.mem_cons_self) hnext, ih htail, List.cons_append]

/-- The headers, and the empty line behind them. -/
theorem mgHttpParseHeaders_filledHead (extra : ExtraHeaders) (n k : ℕ) :
    mgHttpParseHeaders mgMaxHttpHeaders ((listHeaders extra).flatMap Message.headerLine ++
      (paddedLine ⟨ascii "Content-Length", ascii (toString n)⟩ 3 k ++ crlf)) =
      (listMessage extra n).headers := by
  have hr : ∀ c ∈ (paddedLine ⟨ascii "Content-Length", ascii (toString n)⟩ 3 k ++ crlf).head?,
      c ≠ 0 ∧ c ≠ 0x0a := by
    rintro c ⟨⟩
    exact ⟨by decide, by decide⟩
  have hcrlf : ∀ c ∈ crlf.head?, c ≠ 0 ∧ c ≠ 0x0a := by
    rintro c ⟨⟩
    exact ⟨by decide, by decide⟩
  obtain ⟨j, hj⟩ : ∃ j, mgMaxHttpHeaders = (listHeaders extra).length + (j + 1 + 1) := by
    have := extra.room
    refine ⟨mgMaxHttpHeaders - extra.headers.length - 3, ?_⟩
    simp only [listHeaders, List.length_cons]
    omega
  rw [hj, mgHttpParseHeaders_append (listHeaders_fit extra) hr,
    mgHttpParseHeaders_padded (headerFits_contentLength n) 3 k hcrlf]
  rfl

/-- **The head is read with the length in it.** -/
theorem mgHttpParse_filledHead (hlt : (filledHead extra n).length + n < 2 ^ 31) (r : Bytes) :
    mgHttpParse (filledHead extra n ++ r) = some (listMessage extra n) := by
  have hreq := mgHttpGetRequestLen_filledHead extra n
  have hnumber : mgHttpGetHeader (listMessage extra n).headers (ascii "Content-Length") =
      some (ascii (toString n)) := by
    rw [listMessage, (getHeader_unframed (unframed_listHeaders extra) _).1,
      mgHttpGetHeader_cons (by decide), if_pos (by decide +kernel)]
  have hheaders := mgHttpParseHeaders_filledHead extra n (6 - (ascii (toString n)).length)
  generalize hlines : (listHeaders extra).flatMap Message.headerLine ++
    (paddedLine ⟨ascii "Content-Length", ascii (toString n)⟩ 3
      (6 - (ascii (toString n)).length) ++ crlf) = lines at hheaders
  have hsplit : filledHead extra n =
      ascii "HTTP/1.1" ++ 0x20 :: (ascii "200" ++ 0x20 :: (ascii "OK" ++ (crlf ++ lines))) := by
    have hstart : ascii "HTTP/1.1 200 OK" =
        ascii "HTTP/1.1" ++ 0x20 :: (ascii "200" ++ 0x20 :: ascii "OK") := rfl
    simp only [filledHead, hstart, ← hlines, List.append_assoc, List.cons_append]
  have hpos : 0 < (filledHead extra n).length := by
    rw [hsplit]
    simp only [List.length_append, List.length_cons]
    omega
  have hmethod : skip (filledHead extra n) [0x20] =
      (ascii "HTTP/1.1", ascii "200" ++ 0x20 :: (ascii "OK" ++ (crlf ++ lines))) := by
    rw [hsplit]
    refine skip_word (by decide +kernel) ?_
    rintro c ⟨⟩
    exact ⟨by decide, by decide⟩
  have huri : skip (ascii "200" ++ 0x20 :: (ascii "OK" ++ (crlf ++ lines))) [0x20] =
      (ascii "200", ascii "OK" ++ (crlf ++ lines)) := by
    refine skip_word (by decide +kernel) ?_
    rintro c ⟨⟩
    exact ⟨by decide, by decide⟩
  have hproto : skip (ascii "OK" ++ (crlf ++ lines)) [0x0d, 0x0a] = (ascii "OK", lines) := by
    rw [skip_append (by decide +kernel)]
    · show (_, List.dropWhile _ (0x0d :: 0x0a :: lines)) = _
      rw [List.dropWhile_cons_of_pos (by decide), List.dropWhile_cons_of_pos (by decide), ← hlines,
        listHeaders, List.flatMap_cons, List.append_assoc]
      refine congrArg _ (dropWhile_of_head fun c hc => ?_)
      have := (headerLine_head (listHeaders_fit extra _ List.mem_cons_self) _ c hc).ne
      simp [strchr, this]
    · rintro c ⟨⟩
      exact .inr (by decide)
  unfold mgHttpParse
  simp only [hreq, if_neg (show ¬((filledHead extra n).length : ℤ) ≤ 0 by omega),
    Int.toNat_natCast, List.take_left, hmethod, huri, hproto, hheaders, hnumber]
  rw [if_neg (by decide), bodyLengths_number hlt]
  rfl

/-- **The page is one message**, whatever follows it. -/
theorem request_listdir {d : Directory} {uri : Bytes} (hn : (listBody d uri).length < 10 ^ 6)
    (hlt : (listdir d uri).length < 2 ^ 31) (r : Bytes) : request (listdir d uri ++ r) =
      .item ⟨listMessage d.extra (listBody d uri).length, some (listBody d uri)⟩
        (listdir d uri).length := by
  have hchunked : mgIsChunked (listMessage d.extra (listBody d uri).length) = false := by
    unfold mgIsChunked listMessage
    rw [(getHeader_unframed (unframed_listHeaders d.extra) _).2, mgHttpGetHeader_cons (by decide),
      if_neg (by decide +kernel)]
    rfl
  rw [listdir_eq hn, List.length_append] at hlt ⊢
  unfold request
  rw [List.append_assoc, mgHttpParse_filledHead hlt]
  simp only [hchunked, Bool.false_eq_true, if_false]
  rw [if_pos (by simp [listMessage]), httpMsg]
  simp only [listMessage, List.drop_left, List.take_left, if_true]

end Client

/-! ## Links -/

section Link

variable {root uri w name : Bytes} {room : ℕ}

theorem stripSlashes_of_last {s : Bytes} (h : s.getLast? ≠ some 0x2f) : stripSlashes s = s := by
  unfold stripSlashes
  rw [dropWhile_of_head, List.reverse_reverse]
  intro c hc
  rw [List.head?_reverse] at hc
  exact decide_eq_false fun h0 => h (h0 ▸ hc)

theorem stripSlashes_slash (s : Bytes) : stripSlashes (s ++ [0x2f]) = stripSlashes s := by
  unfold stripSlashes
  rw [List.reverse_append, List.reverse_singleton, List.singleton_append,
    List.dropWhile_cons_of_pos (by decide)]

/-- A slash behind the path, if any, is stripped. -/
theorem stripSlashes_append {s u : Bytes} (h : s.getLast? ≠ some 0x2f)
    (hu : u = [] ∨ u = [0x2f]) : stripSlashes (s ++ u) = s := by
  rcases hu with rfl | rfl
  · rw [List.append_nil, stripSlashes_of_last h]
  · rw [stripSlashes_slash, stripSlashes_of_last h]

theorem percentDecode_nil (room : ℕ) : percentDecode room [] = ([], true) := by
  cases room with
  | zero => rfl
  | succ room => rfl

/-- The slash behind the link to a directory is decoded if there is room for it. -/
theorem percentDecode_slash (room : ℕ) (isDir : Bool) :
    ∃ u, percentDecode room (if isDir then ascii "/" else []) = (u, true) ∧
      (u = [] ∨ u = [0x2f]) := by
  cases isDir with
  | false => exact ⟨[], percentDecode_nil room, .inl rfl⟩
  | true =>
    cases room with
    | zero => exact ⟨[], rfl, .inl rfl⟩
    | succ room =>
      refine ⟨[0x2f], ?_, .inr rfl⟩
      rw [if_pos rfl, show ascii "/" = [0x2f] from rfl, percentDecode_cons (by decide),
        percentDecode_nil]

/-- **A link leads to its entry**: the name comes back behind what the request for the page has in
front of the link. -/
theorem listing_link (fs : FileSystem) (hroom : root.length + room + 1 = mgPathMax)
    (hroot : 0 ∉ root) (huri : percentDecode room uri = (w, true)) (hw : 0 ∉ w)
    (hname : 0 ∉ name) (hne : name ≠ []) (hslash : 0x2f ∉ name)
    (hlen : 3 * name.length + 4 ≤ mgPathMax) (hfit : w.length + name.length ≤ room) (isDir : Bool) :
    unresolved fs root (uri ++ href name isDir) = root ++ (w ++ name) := by
  obtain ⟨v, hv⟩ := @urlEncodeLoop_eq_some name mgPathMax 0 (by omega)
  have hpos := List.length_pos_iff.mpr hne
  obtain ⟨k, hk⟩ : ∃ k, room - w.length = k + name.length :=
    ⟨room - w.length - name.length, by omega⟩
  obtain ⟨u, hu, hslashes⟩ := percentDecode_slash k isDir
  -- what is decoded: the request, the name, and perhaps a slash
  have hdecode : percentDecode room (uri ++ href name isDir) = (w ++ (name ++ u), true) := by
    rw [href, mgUrlEncode, hv, Option.getD_some, percentDecode_append huri (by omega), hk,
      percentDecode_encode hv, hu]
  have hzero : 0 ∉ w ++ (name ++ u) := by
    simp only [List.mem_append, not_or]
    refine ⟨hw, hname, ?_⟩
    rcases hslashes with rfl | rfl
    · exact List.not_mem_nil
    · decide
  have hlast : (root ++ (w ++ name)).getLast? ≠ some 0x2f := by
    rw [← List.append_assoc, List.getLast?_append_of_ne_nil _ hne]
    exact fun h => hslash (List.mem_of_getLast? h)
  rw [unresolved_eq fs _ hroom hroot, decodedUri, hdecode]
  simp only [if_true]
  rw [cstr_eq_self hzero, ← List.append_assoc w, ← List.append_assoc root]
  exact stripSlashes_append hlast hslashes

/-- A file system with nothing in it. -/
def emptySystem : FileSystem where
  access _ := false
  realpath _ := .error []
  stat _ := none
  openRead _ := false
  stale := []
  realpath_room := by rintro _ _ ⟨⟩
  realpath_str := by rintro _ _ ⟨⟩

theorem listing_link_space : unresolved emptySystem (ascii "/w")
      (ascii "/d/" ++ href (ascii "a b.txt") false) =
    ascii "/w" ++ (ascii "/d/" ++ ascii "a b.txt") :=
  @listing_link (ascii "/w") (ascii "/d/") (ascii "/d/") (ascii "a b.txt") 4093 emptySystem
    rfl (by decide) (by decide +kernel) (by decide) (by decide) (by decide) (by decide)
    (by decide) (by decide) false

end Link

end Csrv.Mongoose
