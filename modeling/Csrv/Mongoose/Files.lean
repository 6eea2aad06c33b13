import Csrv.Mongoose.Reply
import Csrv.Mongoose.Static

/-!
# Files over a connection

The responses of `mg_http_serve_file`. It announces the part of a file that a `Range` header asks
for, or nothing if there is no such part, and leaves the file to `static_cb`, which goes on to its
end.

1. `framed_message`, `Found.output`: a response is a message, and then what is `left` of the file.
2. `serveFile_client`: the client goes on with that as if it was the next response.
3. `files_in_order`: if nothing is left, the client gets the files under every schedule.
-/

namespace Csrv.Mongoose

open Chunked (crlf)
open Incremental (Drains)

/-! ## `guess_content_type` -/

def mimeTab : List (String × String) :=
  [("html", "text/html; charset=utf-8"),
   ("htm", "text/html; charset=utf-8"),
   ("css", "text/css; charset=utf-8"),
   ("js", "text/javascript; charset=utf-8"),
   ("gif", "image/gif"),
   ("png", "image/png"),
   ("woff", "font/woff"),
   ("ttf", "font/ttf"),
   ("aac", "audio/aac"),
   ("avi", "video/x-msvideo"),
   ("azw", "application/vnd.amazon.ebook"),
   ("bin", "application/octet-stream"),
   ("bmp", "image/bmp"),
   ("bz", "application/x-bzip"),
   ("bz2", "application/x-bzip2"),
   ("csv", "text/csv"),
   ("doc", "application/msword"),
   ("epub", "application/epub+zip"),
   ("exe", "application/octet-stream"),
   ("gz", "application/gzip"),
   ("ico", "image/x-icon"),
   ("json", "application/json"),
   ("mid", "audio/mid"),
   ("mjs", "text/javascript"),
   ("mov", "video/quicktime"),
   ("mp3", "audio/mpeg"),
   ("mp4", "video/mp4"),
   ("mpeg", "video/mpeg"),
   ("mpg", "video/mpeg"),
   ("ogg", "application/ogg"),
   ("pdf", "application/pdf"),
   ("rar", "application/rar"),
   ("rtf", "application/rtf"),
   ("shtml", "text/html; charset=utf-8"),
   ("svg", "image/svg+xml"),
   ("tar", "application/tar"),
   ("tgz", "application/tar-gz"),
   ("txt", "text/plain; charset=utf-8"),
   ("wasm", "application/wasm"),
   ("wav", "audio/wav"),
   ("weba", "audio/webm"),
   ("webm", "video/webm"),
   ("webp", "image/webp"),
   ("xls", "application/excel"),
   ("xml", "application/xml"),
   ("xsl", "application/xml"),
   ("zip", "application/zip"),
   ("3gp", "video/3gpp"),
   ("7z", "application/x-7z-compressed"),
   ("7z", "application/x-7z-compressed")]

/-- `guess_content_type` without overrides. A path without a dot is an extension. -/
def guessContentType (path : Bytes) : Bytes :=
  let ext := (path.reverse.takeWhile (· ≠ 0x2e)).reverse
  match mimeTab.find? fun e => ascii e.1 = ext with
  | none => ascii "text/plain; charset=utf-8"
  | some e => ascii e.2

/-! ## Ranges -/

/-- What a request selects of a file: the status, the length that is announced, the value of
`Content-Range`, and where the reading starts. -/
structure Selection where
  status : ℕ
  cl : ℕ
  range : Option Bytes
  offset : ℕ

/-- The part of `mg_http_serve_file` that handles the `Range` header. -/
def selection (rh : Option Bytes) (size : ℕ) : Selection :=
  match rh with
  | none => ⟨200, size, none, 0⟩
  | some rh =>
    let (n, r1, r2) := getrange rh
    if n > 0 ∧ r1 ≥ 0 ∧ r2 ≥ 0 then
      let r2 := if n = 1 then (size : ℤ) - 1 else r2
      if r1 > r2 ∨ r2 ≥ size then
        ⟨416, 0, some (ascii "bytes */" ++ ascii (toString size)), 0⟩
      else
        let cl := (r2 - r1 + 1).toNat
        ⟨206, cl, some (ascii "bytes " ++ ascii (toString r1.toNat) ++ ascii "-" ++
          ascii (toString (r1.toNat + cl - 1)) ++ ascii "/" ++ ascii (toString size)), r1.toNat⟩
    else ⟨200, size, none, 0⟩

section Selection

variable {rh : Option Bytes} {size : ℕ}

/-- The selected part is a part of the file. -/
theorem selection_le (rh : Option Bytes) (size : ℕ) :
    (selection rh size).offset + (selection rh size).cl ≤ size := by
  unfold selection
  cases rh with
  | none => exact (Nat.zero_add size).le
  | some rh =>
    rcases getrange rh with ⟨n, r1, r2⟩
    simp only
    split_ifs with hn h1 h1
    · exact Nat.zero_le _
    · simp only
      omega
    · exact Nat.zero_le _
    · simp only
      omega
    · exact (Nat.zero_add size).le

end Selection

/-! ## `mg_http_serve_file` -/

/-- The head that `mg_http_serve_file` prints. -/
def fileHead (s : Selection) (mime etag extraHeaders : Bytes) : Bytes :=
  ascii "HTTP/1.1 " ++ ascii (toString s.status) ++ ascii " " ++ mgHttpStatusCodeStr s.status ++
    crlf ++ ascii "Content-Type: " ++ mime ++ crlf ++ ascii "Etag: " ++ etag ++ crlf ++
    ascii "Content-Length: " ++ ascii (toString s.cl) ++ crlf ++
    (s.range.map fun r => ascii "Content-Range: " ++ r ++ crlf).getD [] ++ extraHeaders ++ crlf

/-- Where a request for a file leads: a path, and what is to be read there. -/
structure Found where
  fs : FileSystem
  extra : ExtraHeaders
  path : Bytes
  data : Bytes
  size_eq : ∀ st, fs.stat path = some st → data.length = st.size

namespace Found

/-- The request has a tag of the file as it is. -/
def tagged (hm : HttpMessage) (st : Stat) : Bool :=
  (mgHttpGetHeader hm.headers (ascii "If-None-Match")).any
    fun inm => mgVcasecmp inm (mgHttpEtag st.size st.mtime) = 0

/-- What `mg_http_serve_file` does to the connection. -/
def response (f : Found) (hm : HttpMessage) : Response :=
  match f.fs.openRead f.path, f.fs.stat f.path with
  | true, some st =>
    if tagged hm st then
      ⟨[ascii "HTTP/1.1 304 Not Modified\r\nContent-Length: 0\r\n\r\n"], none, false⟩
    else
      let s := selection (mgHttpGetHeader hm.headers (ascii "Range")) st.size
      let head := fileHead s (guessContentType f.path) (mgHttpEtag st.size st.mtime)
        (f.extra.headers.flatMap Message.headerLine)
      if mgVcasecmp hm.method (ascii "HEAD") = 0 then ⟨[head], none, true⟩
      else ⟨[head], some (f.data.drop s.offset), false⟩
  | _, _ => ⟨mgHttpReply 404 [] (ascii "Not found\n"), none, false⟩

end Found

/-! ## A response as a message -/

/-- The headers that announce a part of a file. -/
def Selection.headers (s : Selection) (mime etag : Bytes) (extra : ExtraHeaders) :
    List HttpHeader :=
  ⟨ascii "Content-Type", mime⟩ :: ⟨ascii "Etag", etag⟩ ::
    ⟨ascii "Content-Length", ascii (toString s.cl)⟩ ::
      ((s.range.map fun r => ⟨ascii "Content-Range", r⟩).toList ++ extra.headers)

def Selection.message (s : Selection) (mime etag : Bytes) (extra : ExtraHeaders) (body : Bytes) :
    Message :=
  ⟨ascii "HTTP/1.1", ascii (toString s.status), mgHttpStatusCodeStr s.status,
    s.headers mime etag extra, body⟩

theorem head_selection (s : Selection) (mime etag : Bytes) (extra : ExtraHeaders) (body : Bytes) :
    (s.message mime etag extra body).head =
      fileHead s mime etag (extra.headers.flatMap Message.headerLine) := by
  have hproto : ascii "HTTP/1.1 " = ascii "HTTP/1.1" ++ [0x20] := rfl
  have hspace : ascii " " = [0x20] := rfl
  have htype : ascii "Content-Type: " = ascii "Content-Type" ++ [0x3a, 0x20] := rfl
  have htag : ascii "Etag: " = ascii "Etag" ++ [0x3a, 0x20] := rfl
  have hlength : ascii "Content-Length: " = ascii "Content-Length" ++ [0x3a, 0x20] := rfl
  have hrange : ascii "Content-Range: " = ascii "Content-Range" ++ [0x3a, 0x20] := rfl
  unfold Message.head Message.startLine fileHead Selection.message Selection.headers
  rw [hproto, hspace, htype, htag, hlength, hrange]
  cases s.range with
  | none => simp [Message.headerLine]
  | some r => simp [Message.headerLine]

namespace Found

/-- What the client is told, where a file is sent. -/
def sent (f : Found) (hm : HttpMessage) (st : Stat) : Message :=
  let s := selection (mgHttpGetHeader hm.headers (ascii "Range")) st.size
  s.message (guessContentType f.path) (mgHttpEtag st.size st.mtime) f.extra
    ((f.data.drop s.offset).take s.cl)

/-- The message that a response to `GET` begins with. -/
def message (f : Found) (hm : HttpMessage) : Message :=
  match f.fs.openRead f.path, f.fs.stat f.path with
  | true, some st =>
    if tagged hm st then
      ⟨ascii "HTTP/1.1", ascii "304", ascii "Not Modified",
        [⟨ascii "Content-Length", ascii "0"⟩], []⟩
    else f.sent hm st
  | _, _ => (⟨404, [], ascii "Not found\n"⟩ : HttpReply).message

/-- What is sent of the file behind it. -/
def left (f : Found) (hm : HttpMessage) : Bytes :=
  match f.fs.openRead f.path, f.fs.stat f.path with
  | true, some st =>
    if tagged hm st then []
    else
      let s := selection (mgHttpGetHeader hm.headers (ascii "Range")) st.size
      f.data.drop (s.offset + s.cl)
  | _, _ => []

variable {f : Found} {hm : HttpMessage}

/-- What is written: the message, and then what is left of the file. -/
theorem output (hget : mgVcasecmp hm.method (ascii "HEAD") ≠ 0) :
    (f.response hm).sends.flatten ++ (f.response hm).file.getD [] =
      (f.message hm).render ++ f.left hm := by
  unfold response message left
  cases f.fs.openRead f.path with
  | false =>
    refine Eq.trans ?_ (congrArg (· ++ []) (flatten_sends ⟨404, [], ascii "Not found\n"⟩))
    rfl
  | true =>
    cases f.fs.stat f.path with
    | none =>
      refine Eq.trans ?_ (congrArg (· ++ []) (flatten_sends ⟨404, [], ascii "Not found\n"⟩))
      rfl
    | some st =>
      simp only
      split_ifs
      · decide +kernel
      · rw [sent, Message.render, head_selection]
        simp only [List.flatten_cons, List.flatten_nil, List.append_nil, Option.getD_some,
          Selection.message, List.append_assoc, List.take_append_drop, ← List.drop_drop]

end Found

/-! ## The headers of a file -/

theorem headerFits_of_value {name v : Bytes} (hname : name ≠ [])
    (hnames : ∀ c ∈ name, WordByte c ∧ c ≠ 0x3a) (htext : ∀ c ∈ v, TextByte c)
    (hfirst : v.head? ≠ some 0x20 ∧ v.head? ≠ some 0x3a) (hlast : v.getLast? ≠ some 0x20) :
    HeaderFits ⟨name, v⟩ where
  name_ne := hname
  name := hnames
  value := htext
  first _ hc := ⟨fun h => hfirst.1 (h ▸ hc), fun h => hfirst.2 (h ▸ hc)⟩
  last _ hc := fun h => hlast (h ▸ hc)

/-- A type is a value. -/
theorem guessContentType_fits (path : Bytes) :
    HeaderFits ⟨ascii "Content-Type", guessContentType path⟩ := by
  have hall : ∀ p ∈ ("", "text/plain; charset=utf-8") :: mimeTab,
      ((ascii p.2).all fun c => TextByte c) = true ∧
        ((ascii p.2).head? ≠ some 0x20 ∧ (ascii p.2).head? ≠ some 0x3a) ∧
        (ascii p.2).getLast? ≠ some 0x20 := by
    decide +kernel
  obtain ⟨p, hp, heq⟩ : ∃ p ∈ ("", "text/plain; charset=utf-8") :: mimeTab,
      guessContentType path = ascii p.2 := by
    unfold guessContentType
    simp only
    split
    · exact ⟨_, List.mem_cons_self, rfl⟩
    · rename_i e he
      exact ⟨e, List.mem_cons_of_mem _ (List.mem_of_find?_eq_some he), rfl⟩
  obtain ⟨htext, hfirst, hlast⟩ := hall p hp
  rw [heq]
  exact headerFits_of_value (by decide +kernel) (by decide +kernel)
    (fun c hc => of_decide_eq_true (List.all_eq_true.mp htext c hc)) hfirst hlast

/-- The digits of a base up to sixteen. -/
theorem textByte_of_mem_toDigits {b n : ℕ} (hb : 0 < b) (hb' : b ≤ 16) {d : Char}
    (h : d ∈ Nat.toDigits b n) : TextByte (UInt8.ofNat d.toNat) := by
  have hcore : ∀ (fuel n : ℕ) (ds : List Char), (∀ d ∈ ds, ∃ k < 16, d = Nat.digitChar k) →
      ∀ d ∈ Nat.toDigitsCore b fuel n ds, ∃ k < 16, d = Nat.digitChar k := by
    intro fuel
    induction fuel with
    | zero => exact fun n ds hds => hds
    | succ fuel ih =>
      intro n ds hds
      have hcons : ∀ d ∈ Nat.digitChar (n % b) :: ds, ∃ k < 16, d = Nat.digitChar k := by
        intro d hd
        rcases List.mem_cons.mp hd with rfl | hd
        · exact ⟨n % b, (Nat.mod_lt n hb).trans_le hb', rfl⟩
        · exact hds d hd
      rw [Nat.toDigitsCore]
      split_ifs
      · exact hcons
      · exact ih _ _ hcons
  obtain ⟨k, hk, rfl⟩ := hcore _ _ [] (fun d hd => absurd hd List.not_mem_nil) d h
  have hall : ∀ k < 16, TextByte (UInt8.ofNat (Nat.digitChar k).toNat) := by decide
  exact hall k hk

theorem etag_fits (size : ℕ) (mtime : UInt64) :
    HeaderFits ⟨ascii "Etag", mgHttpEtag size mtime⟩ := by
  refine headerFits_of_value (by decide +kernel) (by decide +kernel) (fun c hc => ?_) ?_ ?_
  · unfold mgHttpEtag at hc
    simp only [List.mem_append, List.mem_map] at hc
    rcases hc with (((hc | ⟨d, hd, rfl⟩) | hc) | ⟨d, hd, rfl⟩) | hc
    · revert c
      decide +kernel
    · exact textByte_of_mem_toDigits (by decide) (by decide) hd
    · revert c
      decide +kernel
    · exact textByte_of_mem_toDigits (by decide) (by decide) hd
    · revert c
      decide +kernel
  · have hhead : (mgHttpEtag size mtime).head? = some 0x22 := rfl
    rw [hhead]
    decide
  · have hlast : (mgHttpEtag size mtime).getLast? = some 0x22 := List.getLast?_concat
    rw [hlast]
    decide

theorem getLast?_number (s : Bytes) (n : ℕ) : (s ++ ascii (toString n)).getLast? ≠ some 0x20 := by
  intro h
  rw [List.getLast?_append_of_ne_nil _ (ascii_toString_ne_nil n)] at h
  exact absurd (isdigit_of_mem (List.mem_of_getLast? h)) (by decide)

theorem range_fits (rh : Option Bytes) (size : ℕ) :
    ∀ r ∈ (selection rh size).range, HeaderFits ⟨ascii "Content-Range", r⟩ := by
  have hnumber : ∀ {n : ℕ} {c : UInt8}, c ∈ ascii (toString n) → TextByte c := fun hc =>
    (wordByte_of_isdigit (isdigit_of_mem hc)).1
  have hfits : ∀ {l : Bytes} {n : ℕ}, (∀ c ∈ l, TextByte c) → l.head? = some 0x62 →
      HeaderFits ⟨ascii "Content-Range", l ++ ascii (toString n)⟩ := by
    intro l n hl hhead
    refine headerFits_of_value (by decide +kernel) (by decide +kernel) (fun c hc => ?_) ?_
      (getLast?_number l n)
    · exact (List.mem_append.mp hc).elim (hl c) hnumber
    · rw [List.head?_append, hhead, Option.some_or]
      decide
  intro r hr
  unfold selection at hr
  cases rh with
  | none => cases hr
  | some rh =>
    rcases getrange rh with ⟨n, r1, r2⟩
    simp only at hr
    have hpart : ∀ a b : ℕ, ∀ c ∈ ascii "bytes " ++ ascii (toString a) ++ ascii "-" ++
        ascii (toString b) ++ ascii "/", TextByte c := by
      intro a b c hc
      simp only [List.mem_append] at hc
      rcases hc with (((hc | hc) | hc) | hc) | hc
      · revert c
        decide +kernel
      · exact hnumber hc
      · revert c
        decide +kernel
      · exact hnumber hc
      · revert c
        decide +kernel
    have h416 : ∀ {r : Bytes}, some (ascii "bytes */" ++ ascii (toString size)) = some r →
        HeaderFits ⟨ascii "Content-Range", r⟩ := fun h =>
      Option.some.inj h ▸ hfits (by decide +kernel) rfl
    split_ifs at hr
    · exact h416 hr
    · exact Option.some.inj hr ▸ hfits (hpart _ _) rfl
    · exact h416 hr
    · exact Option.some.inj hr ▸ hfits (hpart _ _) rfl
    · cases hr

namespace Found

variable {f : Found} {hm : HttpMessage}

/-- The headers that a parser looks for. -/
theorem slots_message (s : Selection) (mime etag : Bytes) (extra : ExtraHeaders) (body : Bytes) :
    mgHttpGetHeader (s.message mime etag extra body).slots (ascii "Content-Length") =
        some (ascii (toString s.cl)) ∧
      mgHttpGetHeader (s.message mime etag extra body).slots (ascii "Transfer-Encoding") =
        none := by
  have hlen : (s.headers mime etag extra).length ≤ mgMaxHttpHeaders := by
    have := extra.room
    unfold Selection.headers
    cases s.range with
    | none =>
      simp only [Option.map_none, Option.toList_none, List.nil_append, List.length_cons]
      omega
    | some r =>
      simp only [Option.map_some, Option.toList_some, List.singleton_append, List.length_cons]
      omega
  have hslots : (s.message mime etag extra body).slots = s.headers mime etag extra := by
    unfold Message.slots
    rw [if_neg (show (s.message mime etag extra body).headers ≠ [] from List.cons_ne_nil _ _)]
    exact List.take_of_length_le hlen
  have hcoding : mgHttpGetHeader extra.headers (ascii "Transfer-Encoding") = none := by
    have := (getHeader_unframed extra.unframed []).2
    rwa [List.append_nil] at this
  have hrange : mgHttpGetHeader
      ((s.range.map fun r => (⟨ascii "Content-Range", r⟩ : HttpHeader)).toList ++ extra.headers)
      (ascii "Transfer-Encoding") = none := by
    cases s.range with
    | none => exact hcoding
    | some r =>
      rw [Option.map_some, Option.toList_some, List.singleton_append,
        mgHttpGetHeader_cons (by decide +kernel), if_neg (by decide +kernel), hcoding]
  rw [hslots]
  unfold Selection.headers
  constructor
  · rw [mgHttpGetHeader_cons (by decide +kernel), if_neg (by decide +kernel),
      mgHttpGetHeader_cons (by decide +kernel), if_neg (by decide +kernel),
      mgHttpGetHeader_cons (by decide +kernel), if_pos (by decide +kernel)]
  · rw [mgHttpGetHeader_cons (by decide +kernel), if_neg (by decide +kernel),
      mgHttpGetHeader_cons (by decide +kernel), if_neg (by decide +kernel),
      mgHttpGetHeader_cons (by decide +kernel), if_neg (by decide +kernel), hrange]

theorem framed_selection {s : Selection} {mime etag : Bytes} {extra : ExtraHeaders} {body : Bytes}
    (hmime : HeaderFits ⟨ascii "Content-Type", mime⟩) (hetag : HeaderFits ⟨ascii "Etag", etag⟩)
    (hrange : ∀ r ∈ s.range, HeaderFits ⟨ascii "Content-Range", r⟩) (hlen : body.length = s.cl)
    (hlt : (s.message mime etag extra body).render.length < 2 ^ 31) :
    Framed (s.message mime etag extra body) where
  fits :=
    { method_ne := by
        show ascii "HTTP/1.1" ≠ []
        decide
      method := by
        show ∀ c ∈ ascii "HTTP/1.1", _
        decide +kernel
      target_ne := ascii_toString_ne_nil s.status
      target := fun c hc => wordByte_of_isdigit (isdigit_of_mem hc)
      proto := (statusCodeStr_fits s.status).1
      first := (statusCodeStr_fits s.status).2
      headers := fun h hh => by
        have hh : h ∈ s.headers mime etag extra := hh
        simp only [Selection.headers, List.mem_cons, List.mem_append] at hh
        rcases hh with rfl | rfl | rfl | hh | hh
        · exact hmime
        · exact hetag
        · exact headerFits_contentLength s.cl
        · obtain ⟨r, hr, rfl⟩ := Option.map_eq_some_iff.mp (Option.mem_toList.mp hh)
          exact hrange r hr
        · exact (extra.unframed h hh).fits }
  framing := .contentLength ((slots_message s mime etag extra body).1.trans
    (congrArg (fun n => some (ascii (toString n))) hlen.symm))
  notChunked := (slots_message s mime etag extra body).2
  length_lt := hlt

/-- The part that is announced is there. -/
theorem length_part {st : Stat} (hst : f.fs.stat f.path = some st) (rh : Option Bytes) :
    ((f.data.drop (selection rh st.size).offset).take (selection rh st.size).cl).length =
      (selection rh st.size).cl := by
  have hle := selection_le rh st.size
  have hsize := f.size_eq st hst
  rw [List.length_take, List.length_drop]
  omega

/-- **A response is framed.** -/
theorem framed_message (hlt : (f.message hm).render.length < 2 ^ 31) : Framed (f.message hm) := by
  have hmissing : ∀ {m : Message}, m = (⟨404, [], ascii "Not found\n"⟩ : HttpReply).message →
      m.render.length < 2 ^ 31 → Framed m := by
    rintro m rfl hlt
    exact Csrv.Mongoose.framed_message ⟨by simp, by decide, hlt⟩
  unfold message at hlt ⊢
  cases hopen : f.fs.openRead f.path with
  | false => 
    rw [hopen] at hlt
    exact hmissing rfl hlt
  | true =>
    cases hst : f.fs.stat f.path with
    | none =>
      rw [hopen, hst] at hlt
      exact hmissing rfl hlt
    | some st =>
      rw [hopen, hst] at hlt
      simp only at hlt ⊢
      split_ifs at hlt ⊢
      · refine ⟨⟨?_, ?_, ?_, ?_, ?_, ?_, fun h hh => ?_⟩, .contentLength ?_, ?_, hlt⟩
        case refine_7 =>
          rw [List.mem_singleton.mp hh]
          exact headerFits_contentLength 0
        all_goals decide +kernel
      · exact framed_selection (guessContentType_fits f.path) (etag_fits st.size st.mtime)
          (range_fits _ _) (length_part hst _) hlt

theorem left_eq_nil_iff : f.left hm = [] ↔
    ∀ st, f.fs.openRead f.path = true → f.fs.stat f.path = some st → tagged hm st = false →
      (selection (mgHttpGetHeader hm.headers (ascii "Range")) st.size).offset +
        (selection (mgHttpGetHeader hm.headers (ascii "Range")) st.size).cl = st.size := by
  unfold left
  cases hopen : f.fs.openRead f.path with
  | false => exact iff_of_true rfl nofun
  | true =>
    cases hst : f.fs.stat f.path with
    | none => exact iff_of_true rfl nofun
    | some st =>
      have hle := selection_le (mgHttpGetHeader hm.headers (ascii "Range")) st.size
      have hsize := f.size_eq st hst
      simp only
      split_ifs with htag
      · refine iff_of_true rfl ?_
        rintro _ - ⟨⟩ hnot
        exact absurd htag (Bool.eq_false_iff.mp hnot)
      · rw [List.drop_eq_nil_iff, hsize]
        constructor
        · rintro hge _ - ⟨⟩ -
          exact Nat.le_antisymm hle hge
        · intro h
          exact (h st trivial rfl (Bool.eq_false_iff.mpr htag)).ge

end Found

/-! ## A client -/

/-- **What a client takes for the next response.** The message is shorter than 2^31 bytes. The client
takes the part that it has asked for, and then goes on with the rest of the file, which there is
unless the part ends where the file does: all of the file if the part cannot be had. -/
theorem serveFile_client (f : Found) {hm : HttpMessage}
    (hget : mgVcasecmp hm.method (ascii "HEAD") ≠ 0)
    (hlt : (f.message hm).render.length < 2 ^ 31) {later rest : Bytes} {is : List HttpMsg}
    {e : Option Stop} :
    (Drains request
        ((f.response hm).sends.flatten ++ (f.response hm).file.getD [] ++ later) is rest e ↔
      ∃ is', is = (f.message hm).msg :: is' ∧ Drains request (f.left hm ++ later) is' rest e) ∧
    (f.left hm = [] ↔ ∀ st, f.fs.openRead f.path = true → f.fs.stat f.path = some st →
      Found.tagged hm st = false →
      (selection (mgHttpGetHeader hm.headers (ascii "Range")) st.size).offset +
        (selection (mgHttpGetHeader hm.headers (ascii "Range")) st.size).cl = st.size) := by
  refine ⟨?_, f.left_eq_nil_iff⟩
  rw [f.output hget, List.append_assoc,
    Incremental.drains_item_iff (request_render (f.framed_message hlt) (f.left hm ++ later)),
    List.drop_left]

/-- A file of eleven bytes. -/
def helloFound : Found where
  extra := extraHeaders
  fs :=
    { access := fun _ => true
      realpath := fun _ => .ok (ascii "/w")
      stat := fun _ => some ⟨false, 11, 0⟩
      openRead := fun _ => true
      stale := []
      realpath_room := by
        rintro _ _ ⟨⟩
        decide
      realpath_str := by
        rintro _ _ ⟨⟩
        decide }
  path := ascii "/w/a.txt"
  data := ascii "hello world"
  size_eq := by
    rintro st ⟨⟩
    decide

/-- The request for the first five of them. -/
def helloRequest : HttpMessage where
  method := ascii "GET"
  uri := ascii "/a.txt"
  query := []
  proto := ascii "HTTP/1.1"
  headers := [⟨ascii "Range", ascii "bytes=0-4"⟩]
  headLen := 0
  bodyLen := 0
  messageLen := 0

theorem serveFile_client_hello :
    Drains request ((helloFound.response helloRequest).sends.flatten ++
        (helloFound.response helloRequest).file.getD [])
      [(helloFound.message helloRequest).msg] (ascii " world") none := by
  obtain ⟨h, -⟩ := @serveFile_client helloFound helloRequest (by decide +kernel)
    (by decide +kernel) [] (ascii " world") [(helloFound.message helloRequest).msg] none
  have hleft : helloFound.left helloRequest = ascii " world" := by decide +kernel
  rw [List.append_nil, List.append_nil, hleft] at h
  exact h.mpr ⟨[], rfl, .more rfl⟩

/-! ## Files under every schedule -/

/-- What is on the wire, if files come last in their batches. -/
theorem exec_answers {τ : Type*} {fn : τ → HttpMsg → τ × Response} {net : Bytes} (hnet : Plain net)
    (u : τ) {ps : List Poll} (hps : ∀ p ∈ ps, Allocates p.calloc)
    (hlast : FilesLast fn u (batchesOf fn (accepted u net) ps)) :
    ∃ (w : World τ) (taken waiting : Bytes),
      Run.exec (mgMgrPoll fn) (accepted u net) ps = some w ∧ net = taken ++ (waiting ++ w.net) ∧
      (∃ rest e, Drains request taken (batchesOf fn (accepted u net) ps).flatten rest e) ∧
      w.wire <+: (answers fn u (batchesOf fn (accepted u net) ps).flatten).2.flatten := by
  obtain ⟨w, taken, waiting, hw, hstream, hdrains, hsent⟩ :=
    @exec_inBatches τ fn net hnet u ps hps
  refine ⟨w, taken, waiting, hw, hstream, hdrains, ?_⟩
  rw [← pieces_of_filesLast hlast]
  split_ifs at hsent with hopen
  · exact hsent.2 ▸ List.prefix_append _ _
  · exact hsent

theorem flatten_toList (o : Option Bytes) : o.toList.flatten = o.getD [] := by
  cases o with
  | none => rfl
  | some d => exact List.append_nil d

section Files

variable {τ : Type*} {fn : τ → HttpMsg → τ × Found} {u : τ}

/-- A handler that answers every message with a file. -/
def serving (fn : τ → HttpMsg → τ × Found) (u : τ) (ev : HttpMsg) : τ × Response :=
  ((fn u ev).1, (fn u ev).2.response ev.hm)

/-- The requests for files and where they lead. -/
def founds (fn : τ → HttpMsg → τ × Found) : τ → List HttpMsg → List (Found × HttpMessage)
  | _, [] => []
  | u, ev :: evs => ((fn u ev).2, ev.hm) :: founds fn (fn u ev).1 evs

/-- A request whose response is one message. -/
structure Whole (p : Found × HttpMessage) : Prop where
  get : mgVcasecmp p.2.method (ascii "HEAD") ≠ 0
  left : p.1.left p.2 = []
  length_lt : (p.1.message p.2).render.length < 2 ^ 31

theorem answers_serving {evs : List HttpMsg} (h : ∀ p ∈ founds fn u evs, Whole p) :
    (answers (serving fn) u evs).2.flatten =
      ((founds fn u evs).map fun p => p.1.message p.2).flatMap Message.render := by
  induction evs generalizing u with
  | nil => rfl
  | cons ev evs ih =>
    have hev := h _ List.mem_cons_self
    have hout := (fn u ev).2.output hev.get
    rw [hev.left, List.append_nil] at hout
    rw [founds, List.map_cons, List.flatMap_cons, ← hout, ← ih fun p hp =>
      h p (List.mem_cons_of_mem _ hp)]
    simp only [answers, serving, List.flatten_append, flatten_toList]

/-- **Files in order.** The stream ends somewhere and not in front of a chunked head, every allocation
succeeds, and a file that is requested answers the last message that `http_cb` takes in its
iteration, as for a client that does not pipeline; the requests are for whole files. Then whatever
the schedule, the client finds the files in what has been written, complete and in order, and then a
beginning of the next. -/
theorem files_in_order {net : Bytes} (hnet : Plain net) (u : τ) {ps : List Poll}
    (hps : ∀ p ∈ ps, Allocates p.calloc)
    (hlast : FilesLast (serving fn) u (batchesOf (serving fn) (accepted u net) ps))
    (hwhole : ∀ p ∈ founds fn u (batchesOf (serving fn) (accepted u net) ps).flatten, Whole p) :
    ∃ (w : World τ) (taken waiting : Bytes) (js : List HttpMsg) (rest : Bytes),
      Run.exec (mgMgrPoll (serving fn)) (accepted u net) ps = some w ∧
      net = taken ++ (waiting ++ w.net) ∧
      (∃ rest e,
        Drains request taken (batchesOf (serving fn) (accepted u net) ps).flatten rest e) ∧
      Drains request w.wire js rest none ∧
      js <+: (founds fn u (batchesOf (serving fn) (accepted u net) ps).flatten).map
        fun p => (p.1.message p.2).msg := by
  obtain ⟨w, taken, waiting, hw, hstream, hdrains, hprefix⟩ :=
    @exec_answers τ (serving fn) net hnet u ps hps hlast
  generalize (batchesOf (serving fn) (accepted u net) ps).flatten = evs at *
  rw [answers_serving hwhole] at hprefix
  have hframed : ∀ m ∈ (founds fn u evs).map fun p => p.1.message p.2, Framed m := by
    intro m hm
    obtain ⟨p, hp, rfl⟩ := List.mem_map.mp hm
    exact p.1.framed_message (hwhole p hp).length_lt
  have hall := drains_render hframed (.more rfl : Drains request [] [] [] none)
  rw [List.append_nil, List.append_nil, List.map_map] at hall
  obtain ⟨t, ht⟩ := hprefix
  rw [← ht] at hall
  obtain ⟨js, rest, hjs, hpre⟩ := stable_request.drains_prefix hall
  exact ⟨w, taken, waiting, js, rest, hw, hstream, hdrains, hjs, hpre⟩

/-- A handler that always finds the same file. -/
def helloServer (n : ℕ) (_ : HttpMsg) : ℕ × Found := (n + 1, helloFound)

/-- A client that asks for it twice, and waits for the first answer. -/
def helloPolls : List Poll :=
  [⟨some (.bytes 23), none, fun _ => true⟩, ⟨none, some (.bytes 500), fun _ => true⟩,
    ⟨some (.bytes 23), none, fun _ => true⟩, ⟨none, some (.bytes 99), fun _ => true⟩]

theorem founds_helloServer (n : ℕ) (evs : List HttpMsg) :
    founds helloServer n evs = evs.map fun ev => (helloFound, ev.hm) := by
  induction evs generalizing n with
  | nil => rfl
  | cons ev evs ih => exact congrArg (_ :: ·) (ih (n + 1))

theorem files_in_order_hello :
    ∃ (w : World ℕ) (taken waiting : Bytes) (js : List HttpMsg) (rest : Bytes),
      Run.exec (mgMgrPoll (serving helloServer))
        (accepted 0 (ascii "GET /a.txt HTTP/1.1\r\n\r\nGET /a.txt HTTP/1.1\r\n\r\n"))
        helloPolls = some w ∧
      ascii "GET /a.txt HTTP/1.1\r\n\r\nGET /a.txt HTTP/1.1\r\n\r\n" =
        taken ++ (waiting ++ w.net) ∧
      (∃ rest e, Drains request taken
        (batchesOf (serving helloServer)
          (accepted 0 (ascii "GET /a.txt HTTP/1.1\r\n\r\nGET /a.txt HTTP/1.1\r\n\r\n"))
          helloPolls).flatten rest e) ∧
      Drains request w.wire js rest none ∧
      js <+: (founds helloServer 0 (batchesOf (serving helloServer)
        (accepted 0 (ascii "GET /a.txt HTTP/1.1\r\n\r\nGET /a.txt HTTP/1.1\r\n\r\n"))
          helloPolls).flatten).map fun p => (p.1.message p.2).msg := by
  refine files_in_order (plain_of_drain 3 (by decide +kernel)) 0 (by simp [Allocates, helloPolls])
    (filesLast_of_length_le (by decide +kernel)) fun p hp => ?_
  rw [founds_helloServer] at hp
  obtain ⟨ev, hev, rfl⟩ := List.mem_map.mp hp
  have hall : ∀ ev ∈ (batchesOf (serving helloServer)
      (accepted 0 (ascii "GET /a.txt HTTP/1.1\r\n\r\nGET /a.txt HTTP/1.1\r\n\r\n"))
        helloPolls).flatten, mgVcasecmp ev.hm.method (ascii "HEAD") ≠ 0 ∧
          helloFound.left ev.hm = [] ∧ (helloFound.message ev.hm).render.length < 2 ^ 31 := by
    decide +kernel
  obtain ⟨hget, hleft, hlt⟩ := hall ev hev
  exact ⟨hget, hleft, hlt⟩

end Files

end Csrv.Mongoose
