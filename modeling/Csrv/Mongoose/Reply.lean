import Csrv.Mongoose.Liveness
import Csrv.Mongoose.Message

/-!
# Requests and replies

A handler that answers every message with one `mg_http_reply`, and a client that reads with the
same parser. The client finds the replies to its requests, each once and in the order in which it
has sent them, and no part of another (`replies_in_order`); if it goes on writing and reading it
finds them all (`client_server`).
-/

namespace Csrv.Mongoose

open Chunked (crlf)
open Incremental (Drains)

/-! ## `mg_http_reply` -/

/-- The cases of `mg_http_status_code_str`. -/
def mgHttpStatusCodes : List (ℤ × String) :=
  [(100, "Continue"),
   (101, "Switching Protocols"),
   (102, "Processing"),
   (200, "OK"),
   (201, "Created"),
   (202, "Accepted"),
   (203, "Non-authoritative Information"),
   (204, "No Content"),
   (205, "Reset Content"),
   (206, "Partial Content"),
   (207, "Multi-Status"),
   (208, "Already Reported"),
   (226, "IM Used"),
   (300, "Multiple Choices"),
   (301, "Moved Permanently"),
   (302, "Found"),
   (303, "See Other"),
   (304, "Not Modified"),
   (305, "Use Proxy"),
   (307, "Temporary Redirect"),
   (308, "Permanent Redirect"),
   (400, "Bad Request"),
   (401, "Unauthorized"),
   (402, "Payment Required"),
   (403, "Forbidden"),
   (404, "Not Found"),
   (405, "Method Not Allowed"),
   (406, "Not Acceptable"),
   (407, "Proxy Authentication Required"),
   (408, "Request Timeout"),
   (409, "Conflict"),
   (410, "Gone"),
   (411, "Length Required"),
   (412, "Precondition Failed"),
   (413, "Payload Too Large"),
   (414, "Request-URI Too Long"),
   (415, "Unsupported Media Type"),
   (416, "Requested Range Not Satisfiable"),
   (417, "Expectation Failed"),
   (418, "I'm a teapot"),
   (421, "Misdirected Request"),
   (422, "Unprocessable Entity"),
   (423, "Locked"),
   (424, "Failed Dependency"),
   (426, "Upgrade Required"),
   (428, "Precondition Required"),
   (429, "Too Many Requests"),
   (431, "Request Header Fields Too Large"),
   (444, "Connection Closed Without Response"),
   (451, "Unavailable For Legal Reasons"),
   (499, "Client Closed Request"),
   (500, "Internal Server Error"),
   (501, "Not Implemented"),
   (502, "Bad Gateway"),
   (503, "Service Unavailable"),
   (504, "Gateway Timeout"),
   (505, "HTTP Version Not Supported"),
   (506, "Variant Also Negotiates"),
   (507, "Insufficient Storage"),
   (508, "Loop Detected"),
   (510, "Not Extended"),
   (511, "Network Authentication Required"),
   (599, "Network Connect Timeout Error")]

def mgHttpStatusCodeStr (statusCode : ℤ) : Bytes :=
  ascii ((mgHttpStatusCodes.lookup statusCode).getD "OK")

/-- The texts that `mg_http_reply` sends; `headers` are lines with their ends, and `body` is
formatted without an error. -/
def mgHttpReply (code : ℤ) (headers body : Bytes) : List Bytes :=
  [ascii "HTTP/1.1 " ++ ascii (toString code) ++ ascii " " ++ mgHttpStatusCodeStr code ++ crlf ++
      headers ++ ascii "Content-Length: " ++ ascii (toString body.length) ++ crlf ++ crlf,
    body]

/-- What a handler replies. -/
structure HttpReply where
  code : ℕ
  headers : List HttpHeader
  body : Bytes

namespace HttpReply

def contentLength (r : HttpReply) : HttpHeader :=
  ⟨ascii "Content-Length", ascii (toString r.body.length)⟩

/-- The reply as a message. -/
def message (r : HttpReply) : Message :=
  ⟨ascii "HTTP/1.1", ascii (toString r.code), mgHttpStatusCodeStr r.code,
    r.headers ++ [r.contentLength], r.body⟩

/-- The texts of the reply. -/
def sends (r : HttpReply) : List Bytes :=
  mgHttpReply r.code (r.headers.flatMap Message.headerLine) r.body

end HttpReply

/-- A header that does not say how long a reply is. -/
structure Unframed (h : HttpHeader) : Prop where
  fits : HeaderFits h
  length : ¬ (h.name.length = 14 ∧ mgNcasecmp h.name (ascii "Content-Length") 14 = 0)
  coding : ¬ (h.name.length = 17 ∧ mgNcasecmp h.name (ascii "Transfer-Encoding") 17 = 0)

/-- The headers that `opts` adds to the responses of `mg_http_serve_dir`. There is room for four
others. -/
structure ExtraHeaders where
  headers : List HttpHeader
  unframed : ∀ h ∈ headers, Unframed h
  room : headers.length + 4 ≤ mgMaxHttpHeaders

/-- A reply whose own headers leave its length to `mg_http_reply`, and there is room for its
length among the slots of a parser. -/
structure WellFormed (r : HttpReply) : Prop where
  headers : ∀ h ∈ r.headers, Unframed h
  slots : r.headers.length < mgMaxHttpHeaders
  length_lt : r.message.render.length < 2 ^ 31

/-- The headers of `cb`. -/
def accessControl : List HttpHeader :=
  [⟨ascii "Access-Control-Allow-Origin", ascii "*"⟩,
    ⟨ascii "Access-Control-Allow-Methods", ascii "POST, GET, OPTIONS"⟩,
    ⟨ascii "Access-Control-Allow-Headers", ascii "*"⟩]

theorem unframed_accessControl : ∀ h ∈ accessControl, Unframed h := by
  intro h hh
  simp only [accessControl, List.mem_cons, List.not_mem_nil, or_false] at hh
  rcases hh with rfl | rfl | rfl
  all_goals exact ⟨⟨by decide, by decide +kernel, by decide +kernel, by decide +kernel,
    by decide +kernel⟩, by decide +kernel, by decide +kernel⟩

def extraHeaders : ExtraHeaders := ⟨accessControl, unframed_accessControl, by decide⟩

section Reply

variable {r : HttpReply}

/-- Such headers are passed over. -/
theorem getHeader_unframed {hs : List HttpHeader} (hhs : ∀ h ∈ hs, Unframed h)
    (t : List HttpHeader) :
    mgHttpGetHeader (hs ++ t) (ascii "Content-Length") =
        mgHttpGetHeader t (ascii "Content-Length") ∧
      mgHttpGetHeader (hs ++ t) (ascii "Transfer-Encoding") =
        mgHttpGetHeader t (ascii "Transfer-Encoding") := by
  induction hs with
  | nil => exact ⟨rfl, rfl⟩
  | cons h hs ih =>
    have hh := hhs h List.mem_cons_self
    obtain ⟨hlength, hcoding⟩ := ih fun g hg => hhs g (List.mem_cons_of_mem _ hg)
    rw [List.cons_append]
    constructor
    · rw [mgHttpGetHeader_cons hh.fits.name_ne, if_neg, hlength]
      exact fun hcmp => hh.length ⟨hcmp.1.symm, hcmp.2⟩
    · rw [mgHttpGetHeader_cons hh.fits.name_ne, if_neg, hcoding]
      exact fun hcmp => hh.coding ⟨hcmp.1.symm, hcmp.2⟩

/-- `mg_http_reply` writes the message. -/
theorem flatten_sends (r : HttpReply) : r.sends.flatten = r.message.render := by
  have hcode : toString (r.code : ℤ) = toString r.code := rfl
  have hproto : ascii "HTTP/1.1 " = ascii "HTTP/1.1" ++ [0x20] := rfl
  have hlength : ascii "Content-Length: " = ascii "Content-Length" ++ [0x3a, 0x20] := rfl
  unfold HttpReply.sends mgHttpReply
  rw [hcode, hproto, hlength]
  simp only [Message.render, Message.head, Message.startLine, Message.headerLine, HttpReply.message,
    HttpReply.contentLength, List.flatten_cons, List.flatten_nil, List.flatMap_append,
    List.flatMap_cons, List.flatMap_nil, List.append_assoc, List.append_nil]
  rfl

theorem wordByte_of_isdigit {c : UInt8} (h : isdigit c = true) : WordByte c := by
  have hall : ∀ i : Fin 256, isdigit (UInt8.ofNat i) = true → WordByte (UInt8.ofNat i) := by
    decide +kernel
  have := hall ⟨c.toNat, c.toNat_lt⟩
  rw [UInt8.ofNat_toNat] at this
  exact this h

theorem ascii_toString_ne_nil (n : ℕ) : ascii (toString n) ≠ [] := by
  unfold ascii
  rw [Nat.toString_eq_ofList_toDigits, String.toList_ofList, Ne, List.map_eq_nil_iff]
  exact Nat.toDigits_ne_nil

/-- A status is a line that does not begin with a space. -/
theorem statusCodeStr_fits (code : ℤ) : (∀ c ∈ mgHttpStatusCodeStr code, TextByte c) ∧
    ∀ c ∈ (mgHttpStatusCodeStr code).head?, c ≠ 0x20 := by
  have hall : ∀ p ∈ (0, "OK") :: mgHttpStatusCodes,
      ((ascii p.2).all fun c => TextByte c) = true ∧ (ascii p.2).head? ≠ some 0x20 := by
    decide +kernel
  obtain ⟨p, hp, hstr⟩ : ∃ p ∈ (0, "OK") :: mgHttpStatusCodes,
      mgHttpStatusCodeStr code = ascii p.2 := by
    unfold mgHttpStatusCodeStr
    cases h : mgHttpStatusCodes.lookup code with
    | none => exact ⟨_, List.mem_cons_self, rfl⟩
    | some str =>
      obtain ⟨l, r, heq, -⟩ := List.lookup_eq_some_iff.mp h
      refine ⟨(code, str), List.mem_cons_of_mem _ ?_, rfl⟩
      rw [heq]
      exact List.mem_append_right _ List.mem_cons_self
  obtain ⟨htext, hhead⟩ := hall p hp
  rw [hstr]
  refine ⟨fun c hc => of_decide_eq_true (List.all_eq_true.mp htext c hc), ?_⟩
  rintro c hc rfl
  exact hhead hc

/-- The headers that a parser looks for in a reply. -/
theorem getHeader_message (hr : WellFormed r) {name : Bytes}
    (hname : ∀ h ∈ r.headers,
      ¬ (name.length = h.name.length ∧ mgNcasecmp h.name name name.length = 0)) :
    mgHttpGetHeader r.message.slots name =
      if name.length = 14 ∧ mgNcasecmp (ascii "Content-Length") name name.length = 0 then
        some (ascii (toString r.body.length))
      else none := by
  have hslots : r.message.slots = r.headers ++ [r.contentLength] := by
    unfold Message.slots
    rw [if_neg (by simp [HttpReply.message])]
    refine List.take_of_length_le ?_
    have := hr.slots
    simp only [HttpReply.message, List.length_append, List.length_singleton]
    omega
  have hfull : (r.headers ++ [r.contentLength]).takeWhile (fun h => h.name.length > 0) =
      r.headers ++ [r.contentLength] := by
    refine List.takeWhile_eq_self_iff.mpr fun h hh => ?_
    rcases List.mem_append.mp hh with hh | hh
    · exact decide_eq_true (List.length_pos_iff.mpr (hr.headers h hh).fits.name_ne)
    · rw [List.mem_singleton.mp hh]
      rfl
  have hfind : r.headers.find? (fun h =>
      name.length = h.name.length && mgNcasecmp h.name name name.length = 0) = none := by
    refine List.find?_eq_none.mpr fun h hh => ?_
    simpa using hname h hh
  unfold mgHttpGetHeader
  rw [hslots, hfull, List.find?_append, hfind, Option.none_or, List.find?_singleton]
  simp only [Bool.and_eq_true, decide_eq_true_eq,
    show r.contentLength.name = ascii "Content-Length" from rfl,
    show (ascii "Content-Length").length = 14 from rfl]
  split_ifs
  · rfl
  · rfl

theorem headerFits_contentLength (n : ℕ) :
    HeaderFits ⟨ascii "Content-Length", ascii (toString n)⟩ where
  name_ne := by
    show ascii "Content-Length" ≠ []
    decide
  name := by
    show ∀ c ∈ ascii "Content-Length", _
    decide +kernel
  value c hc := (wordByte_of_isdigit (isdigit_of_mem hc)).1
  first c hc := by
    have hdigit := isdigit_of_mem (List.mem_of_mem_head? hc)
    constructor
    · rintro rfl
      exact absurd hdigit (by decide)
    · rintro rfl
      exact absurd hdigit (by decide)
  last c hc := by
    rintro rfl
    exact absurd (isdigit_of_mem (List.mem_of_getLast? hc)) (by decide)

/-- **A reply is framed.** -/
theorem framed_message (hr : WellFormed r) : Framed r.message where
  fits :=
    { method_ne := by
        show ascii "HTTP/1.1" ≠ []
        decide
      method := by
        show ∀ c ∈ ascii "HTTP/1.1", _
        decide +kernel
      target_ne := ascii_toString_ne_nil r.code
      target := fun c hc => wordByte_of_isdigit (isdigit_of_mem hc)
      proto := (statusCodeStr_fits r.code).1
      first := (statusCodeStr_fits r.code).2
      headers := fun h hh => by
        rcases List.mem_append.mp hh with hh | hh
        · exact (hr.headers h hh).fits
        · rw [List.mem_singleton.mp hh]
          exact headerFits_contentLength r.body.length }
  framing := by
    refine .contentLength ?_
    rw [getHeader_message hr fun h hh => ?_]
    · rfl
    · rintro ⟨hlen, hcmp⟩
      exact (hr.headers h hh).length ⟨hlen.symm, hcmp⟩
  notChunked := by
    rw [getHeader_message hr fun h hh => ?_]
    · rfl
    · rintro ⟨hlen, hcmp⟩
      exact (hr.headers h hh).coding ⟨hlen.symm, hcmp⟩
  length_lt := hr.length_lt

end Reply

/-! ## A client -/

section Client

variable {τ : Type*}

/-- A handler that answers every message with one reply. -/
def replying (f : τ → HttpMsg → τ × HttpReply) (u : τ) (ev : HttpMsg) : τ × Response :=
  ((f u ev).1, ⟨(f u ev).2.sends, none, false⟩)

/-- The replies to messages. -/
def replies (f : τ → HttpMsg → τ × HttpReply) : τ → List HttpMsg → List HttpReply
  | _, [] => []
  | u, ev :: evs => (f u ev).2 :: replies f (f u ev).1 evs

variable {f : τ → HttpMsg → τ × HttpReply} {u : τ}

theorem batch_replying (is : List HttpMsg) :
    (batch (replying f) u is).2.1.flatten =
      ((replies f u is).map HttpReply.message).flatMap Message.render := by
  induction is generalizing u with
  | nil => rfl
  | cons ev is ih =>
    rw [batch, replies, List.flatten_append, ih, List.map_cons, List.flatMap_cons]
    exact congrArg (· ++ _) (flatten_sends _)

theorem noFile_replying : NoFile (replying f) := fun _ _ => rfl

theorem noDrain_replying : NoDrain (replying f) := fun _ _ => rfl

/-- A handler that always replies the same. -/
theorem replies_const (r : HttpReply) (n : ℕ) (is : List HttpMsg) :
    replies (fun (n : ℕ) _ => (n + 1, r)) n is = List.replicate is.length r := by
  induction is generalizing n with
  | nil => rfl
  | cons ev is ih =>
    rw [replies, ih]
    rfl

/-- What a client finds in all the replies. -/
theorem drains_replies {is : List HttpMsg} (hf : ∀ r ∈ replies f u is, WellFormed r) :
    Drains request (batch (replying f) u is).2.1.flatten
      ((replies f u is).map fun r => r.message.msg) [] none := by
  have hframed : ∀ m ∈ (replies f u is).map HttpReply.message, Framed m := by
    intro m hm
    obtain ⟨r, hr, rfl⟩ := List.mem_map.mp hm
    exact framed_message (hf r hr)
  have h := drains_render hframed (.more rfl : Drains request [] [] [] none)
  rw [batch_replying]
  rw [List.append_nil, List.append_nil, List.map_map] at h
  exact h

/-- **Client and server.** A client writes its requests one after the other, less than 3 MiB of them,
and goes on writing and reading, and every allocation succeeds: in the end it has, for each request,
the reply of the handler to that very request, and nothing else. -/
theorem client_server {ms : List Message} (hms : ∀ m ∈ ms, Framed m)
    (hlen : (ms.flatMap Message.render).length < mgMaxRecvBufSize)
    (hf : ∀ r ∈ replies f u (ms.map Message.msg), WellFormed r) {ps : List Poll}
    (hps : ∀ p ∈ ps, Serves p)
    (hlong : (ms.flatMap Message.render).length +
      (((replies f u (ms.map Message.msg)).map HttpReply.message).flatMap Message.render).length ≤
        ps.length) :
    ∃ w, Run.exec (mgMgrPoll (replying f)) (accepted u (ms.flatMap Message.render)) ps = some w ∧
      Drains request w.wire
        ((replies f u (ms.map Message.msg)).map fun r => r.message.msg) [] none := by
  have hnet := drains_render hms (.more rfl : Drains request [] [] [] none)
  rw [List.append_nil, List.append_nil] at hnet
  obtain ⟨w, g, hw, h, hdone⟩ := exec_accepted noFile_replying hnet noDrain_replying
    (fits_of_length_lt hlen) u hps (by rw [batch_replying]; exact hlong)
  obtain ⟨-, -, hwire⟩ := h.finished noFile_replying hnet hdone
  refine ⟨w, hw, ?_⟩
  rw [hwire]
  exact drains_replies hf

theorem client_server_two :
    ∃ w, Run.exec (mgMgrPoll (replying fun (n : ℕ) _ => (n + 1, ⟨200, [], ascii "ok"⟩)))
        (accepted 0
          (ascii "GET /a HTTP/1.1\r\n\r\nPOST /b HTTP/1.1\r\nContent-Length: 3\r\n\r\nx=1"))
        (List.replicate 200 ⟨some (.bytes 1), some (.bytes 1), fun _ => true⟩) = some w ∧
      Drains request w.wire
        ((List.replicate 2 (⟨200, [], ascii "ok"⟩ : HttpReply)).map fun r => r.message.msg) []
        none := by
  have hps : ∀ p ∈ List.replicate 200 (⟨some (.bytes 1), some (.bytes 1), fun _ => true⟩ : Poll),
      Serves p := fun p hp => List.eq_of_mem_replicate hp ▸ ⟨⟨0, rfl⟩, ⟨0, rfl⟩, fun _ => rfl⟩
  have hframed : ∀ m ∈ [(⟨ascii "GET", ascii "/a", ascii "HTTP/1.1", [], []⟩ : Message),
      ⟨ascii "POST", ascii "/b", ascii "HTTP/1.1", [⟨ascii "Content-Length", ascii "3"⟩],
        ascii "x=1"⟩], Framed m := by
    intro m hm
    rcases List.mem_pair.mp hm with rfl | rfl
    · refine ⟨⟨?_, ?_, ?_, ?_, ?_, ?_, by simp⟩, .bodiless ?_ rfl ?_ ?_ ?_, ?_, ?_⟩
      all_goals decide +kernel
    · refine ⟨⟨?_, ?_, ?_, ?_, ?_, ?_, fun h hh => ?_⟩, .contentLength ?_, ?_, ?_⟩
      case refine_7 =>
        rw [List.mem_singleton.mp hh]
        refine ⟨?_, ?_, ?_, ?_, ?_⟩
        all_goals decide +kernel
      all_goals decide +kernel
  have hreplies : ∀ evs : List HttpMsg, evs.length = 2 →
      replies (fun (n : ℕ) _ => (n + 1, ⟨200, [], ascii "ok"⟩)) 0 evs =
        List.replicate 2 ⟨200, [], ascii "ok"⟩ := fun evs h => h ▸ replies_const _ _ _
  obtain ⟨w, hw, hwire⟩ := @client_server ℕ (fun n _ => (n + 1, ⟨200, [], ascii "ok"⟩)) 0 _ hframed
    (by decide +kernel) (fun r hr => by
      rw [hreplies _ rfl] at hr
      rw [List.eq_of_mem_replicate hr]
      exact ⟨by simp, by decide +kernel, by decide +kernel⟩) _ hps
    (by rw [hreplies _ rfl]; decide +kernel)
  rw [hreplies _ rfl] at hwire
  exact ⟨w, hw, hwire⟩

end Client

end Csrv.Mongoose
