import Csrv.Mongoose.Url

/-!
# Parsing a request

`mg_http_parse` with the functions it calls. A `struct mg_str` is the bytes it designates; the
lengths `mg_http_parse` stores for the body and the message are kept as numbers, since they may
exceed what has been received. `accepted_uri` says which bytes a parsed URI is made of.
-/

namespace Csrv.Mongoose

/-! ## The end of the headers -/

/-- The loop of `mg_http_get_request_len`; `p1` and `p2` are the bytes before index `i`. -/
def requestLenLoop (i : ℕ) (p2 p1 : Option UInt8) : Bytes → ℤ
  | [] => 0
  | b :: buf =>
    if !isprint b && b ≠ 0x0d && b ≠ 0x0a && b < 128 then -1
    else if (i > 0 ∧ b = 0x0a ∧ p1 = some 0x0a) ∨
        (i > 3 ∧ b = 0x0a ∧ p1 = some 0x0d ∧ p2 = some 0x0a) then i + 1
    else requestLenLoop (i + 1) p1 (some b) buf

def mgHttpGetRequestLen (buf : Bytes) : ℤ := requestLenLoop 0 none none buf

/-! ## Fields -/

/-- `strchr(d, c) != NULL`: the terminator of `d` counts. -/
def strchr (d : Bytes) (c : UInt8) : Bool := d.contains c || c == 0

/-- `skip`: the field `v` and the bytes after its delimiters. -/
def skip (s d : Bytes) : Bytes × Bytes :=
  let v := s.takeWhile fun c => c ≠ 0x0a && !strchr d c
  (v, (s.drop v.length).dropWhile fun c => strchr d c)

structure HttpHeader where
  name : Bytes
  value : Bytes
  deriving DecidableEq

def mgMaxHttpHeaders : ℕ := 40

/-- `mg_http_parse_headers`: the slots it writes. A line without a colon leaves its slot empty. -/
def mgHttpParseHeaders : ℕ → Bytes → List HttpHeader
  | 0, _ => []
  | max + 1, s =>
    let (tmp, he) := skip s [0x0a]
    let line := s.take (s.length - he.length)
    let (k, s₁) := skip line [0x3a, 0x20, 0x0d, 0x0a]
    let (v, s₂) := skip s₁ [0x0d, 0x0a]
    if k.length = tmp.length then ⟨[], []⟩ :: mgHttpParseHeaders max (s₂ ++ he)
    else if k.length = 0 then []
    else ⟨k, (v.reverse.dropWhile (· = 0x20)).reverse⟩ :: mgHttpParseHeaders max (s₂ ++ he)

/-- `mg_http_get_header`: the first header of that name before an empty slot. -/
def mgHttpGetHeader (headers : List HttpHeader) (name : Bytes) : Option Bytes :=
  ((headers.takeWhile fun h => h.name.length > 0).find? fun h =>
    name.length = h.name.length && mgNcasecmp h.name name name.length = 0).map (·.value)

/-- `mg_vcasecmp`. -/
def mgVcasecmp (str1 str2 : Bytes) : ℤ :=
  let n1 := str1.length
  let n2 := str2.length
  let r := mgNcasecmp str1 str2 (if n1 < n2 then n1 else n2)
  if r = 0 then (n1 : ℤ) - n2 else r

/-- The digits of `mg_to64`; `none` is its early `return 0`. -/
def to64Digits : ℤ → Bytes → Option ℤ
  | result, [] => some result
  | result, c :: str =>
    if isdigit c then
      if result > 922337203685477570 then none
      else to64Digits (result * 10 + (c.toNat - 0x30)) str
    else some result

def mgTo64 (str : Bytes) : ℤ :=
  let str := str.dropWhile fun c => c = 0x20 || c = 0x09
  let neg := str.head? = some 0x2d
  match to64Digits 0 (if neg then str.tail else str) with
  | none => 0
  | some result => if neg then -result else result

/-! ## `mg_http_parse` -/

/-- `struct mg_http_message`, with the lengths of its body and of the whole message. -/
structure HttpMessage where
  method : Bytes
  uri : Bytes
  query : Bytes
  proto : Bytes
  headers : List HttpHeader
  headLen : ℕ
  bodyLen : ℕ
  messageLen : ℕ
  deriving DecidableEq

/-- `(size_t) ~0`. -/
def sizeMax : ℕ := 2 ^ 64 - 1

/-- The body and message lengths `mg_http_parse` ends with. -/
def bodyLengths (s : Bytes) (reqLen : ℕ) (method uri : Bytes) (cl : Option Bytes) : ℕ × ℕ :=
  let (bodyLen, messageLen) :=
    match cl with
    | none => (sizeMax, sizeMax)
    | some cl =>
      let bodyLen := (mgTo64 cl % 2 ^ 64).toNat
      (bodyLen, (reqLen + bodyLen) % 2 ^ 64)
  let isResponse := mgNcasecmp s (ascii "HTTP/") 5 = 0
  if bodyLen = sizeMax ∧ ¬ isResponse ∧ mgVcasecmp method (ascii "PUT") ≠ 0 ∧
      mgVcasecmp method (ascii "POST") ≠ 0 then (0, reqLen)
  else if bodyLen = sizeMax ∧ isResponse ∧ mgVcasecmp uri (ascii "204") = 0 then (0, reqLen)
  else (bodyLen, messageLen)

/-- `mg_http_parse` where it returns a positive length. -/
def mgHttpParse (s : Bytes) : Option HttpMessage :=
  let reqLen := mgHttpGetRequestLen s
  if reqLen ≤ 0 then none
  else
    let head := s.take reqLen.toNat
    let (method, s₁) := skip head [0x20]
    let (uri, s₂) := skip s₁ [0x20]
    let (proto, s₃) := skip s₂ [0x0d, 0x0a]
    if method.length = 0 ∨ uri.length = 0 then none
    else
      let path := uri.takeWhile (· ≠ 0x3f)
      let headers := mgHttpParseHeaders mgMaxHttpHeaders s₃
      let lens := bodyLengths s reqLen.toNat method path
        (mgHttpGetHeader headers (ascii "Content-Length"))
      some
        { method
          uri := path
          query := uri.drop (path.length + 1)
          proto
          headers
          headLen := reqLen.toNat
          bodyLen := lens.1
          messageLen := lens.2 }

/-! ## What an accepted URI is made of -/

/-- A byte that `mg_http_get_request_len` lets pass in front of the end of the headers. -/
def HeadByte (c : UInt8) : Prop := isprint c = true ∨ c = 0x0d ∨ c = 0x0a ∨ ¬ c < 128

theorem requestLenLoop_bytes {buf : Bytes} : ∀ {i : ℕ} {p2 p1 : Option UInt8} {n : ℤ},
    requestLenLoop i p2 p1 buf = n → 0 < n →
      ∃ k : ℕ, n = i + k ∧ ∀ c ∈ buf.take k, HeadByte c := by
  induction buf with
  | nil => intro i p2 p1 n h hn; rw [requestLenLoop] at h; omega
  | cons b buf ih =>
    intro i p2 p1 n h hn
    rw [requestLenLoop] at h
    by_cases hbad : (!isprint b && b ≠ 0x0d && b ≠ 0x0a && b < 128) = true
    · rw [if_pos hbad] at h
      omega
    have hb : HeadByte b := by
      unfold HeadByte
      by_contra hall
      push Not at hall
      exact hbad (by simp [hall])
    rw [if_neg hbad] at h
    split_ifs at h
    · refine ⟨1, by omega, fun c hc => ?_⟩
      rw [List.take_succ_cons, List.take_zero, List.mem_singleton] at hc
      exact hc ▸ hb
    · obtain ⟨k, hk, hall⟩ := ih h hn
      refine ⟨k + 1, by push_cast at hk ⊢; omega, fun c hc => ?_⟩
      rw [List.take_succ_cons, List.mem_cons] at hc
      exact hc.elim (· ▸ hb) (hall c)

theorem requestLen_bytes {s : Bytes} (h : 0 < mgHttpGetRequestLen s) :
    ∀ c ∈ s.take (mgHttpGetRequestLen s).toNat, HeadByte c := by
  obtain ⟨k, hk, hall⟩ := requestLenLoop_bytes rfl h
  rw [show (mgHttpGetRequestLen s).toNat = k by unfold mgHttpGetRequestLen; omega]
  exact hall

theorem skip_fst_mem {s d : Bytes} {c : UInt8} (h : c ∈ (skip s d).1) :
    c ∈ s ∧ c ≠ 0x0a ∧ c ∉ d := by
  have hp := List.mem_takeWhile_imp h
  simp only [strchr, Bool.and_eq_true, decide_eq_true_eq, Bool.not_eq_eq_eq_not, Bool.not_true,
    Bool.or_eq_false_iff] at hp
  exact ⟨(List.takeWhile_prefix _).subset h, hp.1, by simpa using hp.2.1⟩

theorem skip_snd_mem {s d : Bytes} {c : UInt8} (h : c ∈ (skip s d).2) : c ∈ s :=
  List.mem_of_mem_drop ((List.dropWhile_suffix _).subset h)

/-- **Accepted URIs.** The bytes of a parsed URI are printable, at least 128 or a carriage return,
and neither a space nor a question mark. -/
theorem accepted_uri {s : Bytes} {hm : HttpMessage} (h : mgHttpParse s = some hm) {c : UInt8}
    (hc : c ∈ hm.uri) : (isprint c = true ∨ c = 0x0d ∨ ¬ c < 128) ∧ c ≠ 0x20 ∧ c ≠ 0x3f := by
  simp only [mgHttpParse] at h
  split_ifs at h with hlen
  obtain rfl := Option.some.inj h
  -- the URI is a field of the head, cut at the question mark
  have hq : c ≠ 0x3f := by simpa using List.mem_takeWhile_imp hc
  have hfield := skip_fst_mem ((List.takeWhile_prefix _).subset hc)
  have hhead := requestLen_bytes (Int.not_le.mp hlen) c (skip_snd_mem hfield.1)
  refine ⟨?_, by simpa using hfield.2.2, hq⟩
  rcases hhead with h | h | h | h
  · exact Or.inl h
  · exact Or.inr (Or.inl h)
  · exact absurd h hfield.2.1
  · exact Or.inr (Or.inr h)

theorem zero_not_mem_uri {s : Bytes} {hm : HttpMessage} (h : mgHttpParse s = some hm) :
    0 ∉ hm.uri := by
  intro h0
  rcases (accepted_uri h h0).1 with h | h | h
  · exact absurd h (by decide)
  · exact absurd h (by decide)
  · exact absurd h (by decide)

end Csrv.Mongoose
