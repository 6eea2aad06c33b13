import Csrv.Lib.Chunked
import Csrv.Mongoose.HttpCb

/-!
# Messages as they are written

A request or a response on the wire: a start line of three parts, the headers, and a body. What a
peer writes in this form is what `mg_http_parse` reads (`mgHttpParse_head`), and of messages one
after the other `http_cb` finds each (`drains_render`).
-/

namespace Csrv.Mongoose

open Chunked (crlf)
open Incremental (Drains)

/-- A message; of a response, the parts of the start line are the protocol, the status and the
reason. -/
structure Message where
  method : Bytes
  target : Bytes
  proto : Bytes
  headers : List HttpHeader
  body : Bytes

namespace Message

def startLine (m : Message) : Bytes :=
  m.method ++ [0x20] ++ m.target ++ [0x20] ++ m.proto ++ crlf

def headerLine (h : HttpHeader) : Bytes := h.name ++ [0x3a, 0x20] ++ h.value ++ crlf

/-- The head: the start line, the headers and an empty line. -/
def head (m : Message) : Bytes := m.startLine ++ m.headers.flatMap headerLine ++ crlf

def render (m : Message) : Bytes := m.head ++ m.body

end Message

/-! ## Bytes of a head -/

/-- A byte of a line: printable, or at least 128. -/
def TextByte (c : UInt8) : Prop := 0x20 ≤ c ∧ c ≠ 0x7f

instance (c : UInt8) : Decidable (TextByte c) := inferInstanceAs (Decidable (_ ∧ _))

/-- A byte of a word. -/
def WordByte (c : UInt8) : Prop := TextByte c ∧ c ≠ 0x20

instance (c : UInt8) : Decidable (WordByte c) := inferInstanceAs (Decidable (_ ∧ _))

/-- A header that is read as it is written. -/
structure HeaderFits (h : HttpHeader) : Prop where
  name_ne : h.name ≠ []
  name : ∀ c ∈ h.name, WordByte c ∧ c ≠ 0x3a
  value : ∀ c ∈ h.value, TextByte c
  first : ∀ c ∈ h.value.head?, c ≠ 0x20 ∧ c ≠ 0x3a
  last : ∀ c ∈ h.value.getLast?, c ≠ 0x20

/-- A message whose head is read as it is written. -/
structure HeadFits (m : Message) : Prop where
  method_ne : m.method ≠ []
  method : ∀ c ∈ m.method, WordByte c
  target_ne : m.target ≠ []
  target : ∀ c ∈ m.target, WordByte c
  proto : ∀ c ∈ m.proto, TextByte c
  first : ∀ c ∈ m.proto.head?, c ≠ 0x20
  headers : ∀ h ∈ m.headers, HeaderFits h

section Bytes

variable {c : UInt8} {s w r d : Bytes}

theorem TextByte.ne (h : TextByte c) : c ≠ 0 ∧ c ≠ 0x0a ∧ c ≠ 0x0d := by
  refine ⟨?_, ?_, ?_⟩
  all_goals
    rintro rfl
    exact absurd h (by decide)

/-- A byte of a line does not end the search for the end of the headers. -/
theorem TextByte.passes (h : TextByte c) :
    ¬ (!isprint c && c ≠ 0x0d && c ≠ 0x0a && c < 128) = true := by
  have hall : ∀ i : Fin 256, TextByte (UInt8.ofNat i) →
      ¬ (!isprint (UInt8.ofNat i) && UInt8.ofNat i ≠ 0x0d && UInt8.ofNat i ≠ 0x0a &&
        UInt8.ofNat i < 128) = true := by decide +kernel
  have := hall ⟨c.toNat, c.toNat_lt⟩
  rw [UInt8.ofNat_toNat] at this
  exact this h

/-- A field in front of a delimiter. -/
theorem skip_append (hw : ∀ c ∈ w, c ≠ 0x0a ∧ strchr d c = false)
    (hr : ∀ c ∈ r.head?, c = 0x0a ∨ strchr d c = true) :
    skip (w ++ r) d = (w, r.dropWhile fun c => strchr d c) := by
  have hwall : ∀ c ∈ w, (c ≠ 0x0a && !strchr d c) = true := fun c hc => by
    simp [(hw c hc).1, (hw c hc).2]
  have hrnil : (r.takeWhile fun c => c ≠ 0x0a && !strchr d c) = [] := by
    cases r with
    | nil => rfl
    | cons a r =>
      refine List.takeWhile_cons_of_neg ?_
      rcases hr a rfl with rfl | h
      · simp
      · simp [h]
  have htake : ((w ++ r).takeWhile fun c => c ≠ 0x0a && !strchr d c) = w := by
    rw [List.takeWhile_append_of_pos hwall, hrnil, List.append_nil]
  unfold skip
  simp only [htake, List.drop_left]

theorem dropWhile_of_head {p : UInt8 → Bool} (hr : ∀ c ∈ r.head?, p c = false) :
    r.dropWhile p = r := by
  cases r with
  | nil => rfl
  | cons a r => exact List.dropWhile_cons_of_neg (by simp [hr a rfl])

end Bytes

/-! ## The end of the headers -/

section RequestLen

variable {w r : Bytes} {i : ℕ} {p2 p1 : Option UInt8}

theorem requestLenLoop_text (hw : ∀ c ∈ w, TextByte c) (hne : w ≠ []) :
    ∃ p, requestLenLoop i p2 p1 (w ++ r) = requestLenLoop (i + w.length) p w.getLast? r := by
  induction w generalizing i p2 p1 with
  | nil => exact absurd rfl hne
  | cons b w ih =>
    have hb := hw b List.mem_cons_self
    have hstep : requestLenLoop i p2 p1 (b :: w ++ r) =
        requestLenLoop (i + 1) p1 (some b) (w ++ r) := by
      rw [List.cons_append, requestLenLoop, if_neg hb.passes, if_neg]
      rintro (⟨-, h, -⟩ | ⟨-, h, -⟩)
      · exact hb.ne.2.1 h
      · exact hb.ne.2.1 h
    rw [hstep]
    cases w with
    | nil => exact ⟨p1, rfl⟩
    | cons a w =>
      obtain ⟨p, hp⟩ := @ih (i + 1) p1 (some b) (fun c hc => hw c (List.mem_cons_of_mem _ hc))
        (List.cons_ne_nil a w)
      refine ⟨p, hp.trans ?_⟩
      rw [List.getLast?_cons_cons, Nat.add_assoc i 1, Nat.add_comm 1]
      rfl

/-- A line with its end. -/
theorem requestLenLoop_line (hw : ∀ c ∈ w, TextByte c) (hne : w ≠ []) :
    requestLenLoop i p2 p1 (w ++ crlf ++ r) =
      requestLenLoop (i + (w ++ crlf).length) (some 0x0d) (some 0x0a) r := by
  obtain ⟨p, hp⟩ := @requestLenLoop_text w (crlf ++ r) i p2 p1 hw hne
  obtain ⟨b, hlast⟩ : ∃ b, w.getLast? = some b := ⟨_, List.getLast?_eq_some_getLast hne⟩
  have hb := (hw b (List.mem_of_getLast? hlast)).ne
  have hcr : requestLenLoop (i + w.length) p (some b) (crlf ++ r) =
      requestLenLoop (i + w.length + 1) (some b) (some 0x0d) (0x0a :: r) := by
    show requestLenLoop _ _ _ (0x0d :: 0x0a :: r) = _
    rw [requestLenLoop, if_neg (by decide), if_neg]
    rintro (⟨-, h, -⟩ | ⟨-, h, -⟩)
    · exact absurd h (by decide)
    · exact absurd h (by decide)
  have hlf : requestLenLoop (i + w.length + 1) (some b) (some 0x0d) (0x0a :: r) =
      requestLenLoop (i + w.length + 1 + 1) (some 0x0d) (some 0x0a) r := by
    rw [requestLenLoop, if_neg (by decide), if_neg]
    rintro (⟨-, -, h⟩ | ⟨-, -, -, h⟩)
    · exact absurd h (by decide)
    · exact hb.2.1 (Option.some.inj h)
  rw [List.append_assoc, hp, hlast, hcr, hlf, List.length_append]
  rfl

/-- The empty line at the end. -/
theorem requestLenLoop_end (hi : 3 ≤ i) :
    requestLenLoop i (some 0x0d) (some 0x0a) (crlf ++ r) = i + 2 := by
  show requestLenLoop _ _ _ (0x0d :: 0x0a :: r) = _
  rw [requestLenLoop, if_neg (by decide), if_neg (by simp), requestLenLoop, if_neg (by decide),
    if_pos (.inr ⟨by omega, rfl, rfl, rfl⟩)]
  push_cast
  omega

end RequestLen

theorem HeaderFits.text {h : HttpHeader} (hh : HeaderFits h) :
    ∀ c ∈ h.name ++ [0x3a, 0x20] ++ h.value, TextByte c := by
  intro c hc
  rw [List.mem_append, List.mem_append] at hc
  rcases hc with (hc | hc) | hc
  · exact (hh.name c hc).1.1
  · rcases List.mem_pair.mp hc with rfl | rfl
    · decide
    · decide
  · exact hh.value c hc

theorem requestLenLoop_headers {hs : List HttpHeader} (hhs : ∀ h ∈ hs, HeaderFits h) (r : Bytes)
    (i : ℕ) : requestLenLoop i (some 0x0d) (some 0x0a) (hs.flatMap Message.headerLine ++ r) =
      requestLenLoop (i + (hs.flatMap Message.headerLine).length) (some 0x0d) (some 0x0a) r := by
  induction hs generalizing i with
  | nil => rfl
  | cons h hs ih =>
    have hh := hhs h List.mem_cons_self
    rw [List.flatMap_cons, List.append_assoc, Message.headerLine,
      requestLenLoop_line hh.text (by simp),
      ih fun g hg => hhs g (List.mem_cons_of_mem _ hg)]
    simp only [List.length_append, Nat.add_assoc]

theorem HeadFits.startText {m : Message} (hm : HeadFits m) :
    ∀ c ∈ m.method ++ [0x20] ++ m.target ++ [0x20] ++ m.proto, TextByte c := by
  intro c hc
  simp only [List.mem_append, List.mem_singleton] at hc
  rcases hc with (((hc | rfl) | hc) | rfl) | hc
  · exact (hm.method c hc).1
  · decide
  · exact (hm.target c hc).1
  · decide
  · exact hm.proto c hc

/-- **The head is found.** -/
theorem mgHttpGetRequestLen_head {m : Message} (hm : HeadFits m) (r : Bytes) :
    mgHttpGetRequestLen (m.head ++ r) = m.head.length := by
  have hstart : 3 ≤ m.startLine.length := by
    simp [Message.startLine, crlf]
    omega
  unfold mgHttpGetRequestLen Message.head
  rw [List.append_assoc, List.append_assoc]
  unfold Message.startLine at hstart ⊢
  rw [requestLenLoop_line hm.startText (by simp), requestLenLoop_headers hm.headers,
    requestLenLoop_end (by omega)]
  simp only [List.length_append, Nat.zero_add]
  push_cast
  rfl

/-! ## The headers -/

section Headers

variable {h : HttpHeader} {hs : List HttpHeader} {r : Bytes}

/-- A header with spaces around its value. -/
def paddedLine (h : HttpHeader) (i j : ℕ) : Bytes :=
  h.name ++ 0x3a :: (List.replicate i 0x20 ++ (h.value ++ (List.replicate j 0x20 ++ crlf)))

theorem headerLine_eq (h : HttpHeader) : Message.headerLine h = paddedLine h 1 0 := by
  simp [Message.headerLine, paddedLine]

theorem dropWhile_replicate {p : UInt8 → Bool} {c : UInt8} (hc : p c = true) (n : ℕ) (s : Bytes) :
    (List.replicate n c ++ s).dropWhile p = s.dropWhile p := by
  induction n with
  | zero => rfl
  | succ n ih =>
    rw [List.replicate_succ, List.cons_append, List.dropWhile_cons_of_pos hc, ih]

theorem textByte_of_mem_spaces {c : UInt8} {n : ℕ} (hc : c ∈ List.replicate n 0x20) :
    TextByte c := by
  rw [(List.mem_replicate.mp hc).2]
  decide

/-- The line of a header, without its end. -/
theorem skip_paddedLine (hh : HeaderFits h) (i j : ℕ) (hr : ∀ c ∈ r.head?, c ≠ 0 ∧ c ≠ 0x0a) :
    skip (paddedLine h i j ++ r) [0x0a] = (h.name ++ 0x3a :: (List.replicate i 0x20 ++
      (h.value ++ (List.replicate j 0x20 ++ [0x0d]))), r) := by
  have hsplit : paddedLine h i j ++ r = (h.name ++ 0x3a :: (List.replicate i 0x20 ++
      (h.value ++ (List.replicate j 0x20 ++ [0x0d])))) ++ 0x0a :: r := by
    simp [paddedLine, crlf]
  rw [hsplit, skip_append]
  · congr 1
    rw [List.dropWhile_cons_of_pos (by decide)]
    refine dropWhile_of_head fun c hc => ?_
    simp [strchr, hr c hc]
  · intro c hc
    simp only [List.mem_append, List.mem_cons, List.not_mem_nil, or_false] at hc
    have htext : TextByte c ∨ c = 0x0d := by
      rcases hc with hc | rfl | hc | hc | hc | rfl
      · exact .inl (hh.name c hc).1.1
      · exact .inl (by decide)
      · exact .inl (textByte_of_mem_spaces hc)
      · exact .inl (hh.value c hc)
      · exact .inl (textByte_of_mem_spaces hc)
      · exact .inr rfl
    rcases htext with htext | rfl
    · simp [strchr, htext.ne]
    · decide
  · rintro c ⟨⟩
    exact .inl rfl

/-- The name in front of the colon. -/
theorem skip_name (hh : HeaderFits h) (i j : ℕ) :
    skip (paddedLine h i j) [0x3a, 0x20, 0x0d, 0x0a] =
      (h.name, if h.value = [] then [] else h.value ++ (List.replicate j 0x20 ++ crlf)) := by
  rw [paddedLine, skip_append]
  · congr 1
    rw [List.dropWhile_cons_of_pos (by decide), dropWhile_replicate (by decide)]
    split_ifs with hv
    · rw [hv, List.nil_append, dropWhile_replicate (by decide)]
      rfl
    · refine dropWhile_of_head fun c hc => ?_
      have hc' : c ∈ h.value.head? := by
        rwa [List.head?_append_of_ne_nil _ hv] at hc
      have htext := (hh.value c (List.mem_of_mem_head? hc')).ne
      have hfirst := hh.first c hc'
      simp [strchr, htext, hfirst]
  · intro c hc
    have hname := hh.name c hc
    have htext := hname.1.1.ne
    simp [strchr, htext, hname.1.2, hname.2]
  · rintro c ⟨⟩
    exact .inr (by decide)

/-- The value behind it, with the spaces at its end. -/
theorem skip_value (hh : HeaderFits h) (j : ℕ) :
    skip (if h.value = [] then [] else h.value ++ (List.replicate j 0x20 ++ crlf)) [0x0d, 0x0a] =
      (if h.value = [] then [] else h.value ++ List.replicate j 0x20, []) := by
  split_ifs with hv
  · rfl
  · rw [← List.append_assoc, skip_append]
    · rfl
    · intro c hc
      have := ((List.mem_append.mp hc).elim (hh.value c) textByte_of_mem_spaces).ne
      simp [strchr, this]
    · rintro c ⟨⟩
      exact .inr (by decide)

theorem trim_value (hh : HeaderFits h) (j : ℕ) :
    ((if h.value = [] then [] else h.value ++ List.replicate j 0x20).reverse.dropWhile
      (· = 0x20)).reverse = h.value := by
  split_ifs with hv
  · rw [hv]
    rfl
  · rw [List.reverse_append, List.reverse_replicate, dropWhile_replicate (by decide),
      dropWhile_of_head, List.reverse_reverse]
    intro c hc
    rw [List.head?_reverse] at hc
    simpa using hh.last c hc

/-- One header. The padding is not read. -/
theorem mgHttpParseHeaders_padded (hh : HeaderFits h) (i j : ℕ)
    (hr : ∀ c ∈ r.head?, c ≠ 0 ∧ c ≠ 0x0a) (max : ℕ) :
    mgHttpParseHeaders (max + 1) (paddedLine h i j ++ r) = h :: mgHttpParseHeaders max r := by
  have hline : (paddedLine h i j ++ r).take ((paddedLine h i j ++ r).length - r.length) =
      paddedLine h i j := by
    rw [List.length_append, Nat.add_sub_cancel, List.take_left]
  have hne := List.length_pos_iff.mpr hh.name_ne
  rw [mgHttpParseHeaders]
  simp only [skip_paddedLine hh i j hr, hline, skip_name hh, skip_value hh, trim_value hh]
  rw [if_neg (by simp), if_neg (by omega), List.nil_append]

theorem mgHttpParseHeaders_cons (hh : HeaderFits h) (hr : ∀ c ∈ r.head?, c ≠ 0 ∧ c ≠ 0x0a)
    (max : ℕ) : mgHttpParseHeaders (max + 1) (Message.headerLine h ++ r) =
      h :: mgHttpParseHeaders max r := by
  rw [headerLine_eq]
  exact mgHttpParseHeaders_padded hh 1 0 hr max

theorem headerLine_head (hh : HeaderFits h) (r : Bytes) :
    ∀ c ∈ (Message.headerLine h ++ r).head?, TextByte c := by
  obtain ⟨b, w, hb⟩ := List.exists_cons_of_ne_nil hh.name_ne
  intro c hc
  rw [Message.headerLine, hb] at hc
  cases hc
  exact (hh.name _ (by rw [hb]; exact List.mem_cons_self)).1.1

/-- What stands at the start of a line. -/
theorem headers_head (hhs : ∀ h ∈ hs, HeaderFits h) :
    ∀ c ∈ (hs.flatMap Message.headerLine ++ crlf).head?, c ≠ 0 ∧ c ≠ 0x0a := by
  cases hs with
  | nil =>
    rintro c ⟨⟩
    exact ⟨by decide, by decide⟩
  | cons h hs =>
    rw [List.flatMap_cons, List.append_assoc]
    intro c hc
    have := (headerLine_head (hhs h List.mem_cons_self) _ c hc).ne
    exact ⟨this.1, this.2.1⟩

/-- **Headers are read as they are written**, up to the number of slots. -/
theorem mgHttpParseHeaders_headers (hhs : ∀ h ∈ hs, HeaderFits h) (max : ℕ) :
    mgHttpParseHeaders max (hs.flatMap Message.headerLine ++ crlf) = hs.take max := by
  induction hs generalizing max with
  | nil =>
    cases max with
    | zero => rfl
    | succ max => rfl
  | cons h hs ih =>
    cases max with
    | zero => rfl
    | succ max =>
      have htail : ∀ g ∈ hs, HeaderFits g := fun g hg => hhs g (List.mem_cons_of_mem _ hg)
      rw [List.flatMap_cons, List.append_assoc,
        mgHttpParseHeaders_cons (hhs h List.mem_cons_self) (headers_head htail), ih htail,
        List.take_succ_cons]

/-- No line at all: every slot stays empty. -/
theorem mgHttpParseHeaders_nil (max : ℕ) :
    mgHttpParseHeaders max [] = List.replicate max ⟨[], []⟩ := by
  induction max with
  | zero => rfl
  | succ max ih =>
    rw [List.replicate_succ, ← ih]
    rfl

theorem mgHttpGetHeader_cons {n v name : Bytes} (hn : n ≠ []) :
    mgHttpGetHeader (⟨n, v⟩ :: hs) name =
      if name.length = n.length ∧ mgNcasecmp n name name.length = 0 then some v
      else mgHttpGetHeader hs name := by
  have hpos : 0 < n.length := List.length_pos_iff.mpr hn
  unfold mgHttpGetHeader
  rw [List.takeWhile_cons_of_pos (by exact decide_eq_true hpos)]
  by_cases h : name.length = n.length ∧ mgNcasecmp n name name.length = 0
  · rw [if_pos h, List.find?_cons_of_pos (by simpa using h)]
    rfl
  · rw [if_neg h, List.find?_cons_of_neg (by simpa using h)]

end Headers

/-! ## A message -/

namespace Message

/-- The target in front of the question mark. -/
def path (m : Message) : Bytes := m.target.takeWhile (· ≠ 0x3f)

/-- The slots that the headers are read into. -/
def slots (m : Message) : List HttpHeader :=
  if m.headers = [] then List.replicate mgMaxHttpHeaders ⟨[], []⟩
  else m.headers.take mgMaxHttpHeaders

/-- The body and message lengths that the head tells. -/
def lengths (m : Message) : ℕ × ℕ :=
  bodyLengths m.head m.head.length m.method m.path
    (mgHttpGetHeader m.slots (ascii "Content-Length"))

/-- What is read of the head. -/
def parsed (m : Message) : HttpMessage where
  method := m.method
  uri := m.path
  query := m.target.drop (m.path.length + 1)
  proto := m.proto
  headers := m.slots
  headLen := m.head.length
  bodyLen := m.lengths.1
  messageLen := m.lengths.2

end Message

section Parse

variable {m : Message}

/-- A word and the space behind it. -/
theorem skip_word {w r : Bytes} (hw : ∀ c ∈ w, WordByte c)
    (hr : ∀ c ∈ r.head?, c ≠ 0 ∧ c ≠ 0x20) : skip (w ++ 0x20 :: r) [0x20] = (w, r) := by
  rw [skip_append]
  · rw [List.dropWhile_cons_of_pos (by decide)]
    refine congrArg _ (dropWhile_of_head fun c hc => ?_)
    simp [strchr, hr c hc]
  · intro c hc
    have := (hw c hc).1.ne
    simp [strchr, this, (hw c hc).2]
  · rintro c ⟨⟩
    exact .inr (by decide)

/-- The end of the start line, with the empty line if there are no headers. -/
theorem skip_proto (hm : HeadFits m) :
    skip (m.proto ++ crlf ++ (m.headers.flatMap Message.headerLine ++ crlf)) [0x0d, 0x0a] =
      (m.proto, if m.headers = [] then [] else m.headers.flatMap Message.headerLine ++ crlf) := by
  rw [List.append_assoc, skip_append]
  · congr 1
    show List.dropWhile _ (0x0d :: 0x0a :: _) = _
    rw [List.dropWhile_cons_of_pos (by decide), List.dropWhile_cons_of_pos (by decide)]
    cases hhs : m.headers with
    | nil => rfl
    | cons h hs =>
      have hh : HeaderFits h := hm.headers h (by rw [hhs]; exact List.mem_cons_self)
      rw [if_neg (List.cons_ne_nil h hs), List.flatMap_cons, List.append_assoc]
      refine dropWhile_of_head fun c hc => ?_
      have := (headerLine_head hh _ c hc).ne
      simp [strchr, this]
  · intro c hc
    have := (hm.proto c hc).ne
    simp [strchr, this]
  · rintro c ⟨⟩
    exact .inr (by decide)

theorem slots_eq (hm : HeadFits m) :
    mgHttpParseHeaders mgMaxHttpHeaders
      (if m.headers = [] then [] else m.headers.flatMap Message.headerLine ++ crlf) = m.slots := by
  unfold Message.slots
  split_ifs
  · exact mgHttpParseHeaders_nil _
  · exact mgHttpParseHeaders_headers hm.headers _

theorem head_head (hm : HeadFits m) : ∀ c ∈ (m.target ++ 0x20 :: (m.proto ++ crlf ++
    (m.headers.flatMap Message.headerLine ++ crlf))).head?, c ≠ 0 ∧ c ≠ 0x20 := by
  intro c hc
  rw [List.head?_append_of_ne_nil _ hm.target_ne] at hc
  have hword := hm.target c (List.mem_of_mem_head? hc)
  exact ⟨hword.1.ne.1, hword.2⟩

theorem proto_head (hm : HeadFits m) : ∀ c ∈ (m.proto ++ crlf ++
    (m.headers.flatMap Message.headerLine ++ crlf)).head?, c ≠ 0 ∧ c ≠ 0x20 := by
  intro c hc
  by_cases hne : m.proto = []
  · rw [hne] at hc
    cases hc
    exact ⟨by decide, by decide⟩
  · rw [List.append_assoc, List.head?_append_of_ne_nil _ hne] at hc
    exact ⟨(hm.proto c (List.mem_of_mem_head? hc)).ne.1, hm.first c hc⟩

/-- **A head is read as it is written**, whatever follows it. -/
theorem mgHttpParse_head (hm : HeadFits m) (r : Bytes) :
    mgHttpParse (m.head ++ r) = some m.parsed := by
  have hlen := mgHttpGetRequestLen_head hm r
  have hpos : 0 < m.head.length := by
    unfold Message.head crlf
    simp only [List.length_append, List.length_cons, List.length_nil]
    omega
  have hsplit : m.head = m.method ++ 0x20 :: (m.target ++ 0x20 :: (m.proto ++ crlf ++
      (m.headers.flatMap Message.headerLine ++ crlf))) := by
    unfold Message.head Message.startLine
    simp
  have hhead := mgHttpGetRequestLen_head hm []
  rw [List.append_nil] at hhead
  unfold mgHttpParse
  simp only [hlen, if_neg (show ¬ ((m.head.length : ℤ) ≤ 0) by omega), Int.toNat_natCast,
    List.take_left]
  rw [bodyLengths_append (by rw [hhead]; omega)]
  have hfields : skip m.head [0x20] = (m.method, m.target ++ 0x20 :: (m.proto ++ crlf ++
      (m.headers.flatMap Message.headerLine ++ crlf))) := by
    rw [hsplit]
    exact skip_word hm.method (head_head hm)
  simp only [hfields, skip_word hm.target (proto_head hm), skip_proto hm, slots_eq hm]
  rw [if_neg (by simp [hm.method_ne, hm.target_ne])]
  rfl

end Parse

/-! ## Messages one after the other -/

/-- The digits of `mg_to64`, below the limit at which it gives up. -/
theorem to64Digits_eq {s : Bytes} (hs : ∀ c ∈ s, isdigit c = true) (n : ℕ)
    (h : s.foldl (fun n c => 10 * n + (c.toNat - 0x30)) n < 2 ^ 31) :
    to64Digits n s = some (s.foldl (fun n c => 10 * n + (c.toNat - 0x30)) n : ℕ) := by
  have hmono : ∀ (s : Bytes) (n : ℕ), n ≤ s.foldl (fun n c => 10 * n + (c.toNat - 0x30)) n := by
    intro s
    induction s with
    | nil => exact fun n => Nat.le_refl n
    | cons c s ih =>
      intro n
      have := ih (10 * n + (c.toNat - 0x30))
      rw [List.foldl_cons]
      omega
  induction s generalizing n with
  | nil => rfl
  | cons c s ih =>
    have hdigit := hs c List.mem_cons_self
    have hge : 0x30 ≤ c.toNat := by
      unfold isdigit at hdigit
      rw [Bool.and_eq_true, decide_eq_true_eq] at hdigit
      exact UInt8.le_iff_toNat_le.mp hdigit.1
    have hle := hmono s (10 * n + (c.toNat - 0x30))
    rw [List.foldl_cons] at h ⊢
    rw [to64Digits, if_pos hdigit, if_neg (by omega), ← ih (fun d hd => hs d (by simp [hd])) _ h]
    congr 1
    push_cast [Nat.cast_sub hge]
    omega

theorem mgTo64_toString {n : ℕ} (h : n < 2 ^ 31) : mgTo64 (ascii (toString n)) = n := by
  have hdigits : ∀ c ∈ ascii (toString n), isdigit c = true := fun c hc => isdigit_of_mem hc
  have hval := digits_toString n
  unfold digits at hval
  have hhead : ∀ c ∈ (ascii (toString n)).head?, isdigit c = true := fun c hc =>
    hdigits c (List.mem_of_mem_head? hc)
  have hdrop : (ascii (toString n)).dropWhile (fun c => c = 0x20 || c = 0x09) =
      ascii (toString n) := by
    refine dropWhile_of_head fun c hc => ?_
    rw [Bool.or_eq_false_iff, decide_eq_false_iff_not, decide_eq_false_iff_not]
    constructor
    · rintro rfl
      exact absurd (hhead _ hc) (by decide)
    · rintro rfl
      exact absurd (hhead _ hc) (by decide)
  have hneg : (ascii (toString n)).head? ≠ some 0x2d := fun h0 =>
    absurd (hhead _ h0) (by decide)
  unfold mgTo64
  simp only [hdrop, hneg, if_false]
  have hall := to64Digits_eq hdigits 0 (by rw [hval]; exact h)
  rw [hval] at hall
  rw [show to64Digits 0 (ascii (toString n)) = some (n : ℤ) from hall]

/-- How the head of a message tells its length. -/
inductive Framing (m : Message) : Prop
  | contentLength : mgHttpGetHeader m.slots (ascii "Content-Length") =
      some (ascii (toString m.body.length)) → Framing m
  | bodiless : mgHttpGetHeader m.slots (ascii "Content-Length") = none → m.body = [] →
      mgNcasecmp m.head (ascii "HTTP/") 5 ≠ 0 → mgVcasecmp m.method (ascii "PUT") ≠ 0 →
      mgVcasecmp m.method (ascii "POST") ≠ 0 → Framing m

/-- A message that can be told from what follows it. -/
structure Framed (m : Message) : Prop where
  fits : HeadFits m
  framing : Framing m
  notChunked : mgHttpGetHeader m.slots (ascii "Transfer-Encoding") = none
  length_lt : m.render.length < 2 ^ 31

namespace Message

/-- The event of a message. -/
def msg (m : Message) : HttpMsg :=
  ⟨{ m.parsed with bodyLen := m.body.length, messageLen := m.render.length }, some m.body⟩

end Message

section Stream

variable {m : Message}

theorem length_render (m : Message) : m.render.length = m.head.length + m.body.length :=
  List.length_append

/-- The lengths that a number tells. -/
theorem bodyLengths_number {s method uri : Bytes} {reqLen n : ℕ} (h : reqLen + n < 2 ^ 31) :
    bodyLengths s reqLen method uri (some (ascii (toString n))) = (n, reqLen + n) := by
  have hne : n ≠ sizeMax := by
    unfold sizeMax
    omega
  unfold bodyLengths
  simp only
  rw [mgTo64_toString (by omega), Int.emod_eq_of_lt (by omega) (by omega), Int.toNat_natCast,
    Nat.mod_eq_of_lt (by omega)]
  simp only [hne, false_and, if_false]

theorem lengths_of_framed (hm : Framed m) : m.lengths = (m.body.length, m.render.length) := by
  have hlt := hm.length_lt
  rw [length_render] at hlt ⊢
  unfold Message.lengths
  cases hm.framing with
  | contentLength hcl =>
    rw [hcl]
    exact bodyLengths_number hlt
  | bodiless hcl hbody hhttp hput hpost =>
    rw [hcl, hbody, bodyLengths]
    simp only
    rw [if_pos ⟨trivial, hhttp, hput, hpost⟩]
    rfl

theorem parsed_of_framed (hm : Framed m) : m.parsed = m.msg.hm := by
  unfold Message.parsed Message.msg
  rw [lengths_of_framed hm]
  rfl

/-- **A message is taken as it is written**, whatever follows it. -/
theorem request_render (hm : Framed m) (r : Bytes) :
    request (m.render ++ r) = .item m.msg m.render.length := by
  have hchunked : mgIsChunked m.msg.hm = false := by
    show Option.any _ (mgHttpGetHeader m.slots (ascii "Transfer-Encoding")) = false
    rw [hm.notChunked]
    rfl
  have hevent : httpMsg (m.render ++ r) m.msg.hm = m.msg := by
    unfold httpMsg
    rw [if_pos (show m.msg.hm.messageLen = m.msg.hm.headLen + m.msg.hm.bodyLen from
      length_render m)]
    refine congrArg (HttpMsg.mk m.msg.hm ∘ some) ?_
    show ((m.head ++ m.body ++ r).drop m.head.length).take m.body.length = m.body
    rw [List.append_assoc, List.drop_left, List.take_left]
  unfold request
  rw [Message.render, List.append_assoc, mgHttpParse_head hm.fits, parsed_of_framed hm,
    ← List.append_assoc, ← Message.render]
  simp only [hchunked, Bool.false_eq_true, if_false, hevent]
  exact if_pos (by rw [List.length_append]; exact Nat.le_add_right _ _)

/-- **Messages one after the other** are found as they were written, and what comes behind them is
left. -/
theorem drains_render {ms : List Message} (hms : ∀ m ∈ ms, Framed m) {s rest : Bytes}
    {is : List HttpMsg} {e : Option Stop} (hs : Drains request s is rest e) :
    Drains request (ms.flatMap Message.render ++ s) (ms.map Message.msg ++ is) rest e := by
  induction ms with
  | nil => exact hs
  | cons m ms ih =>
    rw [List.flatMap_cons, List.append_assoc]
    refine .item (request_render (hms m List.mem_cons_self) _) ?_
    rw [List.drop_left]
    exact ih fun m' hm' => hms m' (List.mem_cons_of_mem _ hm')

end Stream

end Csrv.Mongoose
