import Csrv.App.Mjson
import Csrv.Lib.Json
import Csrv.Mongoose.Http
import Mathlib.Algebra.Order.Ring.Nat
import Mathlib.Data.Set.List

/-!
# The req module

`entry` copies six fields of a message into C strings and prints them as the members of a JSON
object. Each copy may fail, and so may each call of `realloc` while the object is printed.

`req_faithful_iff`: the reply is a JSON text of an object with exactly the six fields if and only
if every allocation succeeds and every byte of a field can stand in a JSON string or has a short
escape.
-/

namespace Csrv.App.Req

open Csrv.Mjson Csrv.Mongoose Json

/-- The fields of a `struct mg_http_message` that `entry` reads. They lie in the receive buffer,
whose length fits an `int`. -/
structure Message where
  uri : Bytes
  method : Bytes
  query : Bytes
  proto : Bytes
  body : Bytes
  message : Bytes
  fits : ∀ f ∈ [uri, method, query, proto, body, message], f.length < 2 ^ 31

/-- The message that `http_cb` passes on when the buffer `s` contains the whole of it. -/
def Received (s : Bytes) (m : Message) : Prop :=
  ∃ hm, mgHttpParse s = some hm ∧ hm.messageLen ≤ s.length ∧ m.uri = hm.uri ∧
    m.method = hm.method ∧ m.query = hm.query ∧ m.proto = hm.proto ∧
    m.body = (s.drop hm.headLen).take hm.bodyLen ∧ m.message = s.take hm.messageLen

/-- Which allocations of `entry` succeed. -/
structure Allocs where
  uri : Bool
  method : Bool
  query : Bool
  proto : Bool
  body : Bool
  message : Bool
  heap : Heap

/-- A field in a new block, with a terminator. -/
def copy (ok : Bool) (field : Bytes) : Option Bytes := if ok then some (field ++ [0]) else none

/-- A string literal. -/
def literal (s : String) : Option Bytes := some (ascii s ++ [0])

def format : Bytes := ascii "\x7b%Q:%Q,%Q:%Q,%Q:%Q,%Q:%Q,%Q:%Q,%Q:%Q\x7d"

/-- The body of the reply that `entry` sends; `%s` prints `(null)` for a null pointer. -/
def entry (al : Allocs) (hm : Message) : Option Bytes := do
  let uri ← copy al.uri hm.uri
  let method ← copy al.method hm.method
  let query ← copy al.query hm.query
  let proto ← copy al.proto hm.proto
  let body ← copy al.body hm.body
  let message ← copy al.message hm.message
  let json ← mjsonVprintf (mjsonPrintDynamicBuf al.heap) format
    [literal "uri", some uri, literal "method", some method, literal "query", some query,
      literal "proto", some proto, literal "body", some body, literal "message", some message]
    ⟨0, none⟩
  some (match json.buf with
    | none => ascii "(null)"
    | some json => cstr json)

/-! ## What is wanted -/

/-- The members of the object. -/
def Message.fields (m : Message) : List (Bytes × Bytes) :=
  [(ascii "uri", m.uri), (ascii "method", m.method), (ascii "query", m.query),
    (ascii "proto", m.proto), (ascii "body", m.body), (ascii "message", m.message)]

def Message.Utf8 (m : Message) : Prop := ∀ f ∈ m.fields, ∃ cs, utf8 cs = f.2

/-- A JSON text of an object with exactly these members. -/
def Faithful (b : Bytes) (fs : List (Bytes × Bytes)) : Prop :=
  ∃ ms, Text b (strings ms) ∧ (ms.map fun x => (utf8 x.1, utf8 x.2)).Perm fs

/-- A byte that is no control character, or one with a short escape. -/
def Plain (b : UInt8) : Prop := 0x20 ≤ b ∨ b ∈ [0x08, 0x09, 0x0a, 0x0c, 0x0d]

/-- The text of a member. -/
def member (f : Bytes × Bytes) : Bytes := quoted f.1 ++ 0x3a :: quoted f.2

/-- The text of an object. -/
def object (fs : List (Bytes × Bytes)) : Bytes :=
  0x7b :: List.intercalate [0x2c] (fs.map member) ++ [0x7d]

/-- Every field is copied. -/
def Allocs.Copies (al : Allocs) : Prop :=
  al.uri ∧ al.method ∧ al.query ∧ al.proto ∧ al.body ∧ al.message

/-- Every allocation succeeds; the object is printed one byte at a time. -/
def Allocs.Succeed (al : Allocs) (m : Message) : Prop :=
  al.Copies ∧ ∀ k < (object m.fields).length, al.heap.realloc k = true

/-! ## Escapes -/

section Escapes

variable {b : UInt8} {c : Char} {cs : List Char} {s : Bytes}

theorem mjsonEscape_eq_zero (h : b ∉ esc1) : mjsonEscape b = 0 := by
  have hnone : (esc1.zip esc2).lookup b = none := by
    rw [List.lookup_eq_none_iff]
    intro p hp
    have hne : b ≠ p.1 := by
      rintro rfl
      exact h (List.of_mem_zip hp).1
    exact bne_iff_ne.mpr hne
  rw [mjsonEscape, mjsonEsc, if_pos rfl, hnone, Option.getD_none]

theorem escaped_of_not_mem (h : b ∉ esc1) : escaped b = [b] := by
  unfold escaped
  rw [mjsonEscape_eq_zero h]
  rfl

theorem flatMap_escaped (h : ∀ b ∈ s, b ∉ esc1) : s.flatMap escaped = s := by
  induction s with
  | nil => rfl
  | cons b s ih =>
    rw [List.flatMap_cons, escaped_of_not_mem (h b List.mem_cons_self),
      ih fun x hx => h x (List.mem_cons_of_mem b hx)]
    rfl

/-- What the escapes do to the encoding of a character. -/
theorem escaped_char (c : Char) :
    (c.toNat ∈ special ∧ ∃ e, (e, c.toNat) ∈ escapes ∧
      (String.utf8EncodeChar c).flatMap escaped = [0x5c, e]) ∨
    (c.toNat ∉ special ∧ (String.utf8EncodeChar c).flatMap escaped = String.utf8EncodeChar c) := by
  have hsp : ∀ n ∈ special, n < 0x80 := by decide
  by_cases hc : c.toNat ∈ special
  · left
    have hlt := hsp _ hc
    have hall : ∀ n ∈ special, (mjsonEscape (UInt8.ofNat n), n) ∈ escapes ∧
      escaped (UInt8.ofNat n) = [0x5c, mjsonEscape (UInt8.ofNat n)] := by decide +kernel
    rw [utf8EncodeChar_ascii hlt, List.flatMap_singleton]
    exact ⟨hc, _, hall _ hc⟩
  · right
    refine ⟨hc, flatMap_escaped fun x hx => ?_⟩
    have hesc : ∀ x ∈ esc1, x.toNat ∈ special ∧ x < 0x80 := by decide +kernel
    intro hx'
    by_cases hlt : c.toNat < 0x80
    · rw [utf8EncodeChar_ascii hlt, List.mem_singleton] at hx
      have h := (hesc x hx').1
      rw [hx, UInt8.toNat_ofNat_of_lt' (Nat.lt_trans hlt (by decide))] at h
      exact hc h
    · have hge := utf8EncodeChar_high (Nat.not_lt.mp hlt) x hx
      exact absurd (hesc x hx').2 (UInt8.not_lt.mpr hge)

theorem quoted_str (h : ∀ b ∈ utf8 cs, Plain b) : Str (quoted (utf8 cs)) cs := by
  refine .mk ?_
  induction cs with
  | nil => exact .nil
  | cons c cs ih =>
    have hcs : utf8 (c :: cs) = String.utf8EncodeChar c ++ utf8 cs := rfl
    rw [hcs] at h ⊢
    rw [List.flatMap_append]
    refine .cons ?_ (ih fun b hb => h b (List.mem_append_right _ hb))
    rcases escaped_char c with ⟨-, e, he, hesc⟩ | ⟨hc, hesc⟩
    · rw [hesc]
      exact .escape he
    · rw [hesc]
      simp only [special, List.mem_cons, List.not_mem_nil, or_false, not_or] at hc
      refine .unescaped ?_ hc.1 hc.2.1
      by_contra hlt
      -- the byte would be a control character without a short escape
      have hlt : c.toNat < 0x20 := Nat.not_le.mp hlt
      have hp := h (UInt8.ofNat c.toNat) (List.mem_append_left _ (by
        rw [utf8EncodeChar_ascii (by omega)]
        exact List.mem_singleton_self _))
      rw [Plain, UInt8.le_iff_toNat_le] at hp
      simp only [List.mem_cons, List.not_mem_nil, or_false, ← UInt8.toNat_inj,
        UInt8.toNat_ofNat_of_lt' (Nat.lt_trans hlt (by decide : 0x20 < UInt8.size))] at hp
      simp at hp
      omega

theorem length_quoted_le (cs : List Char) : (quoted (utf8 cs)).length ≤ strLength cs := by
  have h : ((utf8 cs).flatMap escaped).length ≤ (cs.map shortest).sum := by
    induction cs with
    | nil => exact le_rfl
    | cons c cs ih =>
      have hcs : utf8 (c :: cs) = String.utf8EncodeChar c ++ utf8 cs := rfl
      rw [hcs, List.flatMap_append, List.length_append, List.map_cons, List.sum_cons]
      refine Nat.add_le_add ?_ ih
      unfold shortest
      rcases escaped_char c with ⟨hc, e, -, hesc⟩ | ⟨hc, hesc⟩
      · rw [hesc, if_pos hc]
        exact le_rfl
      · rw [hesc, if_neg hc, String.length_utf8EncodeChar]
        have := c.utf8Size_le_four
        split_ifs <;> omega
  simp only [quoted, List.cons_append, List.length_cons, List.length_append, List.length_nil]
  unfold strLength
  omega

end Escapes

/-! ## The text of the object -/

section Object

variable {fs : List (Bytes × Bytes)} {f : Bytes × Bytes} {x : UInt8}

theorem join_cons (h : fs ≠ []) : List.intercalate [0x2c] ((f :: fs).map member) =
    member f ++ [0x2c] ++ List.intercalate [0x2c] (fs.map member) := by
  rw [List.map_cons]
  exact List.intercalate_cons_of_ne_nil (mt List.map_eq_nil_iff.mp h)

theorem length_object (h : fs ≠ []) :
    (object fs).length = (fs.map fun f => (member f).length + 1).sum + 1 := by
  have hj : (List.intercalate [0x2c] (fs.map member)).length + 1 =
      (fs.map fun f => (member f).length + 1).sum := by
    induction fs with
    | nil => exact absurd rfl h
    | cons f fs ih =>
      by_cases hfs : fs = []
      · simp [hfs]
      · have := ih hfs
        rw [join_cons hfs, List.map_cons, List.sum_cons]
        simp only [List.length_append, List.length_singleton]
        omega
  simp only [object, List.cons_append, List.length_cons, List.length_append, List.length_nil]
  omega

theorem mem_object (hf : f ∈ fs) (hx : x ∈ member f) : x ∈ object fs := by
  have hj : x ∈ List.intercalate [0x2c] (fs.map member) := by
    induction fs with
    | nil => exact absurd hf List.not_mem_nil
    | cons g fs ih =>
      by_cases hfs : fs = []
      · rw [hfs, List.mem_singleton] at hf
        simpa [hfs, ← hf] using hx
      · rw [join_cons hfs]
        rcases List.mem_cons.mp hf with rfl | hf
        · simp [hx]
        · simp [ih hf]
  simp [object, hj]

theorem zero_not_mem_quoted {s : Bytes} (h : 0 ∉ s) : 0 ∉ quoted s := by
  have hesc : 0 ∉ s.flatMap escaped := by
    rw [List.mem_flatMap]
    rintro ⟨b, hb, h0⟩
    unfold escaped at h0
    split_ifs at h0 with he
    · simp only [List.mem_cons, List.not_mem_nil, or_false] at h0
      rcases h0 with h0 | h0
      · exact absurd h0 (by decide)
      · exact he h0.symm
    · rw [List.mem_singleton] at h0
      exact h (h0 ▸ hb)
  simp [quoted, hesc]

theorem zero_not_mem_object (h : ∀ f ∈ fs, 0 ∉ f.1 ∧ 0 ∉ f.2) : 0 ∉ object fs := by
  have hm : ∀ f ∈ fs, 0 ∉ member f := fun f hf => by
    simp [member, zero_not_mem_quoted (h f hf).1, zero_not_mem_quoted (h f hf).2]
  have hj : 0 ∉ List.intercalate [0x2c] (fs.map member) := by
    clear h
    induction fs with
    | nil => simp
    | cons g fs ih =>
      have hg := hm g List.mem_cons_self
      by_cases hfs : fs = []
      · simpa [hfs] using hg
      · rw [join_cons hfs]
        simp [hg, ih fun f hf => hm f (List.mem_cons_of_mem g hf)]
  simp [object, hj]

theorem object_text {ms : List (List Char × List Char)} (hne : ms ≠ [])
    (h : ∀ m ∈ ms, ∀ b ∈ utf8 m.1 ++ utf8 m.2, Plain b) :
    Text (object (ms.map fun m => (utf8 m.1, utf8 m.2))) (strings ms) := by
  unfold object
  rw [List.map_map]
  apply text_join hne
  intro m hm
  exact .mk (quoted_str fun b hb => h m hm b (List.mem_append_left _ hb))
    (quoted_str fun b hb => h m hm b (List.mem_append_right _ hb))

/-- No text of an object is shorter than the one that is printed. -/
theorem length_object_le {b : Bytes} {ms : List (List Char × List Char)}
    (h : Text b (strings ms)) (hms : (ms.map fun m => (utf8 m.1, utf8 m.2)).Perm fs)
    (hne : fs ≠ []) : (object fs).length ≤ b.length := by
  refine le_trans ?_ h.length_ge
  rw [length_object hne, ← (hms.map fun f => (member f).length + 1).sum_eq, List.map_map,
    objectLength]
  apply Nat.succ_le_succ
  apply List.sum_le_sum
  intro m _
  have h₁ := length_quoted_le m.1
  have h₂ := length_quoted_le m.2
  simp only [Function.comp, member, List.length_append, List.length_cons]
  omega

theorem length_quoted_cstr (s : Bytes) : (quoted (cstr s)).length ≤ (quoted s).length ∧
    (0 ∈ s → (quoted (cstr s)).length < (quoted s).length) := by
  have happ : (quoted s).length =
      (quoted (cstr s)).length + ((s.dropWhile (· ≠ 0)).flatMap escaped).length := by
    conv_lhs => rw [← List.takeWhile_append_dropWhile (p := (· ≠ 0)) (l := s)]
    simp only [quoted, cstr, List.flatMap_append, List.cons_append, List.length_cons,
      List.length_append, List.length_nil]
    omega
  refine ⟨by omega, fun h0 => ?_⟩
  have hne : s.dropWhile (· ≠ 0) ≠ [] := fun he => by
    simpa using List.dropWhile_eq_nil_iff.mp he 0 h0
  obtain ⟨b, t, ht⟩ := List.exists_cons_of_ne_nil hne
  have hpos : 0 < (escaped b).length := by
    unfold escaped
    split_ifs <;> simp
  rw [happ, ht, List.flatMap_cons, List.length_append]
  omega

/-- Strings that end at a zero byte make the text shorter. -/
theorem length_object_cstr (hne : fs ≠ []) :
    (object (fs.map fun f => (f.1, cstr f.2))).length ≤ (object fs).length ∧
      ((∃ f ∈ fs, 0 ∈ f.2) →
        (object (fs.map fun f => (f.1, cstr f.2))).length < (object fs).length) := by
  have hmem : ∀ f : Bytes × Bytes, (member (f.1, cstr f.2)).length ≤ (member f).length ∧
      (0 ∈ f.2 → (member (f.1, cstr f.2)).length < (member f).length) := by
    intro f
    have h := length_quoted_cstr f.2
    simp only [member, List.length_append, List.length_cons]
    refine ⟨by omega, fun h0 => ?_⟩
    have := h.2 h0
    omega
  rw [length_object hne, length_object (mt List.map_eq_nil_iff.mp hne), List.map_map]
  constructor
  · apply Nat.succ_le_succ
    apply List.sum_le_sum
    exact fun f _ => Nat.succ_le_succ (hmem f).1
  · rintro ⟨f, hf, h0⟩
    apply Nat.succ_lt_succ
    apply List.sum_lt_sum
    · exact fun f _ => Nat.succ_le_succ (hmem f).1
    · exact ⟨f, hf, Nat.succ_lt_succ ((hmem f).2 h0)⟩

end Object

/-! ## The reply -/

section Reply

variable {al : Allocs} {m : Message} {b : Bytes}

/-- The fields as the C strings that are printed. -/
def Message.strings (m : Message) : List (Bytes × Bytes) := m.fields.map fun f => (f.1, cstr f.2)

theorem printed {s : Bytes} (h : s.length < 2 ^ 31) :
    (cstr (s ++ [0])).take (toInt (cstr (s ++ [0])).length).toNat = cstr s := by
  have hle : (cstr s).length ≤ s.length := (List.takeWhile_prefix _).length_le
  rw [cstr_append_zero, toNat_toInt (by omega), List.take_length]

theorem formatted_quoted {s fmt : Bytes} {ap : List (Option Bytes)} (h : s.length < 2 ^ 31) :
    formatted (0x25 :: 0x51 :: fmt) (some (s ++ [0]) :: ap) =
      (formatted fmt ap).map (quoted (cstr s) ++ ·) := by
  rw [formatted, if_pos rfl, Option.getD_some]
  simp only [printed h]

/-- One member of the format. -/
theorem formatted_member {fmt : Bytes} {f : Bytes × Bytes} {ap : List (Option Bytes)}
    (h : f.1.length < 2 ^ 31 ∧ 0 ∉ f.1 ∧ f.2.length < 2 ^ 31) :
    formatted (0x25 :: 0x51 :: 0x3a :: 0x25 :: 0x51 :: fmt)
      (some (f.1 ++ [0]) :: some (f.2 ++ [0]) :: ap) =
        (formatted fmt ap).map (member (f.1, cstr f.2) ++ ·) := by
  rw [formatted_quoted h.1, formatted_char (by decide), formatted_quoted h.2.2,
    cstr_eq_self h.2.1]
  simp only [Option.map_map]
  congr 1
  funext t
  simp [member]

/-- All members of a format. -/
theorem formatted_members {fs : List (Bytes × Bytes)} (hne : fs ≠ [])
    (h : ∀ f ∈ fs, f.1.length < 2 ^ 31 ∧ 0 ∉ f.1 ∧ f.2.length < 2 ^ 31) :
    formatted (List.intercalate [0x2c] (fs.map fun _ => [0x25, 0x51, 0x3a, 0x25, 0x51]) ++ [0x7d])
      (fs.flatMap fun f => [some (f.1 ++ [0]), some (f.2 ++ [0])]) =
        some (List.intercalate [0x2c] ((fs.map fun f => (f.1, cstr f.2)).map member) ++
          [0x7d]) := by
  have hend : formatted [0x7d] [] = some [0x7d] := rfl
  induction fs with
  | nil => exact absurd rfl hne
  | cons f fs ih =>
    have hf := h f List.mem_cons_self
    by_cases hfs : fs = []
    · simp only [hfs, List.map_cons, List.map_nil, List.intercalate_singleton,
        List.flatMap_singleton, List.cons_append, List.nil_append]
      rw [formatted_member hf, hend, Option.map_some]
    · have hrec := ih hfs fun g hg => h g (List.mem_cons_of_mem f hg)
      rw [List.map_cons, List.intercalate_cons_of_ne_nil (mt List.map_eq_nil_iff.mp hfs),
        List.flatMap_cons, List.map_cons, join_cons (mt List.map_eq_nil_iff.mp hfs)]
      simp only [List.cons_append, List.nil_append, List.append_assoc] at hrec ⊢
      rw [formatted_member hf, formatted_char (by decide), hrec]
      rfl

/-! ## The fields -/

/-- The names of the members. -/
def names : List Bytes := ["uri", "method", "query", "proto", "body", "message"].map ascii

theorem name_mem {f : Bytes × Bytes} (h : f ∈ m.fields) : f.1 ∈ names :=
  show f.1 ∈ m.fields.map Prod.fst from List.mem_map_of_mem h

theorem names_spec : ∀ n ∈ names, n.length < 2 ^ 31 ∧ ∀ x ∈ n, Plain x := by
  unfold Plain
  decide +kernel

theorem names_utf8 : ∀ n ∈ names, ∃ cs, utf8 cs = n := by
  have hall : ∀ s ∈ ["uri", "method", "query", "proto", "body", "message"],
      utf8 s.toList = ascii s := by decide +kernel
  intro n hn
  obtain ⟨s, hs, rfl⟩ := List.mem_map.mp hn
  exact ⟨s.toList, hall s hs⟩

theorem zero_not_mem_of_plain {s : Bytes} (h : ∀ x ∈ s, Plain x) : 0 ∉ s :=
  fun h0 => absurd (h 0 h0) (by simp [Plain])

theorem fields_ne_nil : m.fields ≠ [] := List.cons_ne_nil _ _

theorem field_fits {f : Bytes × Bytes} (h : f ∈ m.fields) : f.2.length < 2 ^ 31 := by
  have hm : f.2 ∈ m.fields.map Prod.snd := List.mem_map_of_mem h
  exact m.fits f.2 hm

theorem formatted_format : formatted format
    (m.fields.flatMap fun f => [some (f.1 ++ [0]), some (f.2 ++ [0])]) =
      some (object m.strings) := by
  have hfmt : format = 0x7b :: (List.intercalate [0x2c]
      (m.fields.map fun _ => [0x25, 0x51, 0x3a, 0x25, 0x51]) ++ [0x7d]) := by
    show format = 0x7b :: (List.intercalate [0x2c]
      (List.replicate 6 [0x25, 0x51, 0x3a, 0x25, 0x51]) ++ [0x7d])
    decide +kernel
  have hfs : ∀ f ∈ m.fields, f.1.length < 2 ^ 31 ∧ 0 ∉ f.1 ∧ f.2.length < 2 ^ 31 := by
    intro f hf
    have hn := names_spec _ (name_mem hf)
    exact ⟨hn.1, zero_not_mem_of_plain hn.2, field_fits hf⟩
  rw [hfmt, formatted_char (by decide), formatted_members fields_ne_nil hfs]
  rfl

theorem zero_not_mem_strings : ∀ f ∈ m.strings, 0 ∉ f.1 ∧ 0 ∉ f.2 := by
  unfold Message.strings
  rw [List.forall_mem_map]
  intro f hf
  exact ⟨zero_not_mem_of_plain (names_spec _ (name_mem hf)).2,
    fun h0 => by simpa using List.mem_takeWhile_imp h0⟩

/-! ## The reply of a run -/

theorem copies_of_entry (h : entry al m = some b) : al.Copies := by
  have hcopy : ∀ {ok : Bool} {s t : Bytes}, copy ok s = some t → ok = true := by
    intro ok s t hs
    unfold copy at hs
    split_ifs at hs with hok
    exact hok
  obtain ⟨_, h₁, h⟩ := Option.bind_eq_some_iff.mp h
  obtain ⟨_, h₂, h⟩ := Option.bind_eq_some_iff.mp h
  obtain ⟨_, h₃, h⟩ := Option.bind_eq_some_iff.mp h
  obtain ⟨_, h₄, h⟩ := Option.bind_eq_some_iff.mp h
  obtain ⟨_, h₅, h⟩ := Option.bind_eq_some_iff.mp h
  obtain ⟨_, h₆, h⟩ := Option.bind_eq_some_iff.mp h
  exact ⟨hcopy h₁, hcopy h₂, hcopy h₃, hcopy h₄, hcopy h₅, hcopy h₆⟩

/-- What `entry` replies with when every field has been copied. -/
theorem entry_of_copies (h : al.Copies) : ∃ b, entry al m = some b ∧
    (b = kept al.heap.realloc 0 (object m.strings) ∨
      b = ascii "(null)" ∧ kept al.heap.realloc 0 (object m.strings) = []) := by
  obtain ⟨h₁, h₂, h₃, h₄, h₅, h₆⟩ := h
  have hempty : DynBuf.Holds ⟨0, none⟩ [] := .inl ⟨rfl, rfl⟩
  have hzero : 0 ∉ object m.strings := zero_not_mem_object zero_not_mem_strings
  obtain ⟨d, hd, hh⟩ := hempty.emit (h := al.heap) hzero
  have hentry : entry al m = some (match d.buf with
      | none => ascii "(null)"
      | some json => cstr json) := by
    unfold entry copy
    simp only [h₁, h₂, h₃, h₄, h₅, h₆, if_true, Option.bind_eq_bind, Option.bind_some]
    have hprint : mjsonVprintf (mjsonPrintDynamicBuf al.heap) format
        (m.fields.flatMap fun f => [some (f.1 ++ [0]), some (f.2 ++ [0])]) ⟨0, none⟩ = some d :=
      (mjsonVprintf_eq formatted_format).trans hd
    exact congrArg (Option.bind · _) hprint
  refine ⟨_, hentry, ?_⟩
  rcases hh with ⟨hb, ht⟩ | ⟨b, hb, ht⟩
  · right
    rw [hb]
    exact ⟨rfl, ht⟩
  · left
    rw [hb]
    exact ht.text_eq

theorem length_null_lt : (ascii "(null)").length < (object m.fields).length := by
  have hmem : ∀ f : Bytes × Bytes, 5 ≤ (member f).length := fun f => by
    simp only [member, quoted, List.cons_append, List.length_append, List.length_cons,
      List.length_nil]
    omega
  have hn : (ascii "(null)").length = 6 := by decide +kernel
  rw [length_object fields_ne_nil, hn]
  simp only [Message.fields, List.map_cons, List.sum_cons]
  have := hmem (ascii "uri", m.uri)
  have := hmem (ascii "method", m.method)
  omega

theorem strings_eq (h : ∀ f ∈ m.fields, 0 ∉ f.2) : m.strings = m.fields := by
  have hid : ∀ f ∈ m.fields, (f.1, cstr f.2) = f := by
    intro f hf
    rw [cstr_eq_self (h f hf)]
  exact (List.map_congr_left hid).trans (List.map_id _)

theorem plain_of_mem_esc1 {x : UInt8} (h : x ∈ esc1) : Plain x := by
  have hall : ∀ x ∈ esc1, 0x20 ≤ x ∨ x ∈ ([0x08, 0x09, 0x0a, 0x0c, 0x0d] : Bytes) := by
    decide +kernel
  exact hall x h

theorem plain_of_ws {x : UInt8} (h : IsWs x) : Plain x := by
  rcases h with rfl | rfl | rfl | rfl <;> simp [Plain]

/-- The bytes of a faithful text of the full fields. -/
theorem plain_of_text {fs : List (Bytes × Bytes)} {v : List (List Char × List Char)}
    (h : Text (object fs) (Json.strings v)) : ∀ f ∈ fs, ∀ x ∈ f.2, Plain x := by
  intro f hf x hx
  by_cases hesc : x ∈ esc1
  · exact plain_of_mem_esc1 hesc
  · have hq : x ∈ quoted f.2 := by
      have hmem : x ∈ escaped x := by
        rw [escaped_of_not_mem hesc]
        exact List.mem_singleton_self x
      have hflat : x ∈ f.2.flatMap escaped := List.mem_flatMap.mpr ⟨x, hx, hmem⟩
      simp [quoted, hflat]
    have hm : x ∈ member f := by simp [member, hq]
    rcases h.bytes x (mem_object hf hm) with hge | hws
    · exact .inl hge
    · exact plain_of_ws hws

theorem utf8_fields (h : m.Utf8) : ∃ ms : List (List Char × List Char),
    (ms.map fun x => (utf8 x.1, utf8 x.2)) = m.fields := by
  have hrange : m.fields ∈ Set.range (List.map fun x : List Char × List Char =>
      (utf8 x.1, utf8 x.2)) := by
    rw [Set.range_list_map]
    intro f hf
    obtain ⟨n, hn⟩ := names_utf8 _ (name_mem hf)
    obtain ⟨v, hv⟩ := h f hf
    exact ⟨(n, v), Prod.ext hn hv⟩
  exact hrange

/-- A faithful reply has nothing missing. -/
theorem succeed_of_faithful (hb : entry al m = some b) (hf : Faithful b m.fields) :
    al.Succeed m ∧ ∀ f ∈ m.fields, ∀ b ∈ f.2, Plain b := by
  obtain ⟨ms, ht, hms⟩ := hf
  have hcopies := copies_of_entry hb
  obtain ⟨b', hb', hcases⟩ := entry_of_copies (m := m) hcopies
  obtain rfl := Option.some.inj (hb.symm.trans hb')
  have hle := length_object_le ht hms fields_ne_nil
  rcases hcases with rfl | ⟨rfl, -⟩
  · -- what is printed is no longer than what is wanted
    have hsub := @kept_sublist (object m.strings) al.heap.realloc 0
    have hzero : ∀ f ∈ m.fields, 0 ∉ f.2 := fun f hf h0 =>
      absurd ((length_object_cstr fields_ne_nil).2 ⟨f, hf, h0⟩)
        (Nat.not_lt.mpr (hle.trans hsub.length_le))
    rw [strings_eq hzero] at ht hsub hle
    have hkept := hsub.eq_of_length_le hle
    rw [hkept] at ht
    exact ⟨⟨hcopies, fun k hk => by simpa using kept_eq_iff.mp hkept k hk⟩, plain_of_text ht⟩
  · exact absurd length_null_lt (Nat.not_lt.mpr hle)

theorem faithful_of_succeed (h : m.Utf8) (hal : al.Succeed m)
    (hplain : ∀ f ∈ m.fields, ∀ b ∈ f.2, Plain b) :
    ∃ b, entry al m = some b ∧ Faithful b m.fields := by
  have hzero : ∀ f ∈ m.fields, 0 ∉ f.2 := fun f hf => zero_not_mem_of_plain (hplain f hf)
  have hkept : kept al.heap.realloc 0 (object m.strings) = object m.fields := by
    rw [strings_eq hzero]
    exact kept_eq_iff.mpr fun k hk => by simpa using hal.2 k hk
  obtain ⟨b, hb, hcases⟩ := entry_of_copies (m := m) hal.1
  obtain ⟨ms, hms⟩ := utf8_fields h
  refine ⟨b, hb, ms, ?_, hms ▸ List.Perm.refl _⟩
  rcases hcases with rfl | ⟨-, hnil⟩
  · rw [hkept, ← hms]
    refine object_text (fun he => ?_) fun x hx y hy => ?_
    · rw [he] at hms
      exact fields_ne_nil hms.symm
    · have hf : (utf8 x.1, utf8 x.2) ∈ m.fields := hms ▸ List.mem_map_of_mem hx
      exact (List.mem_append.mp hy).elim ((names_spec _ (name_mem hf)).2 y) (hplain _ hf y)
  · rw [hkept] at hnil
    exact absurd hnil (List.cons_ne_nil _ _)

/-- **The echo.** The reply is a JSON text of the object with the six fields exactly if every
allocation succeeds and no field has a control character without a short escape. -/
theorem req_faithful_iff (al : Allocs) (m : Message) (h : m.Utf8) :
    (∃ b, entry al m = some b ∧ Faithful b m.fields) ↔
      al.Succeed m ∧ ∀ f ∈ m.fields, ∀ b ∈ f.2, Plain b := by
  constructor
  · rintro ⟨b, hb, hf⟩
    exact succeed_of_faithful hb hf
  · rintro ⟨hal, hplain⟩
    exact faithful_of_succeed h hal hplain

end Reply

/-- All allocations succeed. -/
def plenty : Allocs := ⟨true, true, true, true, true, true, fun _ => true, fun _ _ => 0⟩

theorem plenty_succeed (m : Message) : plenty.Succeed m :=
  ⟨⟨rfl, rfl, rfl, rfl, rfl, rfl⟩, fun _ _ => rfl⟩

def head : String := "POST / HTTP/1.1\r\nContent-Length: 1\r\n\r\n"

/-- `POST /` with a body of one character. -/
def post (c : Char) : Message where
  uri := ascii "/"
  method := ascii "POST"
  query := []
  proto := ascii "HTTP/1.1"
  body := String.utf8EncodeChar c
  message := ascii head ++ String.utf8EncodeChar c
  fits := by
    have h₁ : ∀ f ∈ [ascii "/", ascii "POST", [], ascii "HTTP/1.1", ascii head],
        f.length < 2 ^ 30 := by decide +kernel
    have h₂ := c.utf8Size_le_four
    simp only [List.forall_mem_cons, List.not_mem_nil, false_imp_iff, implies_true, and_true,
      List.length_append, String.length_utf8EncodeChar] at h₁ ⊢
    omega

theorem post_utf8 (c : Char) : (post c).Utf8 := by
  have hhead : utf8 head.toList = ascii head := by decide +kernel
  have hc : utf8 [c] = String.utf8EncodeChar c := List.flatMap_singleton _ _
  simp only [Message.Utf8, Message.fields, post, List.forall_mem_cons, List.not_mem_nil,
    false_imp_iff, implies_true, and_true]
  refine ⟨⟨"/".toList, by decide +kernel⟩, ⟨"POST".toList, by decide +kernel⟩, ⟨[], rfl⟩,
    ⟨"HTTP/1.1".toList, by decide +kernel⟩, ⟨[c], hc⟩, ⟨head.toList ++ [c], ?_⟩⟩
  rw [← hc, ← hhead]
  exact List.flatMap_append

/-- The body is a quote. -/
theorem req_faithful_quote : ∃ b, entry plenty (post (Char.ofNat 0x22)) = some b ∧
    Faithful b (post (Char.ofNat 0x22)).fields :=
  (req_faithful_iff plenty (post (Char.ofNat 0x22)) (post_utf8 _)).mpr
    ⟨plenty_succeed _, by unfold Plain; decide +kernel⟩

/-- The body is the byte 1. -/
theorem req_unfaithful : ¬ ∀ s m, Received s m → m.Utf8 →
    ∃ b, entry plenty m = some b ∧ Faithful b m.fields := by
  intro hall
  have hrecv : Received (ascii head ++ [0x01]) (post (Char.ofNat 1)) :=
    ⟨⟨ascii "POST", ascii "/", [], ascii "HTTP/1.1", [⟨ascii "Content-Length", ascii "1"⟩],
      38, 1, 39⟩, by decide +kernel⟩
  obtain ⟨b, hb, hf⟩ := hall _ _ hrecv (post_utf8 _)
  have := (succeed_of_faithful hb hf).2 (ascii "body", [0x01]) (by decide +kernel) 1 (by decide)
  revert this
  unfold Plain
  decide

end Csrv.App.Req
