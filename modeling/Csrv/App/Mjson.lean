import Csrv.CString
import Csrv.Lib.Buffer
import Mathlib.Data.List.Basic

/-!
# Printing with mjson

`mjson_vprintf` with the conversion `%Q`, over any print function, and the print function
`mjson_print_dynamic_buf`. The numbers of printed bytes that these functions return are left out;
the module that prints does not look at them. No result is a conversion that is not modelled, or
a write behind a block.

* `mjsonVprintf_eq`: what is printed, one byte at a time.
* `emit_dynamicBuf`: the buffer ends up with the bytes whose `realloc` has succeeded.
-/

namespace Csrv.Mjson

open Buffer

/-! ## Strings -/

def esc1 : Bytes := [0x08, 0x0c, 0x0a, 0x0d, 0x09, 0x5c, 0x22]
def esc2 : Bytes := ascii "bfnrt\\\""

def mjsonEsc (c : UInt8) (esc : Bool) : UInt8 :=
  ((if esc then esc1.zip esc2 else esc2.zip esc1).lookup c).getD 0

def mjsonEscape (c : UInt8) : UInt8 := mjsonEsc c true

/-- The conversion of a `size_t` to an `int`. -/
def toInt (n : ℕ) : ℤ := (n : ℤ).bmod (2 ^ 32)

theorem toNat_toInt {n : ℕ} (h : n < 2 ^ 31) : (toInt n).toNat = n := by
  unfold toInt
  rw [Int.bmod_eq_of_le] <;> omega

section Print

variable {σ : Type} (fn : Bytes → σ → Option σ)

def mjsonPrintStr (s : Bytes) (len : ℤ) (fnd : σ) : Option σ := do
  let fnd ← fn [0x22] fnd
  let fnd ← (s.take len.toNat).foldlM (fun fnd b =>
    let c := mjsonEscape b
    if c ≠ 0 then (fn [0x5c] fnd).bind (fn [c]) else fn [b] fnd) fnd
  fn [0x22] fnd

/-- `mjson_vprintf`; the arguments are the blocks that the pointers point to. -/
def mjsonVprintf : Bytes → List (Option Bytes) → σ → Option σ
  | [], _, fnd => some fnd
  | c :: fmt, ap, fnd =>
    if c = 0x25 then
      match fmt, ap with
      | 0x51 :: fmt, buf :: ap =>
        let s := cstr (buf.getD [])
        (mjsonPrintStr fn s (toInt s.length) fnd).bind (mjsonVprintf fmt ap)
      | _, _ => none
    else (fn [c] fnd).bind (mjsonVprintf fmt ap)

/-! ## What is printed -/

/-- Printing one byte after the other. -/
def emit (s : Bytes) (fnd : σ) : Option σ := s.foldlM (fun fnd b => fn [b] fnd) fnd

variable {fn} {s t fmt : Bytes} {ap : List (Option Bytes)} {fnd : σ} {b : UInt8}

theorem emit_cons : emit fn (b :: s) fnd = (fn [b] fnd).bind (emit fn s) := rfl

theorem emit_append : emit fn (s ++ t) fnd = (emit fn s fnd).bind (emit fn t) := by
  unfold emit
  exact List.foldlM_append

def escaped (b : UInt8) : Bytes := if mjsonEscape b ≠ 0 then [0x5c, mjsonEscape b] else [b]

def quoted (s : Bytes) : Bytes := 0x22 :: s.flatMap escaped ++ [0x22]

theorem emit_singleton : emit fn [b] = fn [b] := by
  funext fnd
  exact Option.bind_fun_some (fn [b] fnd)

theorem emit_escaped : emit fn (escaped b) fnd =
    if mjsonEscape b ≠ 0 then (fn [0x5c] fnd).bind (fn [mjsonEscape b]) else fn [b] fnd := by
  unfold escaped
  split_ifs
  · rw [emit_cons, emit_singleton]
  · rw [emit_singleton]

theorem mjsonPrintStr_eq {len : ℤ} :
    mjsonPrintStr fn s len fnd = emit fn (quoted (s.take len.toNat)) fnd := by
  have hloop : ∀ (s : Bytes) fnd, s.foldlM (fun fnd b =>
      let c := mjsonEscape b
      if c ≠ 0 then (fn [0x5c] fnd).bind (fn [c]) else fn [b] fnd) fnd =
      emit fn (s.flatMap escaped) fnd := by
    intro s
    induction s with
    | nil => exact fun fnd => rfl
    | cons b s ih =>
      intro fnd
      rw [List.foldlM_cons, List.flatMap_cons, emit_append, emit_escaped]
      exact congrArg _ (funext ih)
  unfold mjsonPrintStr quoted
  rw [List.cons_append, emit_cons]
  apply congrArg
  funext fnd
  rw [hloop, emit_append, emit_singleton]
  rfl

/-- What a format and its arguments stand for. -/
def formatted : Bytes → List (Option Bytes) → Option Bytes
  | [], _ => some []
  | c :: fmt, ap =>
    if c = 0x25 then
      match fmt, ap with
      | 0x51 :: fmt, buf :: ap =>
        let s := cstr (buf.getD [])
        (formatted fmt ap).map (quoted (s.take (toInt s.length).toNat) ++ ·)
      | _, _ => none
    else (formatted fmt ap).map (c :: ·)

theorem formatted_char (h : b ≠ 0x25) :
    formatted (b :: fmt) ap = (formatted fmt ap).map (b :: ·) := by
  conv_lhs => unfold formatted
  exact if_neg h

/-- **Printing.** -/
theorem mjsonVprintf_eq (h : formatted fmt ap = some t) :
    mjsonVprintf fn fmt ap fnd = emit fn t fnd := by
  induction fmt, ap using formatted.induct generalizing t fnd with
  | case1 =>
    obtain rfl := Option.some.inj h
    rfl
  | case2 fmt buf ap ih =>
    rw [formatted, if_pos rfl] at h
    obtain ⟨r, hr, rfl⟩ := Option.map_eq_some_iff.mp h
    have hf : mjsonVprintf fn fmt ap = emit fn r := funext fun fnd => ih hr
    rw [mjsonVprintf, if_pos rfl, emit_append, ← mjsonPrintStr_eq, hf]
  | case3 fmt ap hno =>
    -- a conversion that is not modelled
    rw [formatted, if_pos rfl] at h
    · cases h
    · exact hno
  | case4 c fmt ap hc ih =>
    rw [formatted_char hc] at h
    obtain ⟨r, hr, rfl⟩ := Option.map_eq_some_iff.mp h
    have hf : mjsonVprintf fn fmt ap = emit fn r := funext fun fnd => ih hr
    unfold mjsonVprintf
    rw [if_neg hc, emit_cons, hf]

end Print

/-! ## The dynamic buffer -/

def mjsonDynbufChunk : ℕ := 256

/-- Which calls of `realloc` succeed, and what the cells they add contain. -/
structure Heap where
  realloc : ℕ → Bool
  stale : ℕ → ℕ → UInt8

/-- The pointer that `fndata` points to, and how often `realloc` has been called. -/
structure DynBuf where
  calls : ℕ
  buf : Option Bytes

def mjsonPrintDynamicBuf (h : Heap) (ptr : Bytes) (fndata : DynBuf) : Option DynBuf :=
  let curlen := (cstr (fndata.buf.getD [])).length
  let newSize := curlen + ptr.length + 1 + mjsonDynbufChunk
  let newSize := newSize - newSize % mjsonDynbufChunk
  if h.realloc fndata.calls then do
    let s := realloc (h.stale fndata.calls) newSize (fndata.buf.getD [])
    let s ← write s curlen ptr
    let s ← write s (curlen + ptr.length) [0]
    some ⟨fndata.calls + 1, some s⟩
  else some ⟨fndata.calls + 1, fndata.buf⟩

/-- The buffer holds the string `t`; without a block it is empty. -/
def DynBuf.Holds (d : DynBuf) (t : Bytes) : Prop :=
  (d.buf = none ∧ t = []) ∨ ∃ b, d.buf = some b ∧ Buffer.Holds 0 b t

/-- What is left of a string that is printed from the `k`-th call of `realloc` on. -/
def kept (ok : ℕ → Bool) : ℕ → Bytes → Bytes
  | _, [] => []
  | k, b :: s => (if ok k then [b] else []) ++ kept ok (k + 1) s

section DynBuf

variable {h : Heap} {d : DynBuf} {s t : Bytes} {ok : ℕ → Bool} {k : ℕ}

theorem kept_sublist : (kept ok k s).Sublist s := by
  induction s generalizing k with
  | nil => exact List.Sublist.slnil
  | cons b s ih =>
    rw [kept]
    split_ifs
    · exact ih.cons_cons b
    · exact ih.cons b

theorem kept_eq_iff : kept ok k s = s ↔ ∀ i < s.length, ok (k + i) = true := by
  induction s generalizing k with
  | nil => simp [kept]
  | cons b s ih =>
    have hle := (@kept_sublist s ok (k + 1)).length_le
    rw [kept, List.length_cons, Nat.forall_lt_succ_left]
    cases hk : ok k with
    | false =>
      refine iff_of_false (fun he => ?_) fun hall => Bool.false_ne_true hall.1
      have := congrArg List.length he
      simp only [Bool.false_eq_true, if_false, List.nil_append, List.length_cons] at this
      omega
    | true =>
      rw [if_pos rfl, List.singleton_append, List.cons.injEq, and_iff_right rfl, ih,
        and_iff_right rfl]
      refine forall_congr' fun i => imp_congr_right fun _ => ?_
      rw [show k + (i + 1) = k + 1 + i by omega]

theorem newSize_gt (n : ℕ) : n < n + 1 + mjsonDynbufChunk - (n + 1 + mjsonDynbufChunk) %
    mjsonDynbufChunk := by
  unfold mjsonDynbufChunk
  omega

theorem DynBuf.Holds.print (hd : d.Holds t) (hs : 0 ∉ s) :
    ∃ d', mjsonPrintDynamicBuf h s d = some d' ∧ d'.calls = d.calls + 1 ∧
      d'.Holds (t ++ if h.realloc d.calls then s else []) := by
  -- the string that the old block starts with, if there is one
  have hpre : 0 ∉ t ∧ t <+: d.buf.getD [] ∧ cstr (d.buf.getD []) = t := by
    rcases hd with ⟨hb, rfl⟩ | ⟨b, hb, hh⟩
    · rw [hb]
      exact ⟨List.not_mem_nil, List.nil_prefix, rfl⟩
    · have htext := hh.text_eq
      obtain ⟨ht, rest, rfl⟩ := hh
      rw [hb]
      exact ⟨ht, List.prefix_append _ _, htext⟩
  unfold mjsonPrintDynamicBuf
  cases hr : h.realloc d.calls with
  | false =>
    refine ⟨⟨d.calls + 1, d.buf⟩, rfl, rfl, ?_⟩
    simpa [DynBuf.Holds] using hd
  | true =>
    simp only [hpre.2.2, if_true]
    have hsize := newSize_gt (t.length + s.length)
    generalize t.length + s.length + 1 + mjsonDynbufChunk -
      (t.length + s.length + 1 + mjsonDynbufChunk) % mjsonDynbufChunk = n at hsize ⊢
    obtain ⟨b₁, b₂, h₁, h₂, hb⟩ := write_write_holds hpre.1 hs
      (prefix_realloc (h.stale d.calls) n hpre.2.1 (by omega))
      (by rwa [length_realloc])
    refine ⟨⟨d.calls + 1, some b₂⟩, ?_, rfl, .inr ⟨b₂, rfl, hb⟩⟩
    rw [h₁, Option.bind_eq_bind, Option.bind_some, h₂]
    rfl

theorem DynBuf.Holds.emit (hd : d.Holds t) (hs : 0 ∉ s) :
    ∃ d', emit (mjsonPrintDynamicBuf h) s d = some d' ∧
      d'.Holds (t ++ kept h.realloc d.calls s) := by
  induction s generalizing d t with
  | nil => exact ⟨d, rfl, by simpa [kept] using hd⟩
  | cons b s ih =>
    obtain ⟨hb, hs⟩ := not_or.mp (mt List.mem_cons.mpr hs)
    obtain ⟨d₁, h₁, hc, hd₁⟩ := hd.print (h := h) (s := [b]) (by simpa using hb)
    obtain ⟨d', h', hd'⟩ := ih hd₁ hs
    refine ⟨d', by rw [emit_cons, h₁, Option.bind_some, h'], ?_⟩
    rwa [hc, List.append_assoc] at hd'

end DynBuf

end Csrv.Mjson
