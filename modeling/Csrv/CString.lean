import Mathlib.Algebra.Order.Ring.Int
import Mathlib.Data.List.Infix
import Mathlib.Data.List.TakeWhile

/-!
# C strings

Byte strings as lists of bytes. A `char *` is the list of the bytes before its terminator;
a fixed buffer is a list of its length, and `cstr` reads the C string it holds.
-/

namespace Csrv

abbrev Bytes := List UInt8

/-- The bytes of an ASCII literal. -/
def ascii (s : String) : Bytes := s.toList.map fun c => UInt8.ofNat c.toNat

/-- The C string at the start of a buffer. -/
def cstr (buf : Bytes) : Bytes := buf.takeWhile (· ≠ 0)

theorem cstr_append_zero (w t : Bytes) : cstr (w ++ 0 :: t) = cstr w := by
  unfold cstr
  induction w with
  | nil => simp
  | cons c w ih =>
    rw [List.cons_append, List.takeWhile_cons, List.takeWhile_cons, ih]

theorem cstr_eq_self {s : Bytes} (h : 0 ∉ s) : cstr s = s := by
  unfold cstr
  apply List.takeWhile_eq_self_iff.mpr
  intro x hx
  simpa using fun e : x = 0 => h (e ▸ hx)

theorem cstr_eq_self_iff {s : Bytes} : cstr s = s ↔ 0 ∉ s := by
  refine ⟨fun h h0 => ?_, cstr_eq_self⟩
  have := List.takeWhile_eq_self_iff.mp h 0 h0
  simp at this

theorem cstr_of_not_mem {s : Bytes} (h : 0 ∉ s) (rest : Bytes) : cstr (s ++ 0 :: rest) = s := by
  rw [cstr_append_zero, cstr_eq_self h]

theorem cstr_append_zeros (w : Bytes) (n : ℕ) : cstr (w ++ List.replicate n 0) = cstr w := by
  cases n with
  | zero => rw [List.replicate_zero, List.append_nil]
  | succ n => exact cstr_append_zero w _

theorem cstr_append {s : Bytes} (h : 0 ∉ s) (t : Bytes) : cstr (s ++ t) = s ++ cstr t := by
  unfold cstr
  apply List.takeWhile_append_of_pos
  intro x hx
  simpa using fun e : x = 0 => h (e ▸ hx)

theorem cstr_cons_eq_nil_iff {c : UInt8} {t : Bytes} : cstr (c :: t) = [] ↔ c = 0 := by
  unfold cstr
  by_cases h : c = 0 <;> simp [h]

/-- `endswith` of `a.c`. -/
def endswith (str suffix : Bytes) : Bool :=
  let lenstr := str.length
  let lensuffix := suffix.length
  if lensuffix > lenstr then false
  else (str.drop (lenstr - lensuffix)).take lensuffix == suffix

/-- `begswith` of `a.c`. -/
def begswith (str pfx : Bytes) : Bool :=
  let lenstr := str.length
  let lenprefix := pfx.length
  if lenprefix > lenstr then false
  else str.take lenprefix == pfx

theorem endswith_iff {str suffix : Bytes} : endswith str suffix = true ↔ suffix <:+ str := by
  rw [endswith, List.suffix_iff_eq_drop]
  by_cases h : suffix.length > str.length
  · rw [if_pos h]
    refine iff_of_false Bool.false_ne_true fun e => ?_
    have := congrArg List.length e
    rw [List.length_drop] at this
    omega
  · rw [if_neg h, beq_iff_eq, List.take_of_length_le (by rw [List.length_drop]; omega)]
    exact eq_comm

theorem endswith_append (s suffix : Bytes) : endswith (s ++ suffix) suffix = true :=
  endswith_iff.mpr (List.suffix_append s suffix)

theorem begswith_iff {str pfx : Bytes} : begswith str pfx = true ↔ pfx <+: str := by
  rw [begswith, List.prefix_iff_eq_take]
  by_cases h : pfx.length > str.length
  · rw [if_pos h]
    refine iff_of_false Bool.false_ne_true fun e => ?_
    have := congrArg List.length e
    rw [List.length_take] at this
    omega
  · rw [if_neg h, beq_iff_eq]
    exact eq_comm

theorem begswith_nil (str : Bytes) : begswith str [] = true := by simp [begswith]

/-! ## Character classes in the C locale -/

def isprint (c : UInt8) : Bool := 0x20 ≤ c && c ≤ 0x7e

def isdigit (c : UInt8) : Bool := 0x30 ≤ c && c ≤ 0x39

def isxdigit (c : UInt8) : Bool :=
  isdigit c || (0x41 ≤ c && c ≤ 0x46) || (0x61 ≤ c && c ≤ 0x66)

def isspace (c : UInt8) : Bool := c == 0x20 || (0x09 ≤ c && c ≤ 0x0d)

def tolower (c : UInt8) : UInt8 := if 0x41 ≤ c && c ≤ 0x5a then c + 0x20 else c

/-! ## Numbers -/

/-- The value of a string of decimal digits. -/
def digits (s : Bytes) : ℕ := s.foldl (fun n c => 10 * n + (c.toNat - 0x30)) 0

/-- `strtol` in base 10, with a 64-bit `long`. -/
def strtol (s : Bytes) : ℤ :=
  let n : ℤ :=
    match s.dropWhile isspace with
    | 0x2d :: s => -(digits (s.takeWhile isdigit) : ℤ)
    | 0x2b :: s => digits (s.takeWhile isdigit)
    | s => digits (s.takeWhile isdigit)
  max (-2 ^ 63) (min n (2 ^ 63 - 1))

/-- `atoi`: the `int` conversion of `strtol`. -/
def atoi (s : Bytes) : ℤ := (strtol s).bmod (2 ^ 32)

/-! ### Numbers in decimal -/

theorem toNat_of_mem_toDigits {n : ℕ} {d : Char} (h : d ∈ Nat.toDigits 10 n) :
    (UInt8.ofNat d.toNat).toNat = d.toNat ∧ 0x30 ≤ d.toNat ∧ d.toNat ≤ 0x39 := by
  have hdigit := Nat.isDigit_of_mem_toDigits (by decide) (by decide) h
  simp only [Char.isDigit, Bool.and_eq_true, decide_eq_true_eq] at hdigit
  have hle : d.toNat ≤ 0x39 := UInt32.le_iff_toNat_le.mp hdigit.2
  refine ⟨?_, UInt32.le_iff_toNat_le.mp hdigit.1, hle⟩
  rw [UInt8.toNat_ofNat', Nat.mod_eq_of_lt (by omega)]

theorem isdigit_of_mem {n : ℕ} {c : UInt8} (h : c ∈ ascii (toString n)) : isdigit c = true := by
  unfold ascii at h
  rw [Nat.toString_eq_ofList_toDigits, String.toList_ofList] at h
  obtain ⟨d, hd, rfl⟩ := List.mem_map.mp h
  obtain ⟨heq, hge, hle⟩ := toNat_of_mem_toDigits hd
  unfold isdigit
  rw [Bool.and_eq_true, decide_eq_true_eq, decide_eq_true_eq, UInt8.le_iff_toNat_le,
    UInt8.le_iff_toNat_le, heq]
  exact ⟨hge, hle⟩

theorem digits_toString (n : ℕ) : digits (ascii (toString n)) = n := by
  have hstep : ∀ l : List Char, (∀ d ∈ l, d ∈ Nat.toDigits 10 n) → ∀ k,
      l.foldl (fun x y => 10 * x + ((UInt8.ofNat y.toNat).toNat - 0x30)) k =
        Nat.ofDigitChars 10 l k := by
    intro l hl
    induction l with
    | nil => exact fun k => rfl
    | cons d l ih =>
      intro k
      rw [List.foldl_cons, (toNat_of_mem_toDigits (hl d List.mem_cons_self)).1,
        ih fun e he => hl e (List.mem_cons_of_mem _ he)]
      rfl
  unfold digits ascii
  rw [Nat.toString_eq_ofList_toDigits, String.toList_ofList, List.foldl_map,
    hstep _ fun d hd => hd, Nat.ofDigitChars_toDigits (by decide) (by decide)]

end Csrv
