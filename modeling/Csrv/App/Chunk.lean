import Csrv.App.Quickjs
import Csrv.Lib.Chunked

/-!
# Writing chunks

`mg_http_printf_chunk` and `mg_http_write_chunk` as the bytes they append to a connection; all
allocations succeed. `vsnprintf` counts in an `int`, so `mg_vasprintf` fails for a text of `2 ^ 31`
bytes, once it has tried every size.
-/

namespace Csrv.App

open Chunked Quickjs

/-- `mg_vasprintf`, with the formatted text. -/
def mgVasprintf (s : Bytes) : ℤ × Bytes := if s.length < 2 ^ 31 then (s.length, s) else (-1, [])

/-- `mg_http_printf_chunk` of a text. -/
def mgHttpPrintfChunk (s : Bytes) : Bytes :=
  let (len, buf) := mgVasprintf s
  hexUpper (len % 2 ^ 32).toNat ++ ascii "\r\n" ++ buf.take len.toNat ++ ascii "\r\n"

def mgHttpWriteChunk (buf : Bytes) : Bytes :=
  hexUpper buf.length ++ ascii "\r\n" ++ buf ++ ascii "\r\n"

theorem mgHttpPrintfChunk_eq {s : Bytes} (h : s.length < 2 ^ 31) :
    mgHttpPrintfChunk s = encode hexUpper s := by
  have hlen : ((s.length : ℤ) % 2 ^ 32).toNat = s.length := by omega
  unfold mgHttpPrintfChunk mgVasprintf
  simp only [if_pos h, hlen, Int.toNat_natCast, List.take_length]
  rfl

/-- A text that is too long. -/
theorem mgHttpPrintfChunk_of_le {s : Bytes} (h : 2 ^ 31 ≤ s.length) :
    mgHttpPrintfChunk s = hexUpper (2 ^ 32 - 1) ++ crlf ++ crlf := by
  unfold mgHttpPrintfChunk mgVasprintf
  simp only [if_neg (Nat.not_lt.mpr h), List.take_nil, List.append_nil]
  rfl

/-! ## `%X` -/

theorem hexUpper_of_lt {d : ℕ} (h : d < 16) :
    ∃ c, hexUpper d = [c] ∧ Json.hexDigit c = some d := by
  have hdigit : ∀ d : Fin 16,
      Json.hexDigit (UInt8.ofNat (Nat.digitChar d).toUpper.toNat) = some d.val := by
    decide +kernel
  refine ⟨UInt8.ofNat d.digitChar.toUpper.toNat, ?_, hdigit ⟨d, h⟩⟩
  unfold hexUpper
  rw [Nat.toDigits_of_lt_base h, List.map_singleton]

theorem hexUpper_of_le {n : ℕ} (h : 16 ≤ n) :
    hexUpper n = hexUpper (n / 16) ++ hexUpper (n % 16) := by
  unfold hexUpper
  rw [Nat.toDigits_of_base_le (by decide) h, Nat.toDigits_of_lt_base (Nat.mod_lt n (by decide)),
    List.map_append]

theorem hexUpper_ne_nil (n : ℕ) : hexUpper n ≠ [] := by
  unfold hexUpper
  rw [Ne, List.map_eq_nil_iff]
  exact Nat.toDigits_ne_nil

/-- The last digit, alone or behind the others. -/
theorem hexUpper_cases (n : ℕ) : ∃ c, Json.hexDigit c = some (n % 16) ∧
    ((n < 16 ∧ hexUpper n = [c]) ∨ (16 ≤ n ∧ hexUpper n = hexUpper (n / 16) ++ [c])) := by
  obtain ⟨c, hc, hd⟩ := hexUpper_of_lt (Nat.mod_lt n (by decide))
  refine ⟨c, hd, ?_⟩
  rcases Nat.lt_or_ge n 16 with h | h
  · rw [Nat.mod_eq_of_lt h] at hc
    exact .inl ⟨h, hc⟩
  · rw [hexUpper_of_le h, hc]
    exact .inr ⟨h, rfl⟩

theorem hexNumber_hexUpper (n : ℕ) : hexNumber (hexUpper n) = some n := by
  induction n using Nat.strong_induction_on with
  | _ n ih =>
    obtain ⟨c, hd, ⟨hlt, hc⟩ | ⟨hle, hc⟩⟩ := hexUpper_cases n
    · rw [hc, ← List.nil_append [c], hexNumber_concat rfl hd, Nat.mul_zero, Nat.zero_add,
        Nat.mod_eq_of_lt hlt]
    · rw [hc, hexNumber_concat (ih (n / 16) (by omega)) hd]
      congr 1
      omega

/-- Every digit is one. -/
theorem isSome_of_mem_hexUpper {n : ℕ} {c : UInt8} (h : c ∈ hexUpper n) :
    (Json.hexDigit c).isSome = true := by
  induction n using Nat.strong_induction_on with
  | _ n ih =>
    obtain ⟨d, hd, ⟨-, hn⟩ | ⟨hle, hn⟩⟩ := hexUpper_cases n
    · rw [hn, List.mem_singleton] at h
      rw [h, hd]
      rfl
    · rw [hn, List.mem_append, List.mem_singleton] at h
      rcases h with h | rfl
      · exact ih (n / 16) (by omega) h
      · rw [hd]
        rfl

theorem cr_not_mem_hexUpper (n : ℕ) : 0x0d ∉ hexUpper n := fun h =>
  absurd (isSome_of_mem_hexUpper h) (by decide)

theorem chunkSize_hexUpper (n : ℕ) : chunkSize (hexUpper n) = some n := by
  rw [chunkSize_eq (hexUpper_ne_nil n) fun h => absurd (isSome_of_mem_hexUpper h) (by decide)]
  exact hexNumber_hexUpper n

/-! ## `%d` -/

/-- An `int` that is not negative has at most ten digits. -/
theorem length_toString_le (n : Fin (2 ^ 31)) : (ascii (toString n.val)).length ≤ 10 := by
  unfold ascii
  rw [List.length_map, Nat.toString_eq_ofList_toDigits, String.toList_ofList,
    Nat.length_toDigits_le_iff (by decide) (by decide)]
  exact n.isLt.trans (by decide)

/-! ## The response -/

def status : Bytes := ascii "HTTP/1.1 200 OK"

def fields : List Bytes := [ascii "Content-Type: text/plain", ascii "Transfer-Encoding: chunked"]

theorem header_append (w : Bytes) : header ++ w = status ++ crlf ++ (lines fields ++ crlf ++ w) := by
  have h : header = status ++ crlf ++ (lines fields ++ crlf) := by decide +kernel
  rw [h, List.append_assoc, List.append_assoc, List.append_assoc]

theorem cr_not_mem_status : 0x0d ∉ status := by decide

theorem isField_fields : ∀ f ∈ fields, IsField f := by
  intro f hf
  rcases List.mem_cons.mp hf with rfl | hf
  · exact ⟨by decide, by decide⟩
  · rw [List.mem_singleton.mp hf]
    exact ⟨by decide, by decide⟩

/-- A header and a body are a response. -/
theorem response_header {w rest : Bytes} {cs : List Bytes} (h : Body w cs rest) :
    Response (header ++ w) cs.flatten rest := by
  rw [header_append]
  exact .mk (by decide) cr_not_mem_status isField_fields (by decide) h

theorem body_of_response {w b rest : Bytes} (h : Response (header ++ w) b rest) :
    ∃ cs, Body w cs rest ∧ cs.flatten = b := by
  rw [header_append] at h
  exact h.body cr_not_mem_status isField_fields

end Csrv.App
