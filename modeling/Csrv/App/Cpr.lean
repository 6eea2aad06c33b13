import Csrv.App.Chunk

/-!
# The cpr module

`entry` of `cpr/src/a.cpp` sends the text of an upstream response as one chunk, formatted with
`%s`. An empty chunk is the end of a body, a `NUL` is the end of a C string, and `vsnprintf` counts
in an `int`; `wellFormed_iff` says that nothing else goes wrong.
-/

namespace Csrv.App.Cpr

open Chunked Quickjs

/-- `tpl:%d\n\n`; the counter is an `int`. -/
def counter (reqidx : Fin (2 ^ 31)) : Bytes :=
  ascii "tpl:" ++ ascii (toString reqidx.val) ++ ascii "\n\n"

/-- What `entry` appends to the connection when the upstream request has returned `text`. -/
def entry (reqidx : Fin (2 ^ 31)) (text : Bytes) : Bytes :=
  header ++ mgHttpPrintfChunk (counter reqidx) ++ mgHttpPrintfChunk (cstr text) ++
    mgHttpPrintfChunk []

/-- One response and nothing else, with the counter line and the text. -/
def WellFormed (reqidx : Fin (2 ^ 31)) (text : Bytes) : Prop :=
  Response (entry reqidx text) (counter reqidx ++ text) []

section Bytes

variable {reqidx : Fin (2 ^ 31)} {text : Bytes}

theorem counter_ne_nil : counter reqidx ≠ [] := by
  unfold counter
  rw [List.append_assoc]
  exact List.append_ne_nil_of_left_ne_nil (by decide) _

theorem length_counter : (counter reqidx).length < 2 ^ 31 := by
  have htpl : (ascii "tpl:").length = 4 := by decide
  have hend : (ascii "\n\n").length = 2 := by decide
  have hnumber := length_toString_le reqidx
  unfold counter
  rw [List.length_append, List.length_append, htpl, hend]
  omega

/-- A text that `vsnprintf` can count. -/
theorem entry_of_lt (h : (cstr text).length < 2 ^ 31) :
    entry reqidx text = header ++ (encode hexUpper (counter reqidx) ++
      (encode hexUpper (cstr text) ++ encode hexUpper [])) := by
  unfold entry
  rw [mgHttpPrintfChunk_eq length_counter, mgHttpPrintfChunk_eq h,
    mgHttpPrintfChunk_eq (by decide), List.append_assoc, List.append_assoc]

theorem entry_of_le (h : 2 ^ 31 ≤ (cstr text).length) :
    entry reqidx text = header ++ (hexUpper (counter reqidx).length ++ crlf ++
      (counter reqidx ++ crlf ++
        (hexUpper (2 ^ 32 - 1) ++ crlf ++ (crlf ++ encode hexUpper [])))) := by
  unfold entry
  rw [mgHttpPrintfChunk_eq length_counter, mgHttpPrintfChunk_of_le h,
    mgHttpPrintfChunk_eq (by decide)]
  simp only [encode, List.append_assoc]

/-- The body of texts that are not empty, whatever follows. -/
theorem body_encode_all (cs : List Bytes) (rest : Bytes) (hne : ∀ d ∈ cs, d ≠ []) :
    Body (cs.flatMap (encode hexUpper) ++ encode hexUpper [] ++ rest) cs rest :=
  body_encode cs rest cr_not_mem_hexUpper chunkSize_hexUpper hne

/-- A text that is not empty makes a response, up to its first `NUL`. -/
theorem response_of_ne_nil (reqidx : Fin (2 ^ 31)) (hne : cstr text ≠ [])
    (h : (cstr text).length < 2 ^ 31) :
    Response (entry reqidx text) (counter reqidx ++ cstr text) [] := by
  have hbody := body_encode_all [counter reqidx, cstr text] [] (by
    intro d hd
    rcases List.mem_cons.mp hd with rfl | hd
    · exact counter_ne_nil
    · rwa [List.mem_singleton.mp hd])
  rw [entry_of_lt h]
  simpa using response_header hbody

/-- An empty text ends the body, and the end of it is left over. -/
theorem not_wellFormed_of_nil (h : cstr text = []) : ¬ WellFormed reqidx text := by
  intro hw
  unfold WellFormed at hw
  rw [entry_of_lt (by rw [h]; decide), h] at hw
  obtain ⟨cs, hbody, -⟩ := body_of_response hw
  have hfirst := body_encode_all [counter reqidx] (encode hexUpper []) (by
    intro d hd
    rw [List.mem_singleton.mp hd]
    exact counter_ne_nil)
  rw [List.flatMap_singleton, List.append_assoc] at hfirst
  exact absurd (hfirst.unique hbody).2 (by decide)

/-- A text that cannot be counted announces a chunk that does not come. -/
theorem not_wellFormed_of_le (h : 2 ^ 31 ≤ (cstr text).length) : ¬ WellFormed reqidx text := by
  intro hw
  unfold WellFormed at hw
  rw [entry_of_le h] at hw
  obtain ⟨cs, hbody, -⟩ := body_of_response hw
  have hcounter : (counter reqidx).length ≠ 0 := fun h0 =>
    counter_ne_nil (List.length_eq_zero_iff.mp h0)
  obtain ⟨d, v, ds, hd, htail, -, hbody⟩ :=
    hbody.exists_chunk (cr_not_mem_hexUpper _) (chunkSize_hexUpper _) hcounter
  rw [List.append_assoc (counter reqidx), List.append_assoc d] at htail
  have hv := List.append_cancel_left (List.append_inj htail hd.symm).2
  rw [← hv] at hbody
  obtain ⟨d', v', ds', hd', htail', -, -⟩ :=
    hbody.exists_chunk (cr_not_mem_hexUpper _) (chunkSize_hexUpper _) (by decide)
  have hlen := congrArg List.length htail'
  have hend : (crlf ++ encode hexUpper []).length = 7 := by decide
  rw [hend, List.length_append, List.length_append, hd'] at hlen
  omega

end Bytes

/-- For which texts the response is well formed. -/
theorem wellFormed_iff (reqidx : Fin (2 ^ 31)) (text : Bytes) :
    WellFormed reqidx text ↔ text ≠ [] ∧ 0 ∉ text ∧ text.length < 2 ^ 31 := by
  constructor
  · intro h
    have hne : cstr text ≠ [] := fun h0 => not_wellFormed_of_nil h0 h
    have hlt : (cstr text).length < 2 ^ 31 := Nat.lt_of_not_le fun hle => not_wellFormed_of_le hle h
    have hcstr : cstr text = text :=
      List.append_cancel_left ((response_of_ne_nil reqidx hne hlt).unique h).1
    rw [hcstr] at hne hlt
    exact ⟨hne, cstr_eq_self_iff.mp hcstr, hlt⟩
  · rintro ⟨hne, h0, hlt⟩
    have hcstr := cstr_eq_self h0
    have h := response_of_ne_nil reqidx (hcstr.symm ▸ hne) (hcstr.symm ▸ hlt)
    rwa [hcstr] at h

/-- An upstream response without a text. -/
theorem not_wellFormed_empty : ¬ WellFormed 0 [] := not_wellFormed_of_nil rfl

end Csrv.App.Cpr
