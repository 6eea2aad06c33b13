import Csrv.App.Exlib
import Csrv.Mongoose.Query

/-!
# The flush decision

`exlib` compares the buffer of `mg_http_get_var` with `true` and ignores the return value. What the
buffer holds after a malformed escape ends with bytes that were there before, so the decision is
not always one of the query alone. `flushSound_iff` says for which queries it is.
-/

namespace Csrv.App

open Csrv.Mongoose

/-- The query asks for a flush. -/
def FlushAsked (query : Bytes) : Prop :=
  ∃ value, queryVar (ascii "flush") query = some value ∧ formDecode value = some (ascii "true")

/-- Whatever the buffer has held, `exlib` flushes if and only if the query asks for it. -/
structure FlushSound (query : Bytes) : Prop where
  same : ∀ stack stack', flushParam query stack = flushParam query stack'
  asked : ∀ stack, flushParam query stack = true ↔ FlushAsked query

/-- A value that cannot be taken for `true` through a `NUL` or through stale bytes. -/
structure FlushPlain (value : Bytes) : Prop where
  nul : ¬ ascii "true" ++ [0] <+: (decodedPart value).1
  stale : (decodedPart value).2 = false →
    (decodedPart value).1 = [] ∨ ¬ (decodedPart value).1 <+: ascii "true"

theorem flushParam_eq_true_iff {query : Bytes} {stack : Fin 32 → UInt8} :
    flushParam query stack = true ↔
      ∃ value, queryVar (ascii "flush") query = some value ∧
        leftText value (List.ofFn stack) = ascii "true" := by
  have htext : flushParam query stack =
      (((queryVar (ascii "flush") query).map (leftText · (List.ofFn stack))).getD [] ==
        ascii "true") := by
    show (cstr (mgHttpGetVar query (ascii "flush") (List.ofFn stack)).2 == ascii "true") = _
    rw [cstr_mgHttpGetVar (by decide) (by decide) (by decide) (by simp)]
  rw [htext, beq_iff_eq]
  cases queryVar (ascii "flush") query with
  | none =>
    have hne : ([] : Bytes) ≠ ascii "true" := by decide
    refine iff_of_false hne ?_
    rintro ⟨value, h, -⟩
    cases h
  | some value => simp

/-- What reads as `true`. -/
theorem cstr_eq_iff {t u : Bytes} (ht : 0 ∉ t) : cstr u = t ↔ u = t ∨ t ++ [0] <+: u := by
  constructor
  · intro h
    by_cases hu : 0 ∈ u
    · obtain ⟨w, rest, rfl, hw⟩ := List.eq_append_cons_of_mem hu
      rw [cstr_of_not_mem hw] at h
      subst h
      exact .inr ⟨rest, by simp⟩
    · exact .inl ((cstr_eq_self hu).symm.trans h)
  · rintro (rfl | ⟨rest, rfl⟩)
    · exact cstr_eq_self ht
    · rw [List.append_assoc]
      exact cstr_of_not_mem ht rest

section Plain

variable {value old : Bytes}

theorem zero_not_mem_true : (0 : UInt8) ∉ ascii "true" := by decide

theorem length_true : (ascii "true").length = 4 := rfl

/-- A value that is not cut short reads as `true` if it decodes to it. -/
theorem FlushPlain.terminated (h : FlushPlain value) (hold : old.length = 32)
    (hend : (decodedPart value).2 = true ∨ old.length - 1 ≤ (decodedPart value).1.length) :
    leftText value old = ascii "true" ↔ decodedPart value = (ascii "true", true) := by
  rw [leftText_terminated hend, cstr_eq_iff zero_not_mem_true, hold]
  constructor
  · rintro (htake | hpre)
    · have hshort : (decodedPart value).1.length ≤ 31 := by
        by_contra hlong
        have hlen := congrArg List.length htake
        rw [List.length_take, length_true] at hlen
        omega
      rw [List.take_of_length_le hshort] at htake
      rcases hend with hok | hlong
      · exact Prod.ext htake hok
      · rw [htake, hold, length_true] at hlong
        omega
    · exact absurd (hpre.trans (List.take_prefix _ _)) h.nul
  · intro hd
    rw [hd]
    exact .inl rfl

/-- A value with a malformed escape does not read as `true`. -/
theorem FlushPlain.malformed (h : FlushPlain value) (hmal : (decodedPart value).2 = false)
    (hlen : (decodedPart value).1.length < old.length - 1) :
    leftText value old ≠ ascii "true" := by
  rw [leftText_malformed hmal hlen]
  split_ifs with hnil
  · exact (List.cons_ne_nil _ _).symm
  rw [Ne, cstr_eq_iff zero_not_mem_true]
  -- what has been decoded and `true\0` would be prefixes of the same text
  have hw : (decodedPart value).1 <+: ascii "true" ++ [0] →
      ascii "true" ++ [0] <+: (decodedPart value).1 ∨ (decodedPart value).1 <+: ascii "true" :=
    fun hpre => (List.prefix_concat_iff.mp hpre).imp_left fun he => ⟨[], by rw [he, List.append_nil]⟩
  have hstale := (h.stale hmal).resolve_left hnil
  rintro (he | hpre)
  · exact hstale ⟨_, he⟩
  · rcases List.prefix_or_prefix_of_prefix (List.prefix_append _ _) hpre with hpre | hpre
    · exact (hw hpre).elim h.nul hstale
    · exact h.nul hpre

/-- Over 32 stale bytes, a plain value reads as `true` if and only if it decodes to it. -/
theorem FlushPlain.leftText_eq_iff (h : FlushPlain value) (hold : old.length = 32) :
    leftText value old = ascii "true" ↔ formDecode value = some (ascii "true") := by
  rw [formDecode_eq_some_iff]
  by_cases hend : (decodedPart value).2 = true ∨ old.length - 1 ≤ (decodedPart value).1.length
  · exact h.terminated hold hend
  · obtain ⟨hmal, hlt⟩ := not_or.mp hend
    have hmal := Bool.eq_false_iff.mpr hmal
    refine iff_of_false (h.malformed hmal (Nat.lt_of_not_le hlt)) fun hd => ?_
    rw [hd] at hmal
    cases hmal

/-! ## Values that are not plain -/

/-- Stale bytes that hold `true`. -/
def staleTrue (i : Fin 32) : UInt8 := (ascii "true").getD i 0

theorem ofFn_staleTrue : List.ofFn staleTrue = ascii "true" ++ List.replicate 28 0 := by decide

theorem leftText_nul (h : ascii "true" ++ [0] <+: (decodedPart value).1) (hold : old.length = 32) :
    leftText value old = ascii "true" := by
  obtain ⟨rest, hrest⟩ := h
  have hw : (decodedPart value).1 = ascii "true" ++ 0 :: rest := by
    rw [← hrest, List.append_assoc]
    rfl
  by_cases hend : (decodedPart value).2 = true ∨ old.length - 1 ≤ (decodedPart value).1.length
  · rw [leftText_terminated hend, hw, hold]
    exact cstr_of_not_mem zero_not_mem_true (rest.take 26)
  · obtain ⟨hmal, hlt⟩ := not_or.mp hend
    rw [leftText_malformed (Bool.eq_false_iff.mpr hmal) (Nat.lt_of_not_le hlt), hw,
      if_neg (by simp), List.append_assoc]
    exact cstr_of_not_mem zero_not_mem_true _

theorem leftText_staleTrue (hmal : (decodedPart value).2 = false)
    (hnil : (decodedPart value).1 ≠ []) (hpre : (decodedPart value).1 <+: ascii "true") :
    leftText value (List.ofFn staleTrue) = ascii "true" := by
  have hlen := hpre.length_le
  rw [length_true] at hlen
  obtain ⟨rest, hrest⟩ := hpre
  rw [leftText_malformed hmal (by rw [List.length_ofFn]; omega), if_neg hnil, ofFn_staleTrue, ← hrest,
    List.append_assoc, List.drop_left, ← List.append_assoc, hrest, cstr_append_zeros,
    cstr_eq_self zero_not_mem_true]

end Plain

/-- For which queries the flush decision is the query's own. -/
theorem flushSound_iff (query : Bytes) :
    FlushSound query ↔ ∀ value, queryVar (ascii "flush") query = some value → FlushPlain value := by
  have hlen : ∀ stack : Fin 32 → UInt8, (List.ofFn stack).length = 32 := fun stack =>
    List.length_ofFn
  constructor
  · intro h value hvar
    -- a flush must have been asked for with this value
    have hasked : ∀ stack : Fin 32 → UInt8, leftText value (List.ofFn stack) = ascii "true" →
        decodedPart value = (ascii "true", true) := by
      intro stack htext
      obtain ⟨v, hv, hd⟩ := (h.asked stack).mp (flushParam_eq_true_iff.mpr ⟨value, hvar, htext⟩)
      rw [hvar] at hv
      exact formDecode_eq_some_iff.mp (Option.some.inj hv ▸ hd)
    constructor
    · intro hpre
      have hd := hasked (fun _ => 0) (leftText_nul hpre (hlen _))
      rw [hd] at hpre
      exact absurd hpre.length_le (by decide)
    · intro hmal
      by_contra hstale
      obtain ⟨hnil, hpre⟩ := not_or.mp hstale
      have hd := hasked staleTrue (leftText_staleTrue hmal hnil (not_not.mp hpre))
      rw [hd] at hmal
      cases hmal
  · intro h
    have hasked : ∀ stack, flushParam query stack = true ↔ FlushAsked query := by
      intro stack
      rw [flushParam_eq_true_iff]
      exact exists_congr fun value => and_congr_right fun hvar =>
        (h value hvar).leftText_eq_iff (hlen stack)
    exact ⟨fun stack stack' => Bool.eq_iff_iff.mpr ((hasked stack).trans (hasked stack').symm),
      hasked⟩

/-- A flush that only the bytes of an earlier call ask for. -/
theorem not_flushSound_malformed : ¬ FlushSound (ascii "flush=true%") := fun h =>
  absurd (h.same (fun _ => 0) fun _ => 0x78) (by decide +kernel)

end Csrv.App
