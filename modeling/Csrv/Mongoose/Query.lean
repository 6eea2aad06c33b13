import Csrv.Mongoose.Url
import Mathlib.Data.List.Basic

/-!
# What a query says

A query read apart from the scanner of `mg_http_get_var`: its parameters are the pieces between
`&`, a variable's value is what stands behind the `=` of the first parameter of that name, and
`decodedPart` is the value without its encoding up to the first malformed escape. The text that
`mg_http_get_var` leaves in a buffer is `leftText` of these, and of the old bytes of the buffer
where an escape is malformed (`cstr_mgHttpGetVar`).
-/

namespace Csrv.Mongoose

/-- The value of a parameter that is called `name`. -/
def paramValue (name param : Bytes) : Option Bytes :=
  match param.dropWhile (· ≠ 0x3d) with
  | [] => none
  | _ :: value =>
    if (param.takeWhile (· ≠ 0x3d)).map tolower = name.map tolower then some value else none

/-- The raw value of the first variable called `name`, in any case. -/
def queryVar (name query : Bytes) : Option Bytes :=
  (query.splitOn 0x26).findSome? (paramValue name)

/-- The decoded bytes before the first malformed escape, and whether there is none. -/
def decodedPart : Bytes → Bytes × Bool
  | [] => ([], true)
  | c :: src =>
    if c = 0x25 then
      match src with
      | hi :: lo :: src =>
        if isxdigit hi && isxdigit lo then
          (mgUnhex hi lo :: (decodedPart src).1, (decodedPart src).2)
        else ([], false)
      | _ => ([], false)
    else ((if c = 0x2b then 0x20 else c) :: (decodedPart src).1, (decodedPart src).2)

/-- The text left by decoding `value` into a buffer that holds `old`. A value with a malformed
escape is not terminated; what follows it is what the buffer has held. -/
def leftText (value old : Bytes) : Bytes :=
  let w := (decodedPart value).1.take (old.length - 1)
  if (decodedPart value).2 ∨ old.length - 1 ≤ w.length then cstr w
  else if w = [] then []
  else cstr (w ++ old.drop w.length)

/-! ## Names -/

section Names

variable {name p : Bytes}

theorem tolower_eq_iff {c d : UInt8} (hd : d.toNat < 0x41) : tolower c = d ↔ c = d := by
  unfold tolower
  split_ifs with h
  · rw [Bool.and_eq_true, decide_eq_true_eq, decide_eq_true_eq, UInt8.le_iff_toNat_le,
      UInt8.le_iff_toNat_le] at h
    have h1 : (0x41 : UInt8).toNat = 0x41 := rfl
    have h2 : (0x5a : UInt8).toNat = 0x5a := rfl
    have hadd : (c + 0x20).toNat = c.toNat + 0x20 := by
      rw [UInt8.toNat_add, show (0x20 : UInt8).toNat = 0x20 from rfl]
      omega
    refine iff_of_false (fun e => ?_) (fun e => ?_)
    · rw [← e, hadd] at hd
      omega
    · rw [← e] at hd
      omega
  · exact Iff.rfl

/-- A name that agrees with `name` but for case has the same bytes outside the letters. -/
theorem not_mem_of_map_tolower {w : Bytes} {d : UInt8} (hd : d.toNat < 0x41)
    (h : w.map tolower = name.map tolower) (hn : d ∉ name) : d ∉ w := by
  intro hw
  have : d ∈ name.map tolower := by
    rw [← h]
    exact List.mem_map.mpr ⟨d, hw, (tolower_eq_iff hd).mpr rfl⟩
  obtain ⟨c, hc, e⟩ := List.mem_map.mp this
  exact hn ((tolower_eq_iff hd).mp e ▸ hc)

theorem mgNcasecmp_eq_zero_iff (h0 : 0 ∉ name) (hlen : name.length ≤ p.length) :
    mgNcasecmp name p name.length = 0 ↔ (p.take name.length).map tolower = name.map tolower := by
  induction name generalizing p with
  | nil => simp [mgNcasecmp]
  | cons c name ih =>
    obtain ⟨d, p, rfl⟩ := List.exists_cons_of_length_pos (Nat.lt_of_lt_of_le (Nat.succ_pos _) hlen)
    have hc : c ≠ 0 := fun e => h0 (e ▸ List.mem_cons_self)
    have hdiff : ((tolower c).toNat : ℤ) - (tolower d).toNat = 0 ↔ tolower d = tolower c := by
      rw [← UInt8.toNat_inj]
      omega
    have hstep : mgNcasecmp (c :: name) (d :: p) (name.length + 1) =
        if ((tolower c).toNat : ℤ) - (tolower d).toNat = 0 ∧ c ≠ 0
        then mgNcasecmp name p name.length else ((tolower c).toNat : ℤ) - (tolower d).toNat := rfl
    rw [List.length_cons, hstep, List.take_succ_cons, List.map_cons, List.map_cons,
      List.cons.injEq]
    by_cases hd : tolower d = tolower c
    · rw [if_pos ⟨hdiff.mpr hd, hc⟩, ih (fun h => h0 (List.mem_cons_of_mem _ h))
        (Nat.le_of_succ_le_succ hlen)]
      exact (and_iff_right hd).symm
    · rw [if_neg (fun h => hd (hdiff.mp h.1))]
      exact iff_of_false (fun h => hd (hdiff.mp h)) (fun h => hd h.1)

theorem paramValue_append {w value : Bytes} (hw : 0x3d ∉ w) :
    paramValue name (w ++ 0x3d :: value) =
      if w.map tolower = name.map tolower then some value else none := by
  have hall : ∀ c ∈ w, decide (c ≠ 0x3d) = true := fun c hc =>
    decide_eq_true fun e => hw (e ▸ hc)
  have hdrop : (w ++ 0x3d :: value).dropWhile (· ≠ 0x3d) = 0x3d :: value := by
    rw [List.dropWhile_append_of_pos hall]
    rfl
  have htake : (w ++ 0x3d :: value).takeWhile (· ≠ 0x3d) = w := by
    rw [List.takeWhile_append_of_pos hall]
    exact List.append_nil w
  unfold paramValue
  rw [hdrop, htake]

theorem paramValue_eq_some_iff (heq : 0x3d ∉ name) {value : Bytes} :
    paramValue name p = some value ↔
      ∃ w, p = w ++ 0x3d :: value ∧ w.map tolower = name.map tolower := by
  constructor
  · intro h
    unfold paramValue at h
    cases hdrop : p.dropWhile (· ≠ 0x3d) with
    | nil =>
      rw [hdrop] at h
      cases h
    | cons c rest =>
      rw [hdrop] at h
      have hc : c = 0x3d := by
        have hne : p.dropWhile (· ≠ 0x3d) ≠ [] := by
          rw [hdrop]
          exact List.cons_ne_nil c rest
        have hhead : (p.dropWhile (· ≠ 0x3d)).head hne = c := by
          simp only [hdrop, List.head_cons]
        have := List.head_dropWhile_not (fun x : UInt8 => decide (x ≠ 0x3d)) hne
        rw [hhead] at this
        simpa using this
      change (if _ then some rest else none) = some value at h
      split_ifs at h with hname
      refine ⟨p.takeWhile (· ≠ 0x3d), ?_, hname⟩
      calc p = p.takeWhile (· ≠ 0x3d) ++ p.dropWhile (· ≠ 0x3d) :=
            List.takeWhile_append_dropWhile.symm
        _ = p.takeWhile (· ≠ 0x3d) ++ 0x3d :: value := by rw [hdrop, hc, Option.some.inj h]
  · rintro ⟨w, rfl, hname⟩
    rw [paramValue_append (not_mem_of_map_tolower (by decide) hname heq), if_pos hname]

/-- The test of the scanner at the start of a parameter, as far as the query goes. -/
theorem mgNcasecmp_iff (h0 : 0 ∉ name) :
    p[name.length]? = some 0x3d ∧ mgNcasecmp name p name.length = 0 ↔
      ∃ w value, p = w ++ 0x3d :: value ∧ w.map tolower = name.map tolower := by
  constructor
  · rintro ⟨hp, hcmp⟩
    obtain ⟨hlt, hget⟩ := List.getElem?_eq_some_iff.mp hp
    refine ⟨p.take name.length, p.drop (name.length + 1), ?_,
      (mgNcasecmp_eq_zero_iff h0 hlt.le).mp hcmp⟩
    rw [← hget, ← List.drop_eq_getElem_cons hlt, List.take_append_drop]
  · rintro ⟨w, value, rfl, hname⟩
    have hlen : w.length = name.length := by
      rw [← List.length_map tolower, hname, List.length_map]
    refine ⟨?_, (mgNcasecmp_eq_zero_iff h0 ?_).mpr ?_⟩
    · rw [← hlen, List.getElem?_append_right le_rfl, Nat.sub_self]
      rfl
    · rw [List.length_append]
      omega
    · rw [← hlen, List.take_left, hname]

end Names

/-! ## The scanner -/

section Scanner

variable {name : Bytes}

theorem takeWhile_amp {w value : Bytes} (hw : 0x26 ∉ w) :
    (w ++ 0x3d :: value).takeWhile (· ≠ 0x26) = w ++ 0x3d :: value.takeWhile (· ≠ 0x26) := by
  have hall : ∀ c ∈ w, decide (c ≠ 0x26) = true := fun c hc =>
    decide_eq_true fun e => hw (e ▸ hc)
  rw [List.takeWhile_append_of_pos hall]
  rfl

/-- What the scanner does at the start of a parameter. -/
theorem paramValue_takeWhile (h0 : 0 ∉ name) (heq : 0x3d ∉ name) (hamp : 0x26 ∉ name) (q : Bytes) :
    paramValue name (q.takeWhile (· ≠ 0x26)) =
      if q[name.length]? = some 0x3d ∧ mgNcasecmp name q name.length = 0
      then some ((q.drop (name.length + 1)).takeWhile (· ≠ 0x26)) else none := by
  split_ifs with htest
  · obtain ⟨w, value, rfl, hname⟩ := (mgNcasecmp_iff h0).mp htest
    have hlen : w.length = name.length := by
      rw [← List.length_map tolower, hname, List.length_map]
    rw [takeWhile_amp (not_mem_of_map_tolower (by decide) hname hamp),
      (paramValue_eq_some_iff heq).mpr ⟨w, rfl, hname⟩, ← hlen, ← List.drop_drop, List.drop_left]
    rfl
  · by_contra hne
    obtain ⟨value, hv⟩ := Option.ne_none_iff_exists'.mp hne
    obtain ⟨w, hw, hname⟩ := (paramValue_eq_some_iff heq).mp hv
    refine htest ((mgNcasecmp_iff h0).mpr ⟨w, value ++ q.dropWhile (· ≠ 0x26), ?_, hname⟩)
    calc q = q.takeWhile (· ≠ 0x26) ++ q.dropWhile (· ≠ 0x26) :=
          List.takeWhile_append_dropWhile.symm
      _ = w ++ 0x3d :: (value ++ q.dropWhile (· ≠ 0x26)) := by
        rw [hw, List.append_assoc, List.cons_append]

/-! ### The parameters -/

theorem splitOn_eq_cons (q : Bytes) :
    q.splitOn 0x26 = q.takeWhile (· ≠ 0x26) :: (q.splitOn 0x26).tail := by
  induction q with
  | nil => rfl
  | cons c q ih =>
    rw [List.splitOn_cons_eq_if_modifyHead, ih]
    by_cases hc : c = 0x26
    · simp [hc]
    · simp [hc]

/-- The parameters that start at or after `p`, when the byte before it is `prev`. -/
def paramsFrom (prev : Option UInt8) (p : Bytes) : List Bytes :=
  if prev = none ∨ prev = some 0x26 then p.splitOn 0x26 else (p.splitOn 0x26).tail

theorem paramsFrom_some (c : UInt8) (p : Bytes) :
    paramsFrom (some c) p = ((c :: p).splitOn 0x26).tail := by
  unfold paramsFrom
  rw [List.splitOn_cons_eq_if_modifyHead, splitOn_eq_cons p]
  by_cases hc : c = 0x26
  · simp [hc]
  · simp [hc]

theorem mem_splitOn_of_mem_paramsFrom {prev : Option UInt8} {p param : Bytes}
    (h : param ∈ paramsFrom prev p) : param ∈ p.splitOn 0x26 := by
  by_cases hprev : prev = none ∨ prev = some 0x26
  · exact (if_pos hprev : paramsFrom prev p = _) ▸ h
  · exact List.mem_of_mem_tail ((if_neg hprev : paramsFrom prev p = _) ▸ h)

theorem length_le_of_mem_splitOn {p param : Bytes} (h : param ∈ p.splitOn 0x26) :
    param.length ≤ p.length := by
  induction p generalizing param with
  | nil =>
    rw [List.splitOn_nil, List.mem_singleton] at h
    rw [h]
  | cons c p ih =>
    rw [splitOn_eq_cons, ← paramsFrom_some] at h
    rcases List.mem_cons.mp h with rfl | h
    · exact (List.takeWhile_prefix _).length_le
    · exact Nat.le_succ_of_le (ih (mem_splitOn_of_mem_paramsFrom h))

/-- A parameter that is not longer than the name. -/
theorem paramValue_short (heq : 0x3d ∉ name) {p : Bytes} (h : p.length ≤ name.length) :
    paramValue name p = none := by
  by_contra hne
  obtain ⟨value, hv⟩ := Option.ne_none_iff_exists'.mp hne
  obtain ⟨w, rfl, hname⟩ := (paramValue_eq_some_iff heq).mp hv
  have hlen : w.length = name.length := by
    rw [← List.length_map tolower, hname, List.length_map]
  rw [List.length_append, List.length_cons] at h
  omega

/-- The scanner finds what the parameters say of `name`. -/
theorem getVarLoop_eq_findSome? (h0 : 0 ∉ name) (heq : 0x3d ∉ name) (hamp : 0x26 ∉ name)
    (prev : Option UInt8) (p : Bytes) :
    getVarLoop name prev p = (paramsFrom prev p).findSome? (paramValue name) := by
  induction p generalizing prev with
  | nil =>
    unfold paramsFrom
    split_ifs <;> rfl
  | cons c p ih =>
    unfold getVarLoop
    by_cases hlt : name.length < (c :: p).length
    · rw [if_pos hlt, ih, paramsFrom_some]
      by_cases hprev : prev = none ∨ prev = some 0x26
      · have hparams : paramsFrom prev (c :: p) =
            (c :: p).takeWhile (· ≠ 0x26) :: ((c :: p).splitOn 0x26).tail :=
          (if_pos hprev).trans (splitOn_eq_cons _)
        rw [hparams, List.findSome?_cons, paramValue_takeWhile h0 heq hamp]
        by_cases htest : (c :: p)[name.length]? = some 0x3d ∧
            mgNcasecmp name (c :: p) name.length = 0
        · rw [if_pos ⟨hprev, htest⟩, if_pos htest]
        · rw [if_neg (fun h => htest h.2), if_neg htest]
      · have hparams : paramsFrom prev (c :: p) = ((c :: p).splitOn 0x26).tail := if_neg hprev
        rw [hparams, if_neg (fun h => hprev h.1)]
    · rw [if_neg hlt]
      refine (List.findSome?_eq_none_iff.mpr fun param hparam => ?_).symm
      refine paramValue_short heq (le_trans ?_ (Nat.le_of_not_lt hlt))
      exact length_le_of_mem_splitOn (mem_splitOn_of_mem_paramsFrom hparam)

theorem getVarLoop_eq_queryVar (h0 : 0 ∉ name) (heq : 0x3d ∉ name) (hamp : 0x26 ∉ name)
    (query : Bytes) : getVarLoop name none query = queryVar name query :=
  getVarLoop_eq_findSome? h0 heq hamp none query

end Scanner

/-! ## The text left in a buffer -/

section Text

variable {src dst value old d : Bytes} {j : ℕ}

theorem decodedPart_escape {hi lo : UInt8} (h : (isxdigit hi && isxdigit lo) = true) :
    decodedPart (0x25 :: hi :: lo :: src) =
      (mgUnhex hi lo :: (decodedPart src).1, (decodedPart src).2) := by
  rw [decodedPart, if_pos rfl]
  exact if_pos h

theorem decodedPart_cons {c : UInt8} (h : c ≠ 0x25) :
    decodedPart (c :: src) =
      ((if c = 0x2b then 0x20 else c) :: (decodedPart src).1, (decodedPart src).2) := by
  rw [decodedPart.eq_def]
  exact if_neg h

theorem decodedPart_plus {c : UInt8} (h : c = 0x2b) :
    decodedPart (c :: src) = (0x20 :: (decodedPart src).1, (decodedPart src).2) := by
  have hc : c ≠ 0x25 := fun e => absurd (h.symm.trans e) (by decide)
  rw [decodedPart_cons hc, if_pos h]

theorem decodedPart_plain {c : UInt8} (hc : c ≠ 0x25) (h : c ≠ 0x2b) :
    decodedPart (c :: src) = (c :: (decodedPart src).1, (decodedPart src).2) := by
  rw [decodedPart_cons hc, if_neg h]

/-- An escape with fewer than two bytes behind it. -/
theorem decode_short (h : ∀ hi lo rest, src = hi :: lo :: rest → False) :
    decodedPart (0x25 :: src) = ([], false) ∧ formDecode (0x25 :: src) = none := by
  rcases src with _ | ⟨hi, _ | ⟨lo, rest⟩⟩
  · exact ⟨rfl, rfl⟩
  · exact ⟨rfl, rfl⟩
  · exact absurd rfl (h hi lo rest)

/-- A value decodes if no escape is malformed. -/
theorem formDecode_eq :
    formDecode src = if (decodedPart src).2 then some (decodedPart src).1 else none := by
  fun_induction decodedPart src with
  | case1 => rfl
  | case2 hi lo src hx ih =>
    rw [formDecode_escape hx, ih]
    cases (decodedPart src).2 <;> rfl
  | case3 hi lo src hx => simp [formDecode, hx]
  | case4 src hne => exact (decode_short hne).2
  | case5 c src hc ih =>
    rw [formDecode_cons hc, ih]
    cases (decodedPart src).2 <;> rfl

theorem formDecode_eq_some_iff :
    formDecode src = some d ↔ decodedPart src = (d, true) := by
  rw [formDecode_eq]
  cases decodedPart src with
  | mk w ok => cases ok <;> simp

theorem take_set_succ (b : UInt8) (h : j < dst.length) :
    (dst.set j b).take (j + 1) = dst.take j ++ [b] := by
  rw [List.take_add_one, List.take_set_of_le le_rfl, List.getElem?_set_self h]
  rfl

theorem urlDecodeEnd_terminated {b : Bool} (h : j < dst.length) :
    ∃ rest, (urlDecodeEnd b j dst).2 = dst.take j ++ 0 :: rest := by
  refine ⟨dst.drop (j + 1), ?_⟩
  show (if j < dst.length then dst.set j 0 else dst) = _
  rw [if_pos h, List.set_eq_take_append_cons_drop, if_pos h]

/-- The byte written at `j` is the first of those decoded, and the rest is terminated. -/
theorem terminated_cons {b : UInt8} {src' out : Bytes} (hlt : j + 1 < dst.length)
    (hd : decodedPart src = (b :: (decodedPart src').1, (decodedPart src').2))
    (h : (decodedPart src).2 = true ∨ dst.length - 1 - j ≤ (decodedPart src).1.length)
    (ih : j + 1 < (dst.set j b).length →
      ((decodedPart src').2 = true ∨
        (dst.set j b).length - 1 - (j + 1) ≤ (decodedPart src').1.length) →
      ∃ rest, out = (dst.set j b).take (j + 1) ++
        (decodedPart src').1.take ((dst.set j b).length - 1 - (j + 1)) ++ 0 :: rest) :
    ∃ rest, out =
      dst.take j ++ (decodedPart src).1.take (dst.length - 1 - j) ++ 0 :: rest := by
  rw [hd] at h ⊢
  rw [List.length_cons] at h
  rw [List.length_set] at ih
  obtain ⟨rest, rfl⟩ := ih hlt (h.imp_right (by omega))
  refine ⟨rest, ?_⟩
  rw [take_set_succ b (by omega),
    show dst.length - 1 - j = dst.length - 1 - (j + 1) + 1 by omega, List.take_succ_cons]
  simp

/-- A value without a malformed escape, or one that fills the buffer before it, is terminated. -/
theorem urlDecodeLoop_terminated (hj : j < dst.length)
    (h : (decodedPart src).2 = true ∨ dst.length - 1 - j ≤ (decodedPart src).1.length) :
    ∃ rest, (urlDecodeLoop true src j dst).2 =
      dst.take j ++ (decodedPart src).1.take (dst.length - 1 - j) ++ 0 :: rest := by
  fun_induction urlDecodeLoop true src j dst with
  | case1 j dst =>
    obtain ⟨rest, hrest⟩ := urlDecodeEnd_terminated (b := true) hj
    exact ⟨rest, by rw [hrest]; simp [decodedPart]⟩
  | case2 j dst hlt hi lo src hx ih =>
    exact terminated_cons hlt (decodedPart_escape hx) h ih
  | case3 j dst hlt hi lo src hx =>
    have hd : decodedPart (0x25 :: hi :: lo :: src) = ([], false) := by simp [decodedPart, hx]
    rw [hd] at h
    simp at h
    omega
  | case4 src j dst hlt hne =>
    rw [(decode_short hne).1] at h
    simp at h
    omega
  | case5 c src j dst hlt hc hplus ih =>
    have hd := @decodedPart_plus src c (by simpa using hplus)
    exact terminated_cons hlt hd h ih
  | case6 c src j dst hlt hc hplus ih =>
    have hd := @decodedPart_plain src c hc (by simpa using hplus)
    exact terminated_cons hlt hd h ih
  | case7 c src j dst hlt =>
    obtain ⟨rest, hrest⟩ := urlDecodeEnd_terminated (b := false) hj
    refine ⟨rest, ?_⟩
    rw [hrest, show dst.length - 1 - j = 0 by omega, List.take_zero, List.append_nil]

/-- The byte written at `j` is the first of those decoded, and the bytes after them stay. -/
theorem malformed_cons {b : UInt8} {src' out : Bytes}
    (hd : decodedPart src = (b :: (decodedPart src').1, (decodedPart src').2))
    (h : (decodedPart src).2 = false) (hlt : j + (decodedPart src).1.length + 1 < dst.length)
    (ih : (decodedPart src').2 = false →
      j + 1 + (decodedPart src').1.length + 1 < (dst.set j b).length →
      out = (dst.set j b).take (j + 1) ++ (decodedPart src').1 ++
        (dst.set j b).drop (j + 1 + (decodedPart src').1.length)) :
    out = dst.take j ++ (decodedPart src).1 ++ dst.drop (j + (decodedPart src).1.length) := by
  rw [hd] at *
  rw [List.length_cons] at hlt
  rw [ih h (by rw [List.length_set]; omega), take_set_succ b (by omega),
    List.drop_set_of_lt (by omega), List.length_cons,
    show j + 1 + (decodedPart src').1.length = j + ((decodedPart src').1.length + 1) by omega]
  simp

/-- A malformed escape leaves the bytes from there on as they were. -/
theorem urlDecodeLoop_malformed (h : (decodedPart src).2 = false)
    (hlt : j + (decodedPart src).1.length + 1 < dst.length) :
    (urlDecodeLoop true src j dst).2 =
      dst.take j ++ (decodedPart src).1 ++ dst.drop (j + (decodedPart src).1.length) := by
  fun_induction urlDecodeLoop true src j dst with
  | case1 j dst => cases h
  | case2 j dst hj hi lo src hx ih => exact malformed_cons (decodedPart_escape hx) h hlt ih
  | case3 j dst hj hi lo src hx => simp [decodedPart, hx]
  | case4 src j dst hj hne => simp [(decode_short hne).1]
  | case5 c src j dst hj hc hplus ih =>
    have hd := @decodedPart_plus src c (by simpa using hplus)
    exact malformed_cons hd h hlt ih
  | case6 c src j dst hj hc hplus ih =>
    have hd := @decodedPart_plain src c hc (by simpa using hplus)
    exact malformed_cons hd h hlt ih
  | case7 c src j dst hj => omega

theorem leftText_terminated
    (h : (decodedPart value).2 = true ∨ old.length - 1 ≤ (decodedPart value).1.length) :
    leftText value old = cstr ((decodedPart value).1.take (old.length - 1)) := by
  refine if_pos (h.imp_right fun hlen => ?_)
  rw [List.length_take]
  omega

theorem leftText_malformed (h : (decodedPart value).2 = false)
    (hlen : (decodedPart value).1.length < old.length - 1) :
    leftText value old =
      if (decodedPart value).1 = [] then []
      else cstr ((decodedPart value).1 ++ old.drop (decodedPart value).1.length) := by
  unfold leftText
  rw [List.take_of_length_le hlen.le]
  refine if_neg ?_
  rintro (hok | hlong)
  · rw [h] at hok
    cases hok
  · omega

theorem cstr_mgUrlDecode (h : 0 < old.length) :
    cstr (mgUrlDecode value (old.set 0 0) true).2 = leftText value old := by
  have hset : (old.set 0 0).length = old.length := List.length_set
  unfold mgUrlDecode
  by_cases hend : (decodedPart value).2 = true ∨ old.length - 1 ≤ (decodedPart value).1.length
  · obtain ⟨rest, hrest⟩ := urlDecodeLoop_terminated (hset ▸ h : 0 < (old.set 0 0).length)
      (by rw [hset]; exact hend)
    rw [leftText_terminated hend, hrest, hset, List.take_zero, List.nil_append, cstr_append_zero,
      Nat.sub_zero]
  · obtain ⟨hmal, hlt⟩ := not_or.mp hend
    have hmal := Bool.eq_false_iff.mpr hmal
    have hlt := Nat.lt_of_not_le hlt
    rw [leftText_malformed hmal hlt, urlDecodeLoop_malformed hmal (by rw [hset]; omega),
      List.take_zero, List.nil_append, Nat.zero_add]
    split_ifs with hnil
    · obtain ⟨b, old, rfl⟩ := List.exists_cons_of_length_pos h
      rw [hnil]
      rfl
    · rw [List.drop_set_of_lt (List.length_pos_iff.mpr hnil)]

/-- What `mg_http_get_var` leaves in a buffer that holds `old`. -/
theorem cstr_mgHttpGetVar {name query : Bytes} (h0 : 0 ∉ name) (heq : 0x3d ∉ name)
    (hamp : 0x26 ∉ name) (hold : 0 < old.length) :
    cstr (mgHttpGetVar query name old).2 =
      ((queryVar name query).map (leftText · old)).getD [] := by
  rw [← getVarLoop_eq_queryVar h0 heq hamp]
  cases hvar : getVarLoop name none query with
  | none => exact mgHttpGetVar_none hvar (List.length_pos_iff.mp hold)
  | some value =>
    have hquery : query.length ≠ 0 := fun h => by
      rw [List.length_eq_zero_iff.mp h] at hvar
      cases hvar
    unfold mgHttpGetVar
    rw [if_neg hold.ne', if_neg hquery, hvar]
    exact cstr_mgUrlDecode hold

end Text

end Csrv.Mongoose
