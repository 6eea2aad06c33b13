import Csrv.CString

/-!
# Query variables and percent-decoding

`mg_url_decode` writes into a destination buffer of fixed length and `mg_http_get_var` decodes
one variable of a query string into such a buffer. Both are modelled with the buffer's contents
before the call, since a failed decoding returns without terminating what it has written. A value
that decodes and fits is what the buffer holds afterwards (`mgHttpGetVar_some`).
-/

namespace Csrv.Mongoose

def mgUnhexNimble (c : UInt8) : UInt8 :=
  if 0x30 ≤ c && c ≤ 0x39 then c - 0x30
  else if 0x41 ≤ c && c ≤ 0x46 then c - 0x37
  else c - 0x57

/-- `mg_unhex` of two digits. -/
def mgUnhex (hi lo : UInt8) : UInt8 := mgUnhexNimble hi <<< 4 ||| mgUnhexNimble lo

/-- The lines of `mg_url_decode` after its loop. -/
def urlDecodeEnd (srcDone : Bool) (j : ℕ) (dst : Bytes) : ℤ × Bytes :=
  (if srcDone && j < dst.length then (j : ℤ) else -1, if j < dst.length then dst.set j 0 else dst)

/-- The loop of `mg_url_decode` on the bytes of `src` still to be read. -/
def urlDecodeLoop (isFormUrlEncoded : Bool) : Bytes → ℕ → Bytes → ℤ × Bytes
  | [], j, dst => urlDecodeEnd true j dst
  | c :: src, j, dst =>
    if j + 1 < dst.length then
      if c = 0x25 then
        match src with
        | hi :: lo :: src =>
          if isxdigit hi && isxdigit lo then
            urlDecodeLoop isFormUrlEncoded src (j + 1) (dst.set j (mgUnhex hi lo))
          else (-1, dst)
        | _ => (-1, dst)
      else if isFormUrlEncoded && c = 0x2b then
        urlDecodeLoop isFormUrlEncoded src (j + 1) (dst.set j 0x20)
      else
        urlDecodeLoop isFormUrlEncoded src (j + 1) (dst.set j c)
    else urlDecodeEnd false j dst

def mgUrlDecode (src dst : Bytes) (isFormUrlEncoded : Bool) : ℤ × Bytes :=
  urlDecodeLoop isFormUrlEncoded src 0 dst

/-- `mg_ncasecmp`; the bytes past the end of a list stand for its terminator. -/
def mgNcasecmp : Bytes → Bytes → ℕ → ℤ
  | _, _, 0 => 0
  | s1, s2, len + 1 =>
    let diff : ℤ := (tolower (s1.headD 0)).toNat - (tolower (s2.headD 0)).toNat
    if diff = 0 ∧ s1.headD 0 ≠ 0 then mgNcasecmp s1.tail s2.tail len else diff

/-- The loop of `mg_http_get_var`: the raw value of the first variable called `name`. `prev` is
the byte before `p`, `none` at the start of the query. -/
def getVarLoop (name : Bytes) : Option UInt8 → Bytes → Option Bytes
  | _, [] => none
  | prev, c :: p =>
    if name.length < (c :: p).length then
      if (prev = none ∨ prev = some 0x26) ∧ (c :: p)[name.length]? = some 0x3d ∧
          mgNcasecmp name (c :: p) name.length = 0 then
        some (((c :: p).drop (name.length + 1)).takeWhile (· ≠ 0x26))
      else getVarLoop name (some c) p
    else none

/-- `mg_http_get_var`: the return value and the destination buffer. -/
def mgHttpGetVar (buf name dst : Bytes) : ℤ × Bytes :=
  if dst.length = 0 then (-2, dst)
  else if buf.length = 0 then (-1, dst.set 0 0)
  else
    match getVarLoop name none buf with
    | none => (-4, dst.set 0 0)
    | some value =>
      let (len, dst) := mgUrlDecode value (dst.set 0 0) true
      (if len < 0 then -3 else len, dst)

/-! ## Variables and their buffers -/

/-- A form-encoded value without its encoding, if no escape is malformed. -/
def formDecode : Bytes → Option Bytes
  | [] => some []
  | c :: src =>
    if c = 0x25 then
      match src with
      | hi :: lo :: src =>
        if isxdigit hi && isxdigit lo then (formDecode src).map (mgUnhex hi lo :: ·) else none
      | _ => none
    else (formDecode src).map ((if c = 0x2b then 0x20 else c) :: ·)

section Buffers

variable {src dst buf name d : Bytes} {form : Bool} {j : ℕ}

theorem formDecode_escape {hi lo : UInt8} (h : (isxdigit hi && isxdigit lo) = true) :
    formDecode (0x25 :: hi :: lo :: src) = (formDecode src).map (mgUnhex hi lo :: ·) := by
  rw [formDecode, if_pos rfl]
  exact if_pos h

theorem formDecode_cons {c : UInt8} (h : c ≠ 0x25) :
    formDecode (c :: src) = (formDecode src).map ((if c = 0x2b then 0x20 else c) :: ·) := by
  rw [formDecode.eq_def]
  exact if_neg h

/-- The byte at the position reached becomes part of the decoded value. -/
theorem take_append_set (b : UInt8) (d : Bytes) (h : j < dst.length) :
    (dst.set j b).take (j + 1) ++ d ++ 0 :: (dst.set j b).drop (j + 1 + d.length + 1) =
      dst.take j ++ (b :: d) ++ 0 :: dst.drop (j + (b :: d).length + 1) := by
  have htake : (dst.set j b).take (j + 1) = dst.take j ++ [b] := by
    rw [List.take_add_one, List.take_set_of_le le_rfl, List.getElem?_set_self h]
    rfl
  rw [htake, List.drop_set_of_lt (by omega), List.length_cons,
    show j + 1 + d.length + 1 = j + (d.length + 1) + 1 by omega]
  simp

/-- Decoding a value that fits leaves it in the buffer, terminated. -/
theorem urlDecodeLoop_formDecode (h : formDecode src = some d) (hfit : j + d.length < dst.length) :
    (urlDecodeLoop true src j dst).2 = dst.take j ++ d ++ 0 :: dst.drop (j + d.length + 1) := by
  fun_induction urlDecodeLoop true src j dst generalizing d with
  | case1 j dst =>
    obtain rfl := Option.some.inj h
    simp only [List.length_nil, Nat.add_zero] at hfit ⊢
    simp [urlDecodeEnd, hfit, List.set_eq_take_append_cons_drop]
  | case2 j dst hlt hi lo src hx ih =>
    rw [formDecode_escape hx] at h
    obtain ⟨d, hd, rfl⟩ := Option.map_eq_some_iff.mp h
    rw [List.length_cons] at hfit
    rw [ih hd (by rw [List.length_set]; omega), take_append_set _ _ (by omega)]
  | case3 j dst hlt hi lo src hx => simp [formDecode, hx] at h
  | case4 src j dst hlt hne =>
    match src, hne with
    | [], _ => simp [formDecode] at h
    | [_], _ => simp [formDecode] at h
    | hi :: lo :: src, hne => exact absurd rfl (hne hi lo src)
  | case5 c src j dst hlt hc hplus ih =>
    rw [formDecode_cons hc] at h
    obtain ⟨d, hd, rfl⟩ := Option.map_eq_some_iff.mp h
    rw [List.length_cons] at hfit
    rw [if_pos (by simpa using hplus), ih hd (by rw [List.length_set]; omega),
      take_append_set _ _ (by omega)]
  | case6 c src j dst hlt hc hplus ih =>
    rw [formDecode_cons hc] at h
    obtain ⟨d, hd, rfl⟩ := Option.map_eq_some_iff.mp h
    rw [List.length_cons] at hfit
    rw [if_neg (by simpa using hplus), ih hd (by rw [List.length_set]; omega),
      take_append_set _ _ (by omega)]
  | case7 c src j dst hlt =>
    -- the value would not fit
    have hd : d = [] := List.length_eq_zero_iff.mp (by omega)
    subst hd
    by_cases hc : c = 0x25
    · subst hc
      match src with
      | [] => simp [formDecode] at h
      | [_] => simp [formDecode] at h
      | hi :: lo :: src =>
        by_cases hx : (isxdigit hi && isxdigit lo) = true
        · rw [formDecode_escape hx] at h
          simp at h
        · simp [formDecode, hx] at h
    · rw [formDecode_cons hc] at h
      simp at h

theorem length_urlDecodeEnd {b : Bool} : (urlDecodeEnd b j dst).2.length = dst.length := by
  show (if j < dst.length then dst.set j 0 else dst).length = _
  split_ifs
  · exact List.length_set
  · rfl

theorem length_urlDecodeLoop : (urlDecodeLoop form src j dst).2.length = dst.length := by
  fun_induction urlDecodeLoop form src j dst with
  | case1 j dst => exact length_urlDecodeEnd
  | case2 j dst hlt hi lo src hx ih => exact ih.trans List.length_set
  | case3 j dst hlt hi lo src hx => rfl
  | case4 src j dst hlt hne => rfl
  | case5 c src j dst hlt hc hplus ih => exact ih.trans List.length_set
  | case6 c src j dst hlt hc hplus ih => exact ih.trans List.length_set
  | case7 c src j dst hlt => exact length_urlDecodeEnd

theorem getLast?_set {b : UInt8} (h : dst.getLast? = some 0) (hj : j + 1 < dst.length ∨ b = 0) :
    (dst.set j b).getLast? = some 0 := by
  rw [List.getLast?_eq_getElem?, List.length_set] at *
  rw [List.getElem?_set]
  split_ifs with he hlt
  · rcases hj with hj | rfl
    · omega
    · rfl
  · rw [List.getElem?_eq_none (by omega)] at h
    cases h
  · exact h

theorem urlDecodeEnd_last {b : Bool} (h : dst.getLast? = some 0) :
    (urlDecodeEnd b j dst).2.getLast? = some 0 := by
  show (if j < dst.length then dst.set j 0 else dst).getLast? = some 0
  split_ifs
  · exact getLast?_set h (.inr rfl)
  · exact h

/-- The last byte is written only to terminate. -/
theorem urlDecodeLoop_last (h : dst.getLast? = some 0) :
    (urlDecodeLoop form src j dst).2.getLast? = some 0 := by
  fun_induction urlDecodeLoop form src j dst with
  | case1 j dst => exact urlDecodeEnd_last h
  | case2 j dst hlt hi lo src hx ih => exact ih (getLast?_set h (.inl hlt))
  | case3 j dst hlt hi lo src hx => exact h
  | case4 src j dst hlt hne => exact h
  | case5 c src j dst hlt hc hplus ih => exact ih (getLast?_set h (.inl hlt))
  | case6 c src j dst hlt hc hplus ih => exact ih (getLast?_set h (.inl hlt))
  | case7 c src j dst hlt => exact urlDecodeEnd_last h

theorem length_mgHttpGetVar : (mgHttpGetVar buf name dst).2.length = dst.length := by
  unfold mgHttpGetVar
  split_ifs
  · rfl
  · exact List.length_set
  · cases getVarLoop name none buf with
    | none => exact List.length_set
    | some value => exact length_urlDecodeLoop.trans List.length_set

theorem mgHttpGetVar_last (h : dst.getLast? = some 0) :
    (mgHttpGetVar buf name dst).2.getLast? = some 0 := by
  unfold mgHttpGetVar
  split_ifs
  · exact h
  · exact getLast?_set h (.inr rfl)
  · cases getVarLoop name none buf with
    | none => exact getLast?_set h (.inr rfl)
    | some value => exact urlDecodeLoop_last (getLast?_set h (.inr rfl))

/-- A variable that is missing. -/
theorem mgHttpGetVar_none (h : getVarLoop name none buf = none) (hd : dst ≠ []) :
    cstr (mgHttpGetVar buf name dst).2 = [] := by
  obtain ⟨c, dst, rfl⟩ := List.exists_cons_of_ne_nil hd
  unfold mgHttpGetVar
  rw [if_neg (by simp), h]
  split_ifs <;> rfl

/-- A variable whose value fits. -/
theorem mgHttpGetVar_some {value : Bytes} (h : getVarLoop name none buf = some value)
    (hd : formDecode value = some d) (hfit : d.length < dst.length) :
    cstr (mgHttpGetVar buf name dst).2 = cstr d := by
  have hbuf : buf.length ≠ 0 := by
    intro h0
    rw [List.length_eq_zero_iff.mp h0] at h
    cases h
  unfold mgHttpGetVar
  rw [if_neg (by omega), if_neg hbuf, h]
  show cstr (urlDecodeLoop true value 0 (dst.set 0 0)).2 = _
  rw [urlDecodeLoop_formDecode hd (by rw [List.length_set]; omega), List.take_zero, List.nil_append]
  exact cstr_append_zero d _

/-! ### The first byte -/

theorem head?_set_of_pos {b : UInt8} (hj : 0 < j) : (dst.set j b).head? = dst.head? := by
  obtain ⟨j, rfl⟩ := Nat.exists_eq_succ_of_ne_zero hj.ne'
  cases dst <;> rfl

theorem urlDecodeEnd_head {b : Bool} (hj : 0 < j) :
    (urlDecodeEnd b j dst).2.head? = dst.head? := by
  show (if j < dst.length then dst.set j 0 else dst).head? = _
  split_ifs
  · exact head?_set_of_pos hj
  · rfl

theorem urlDecodeLoop_head (hj : 0 < j) : (urlDecodeLoop form src j dst).2.head? = dst.head? := by
  fun_induction urlDecodeLoop form src j dst with
  | case1 j dst => exact urlDecodeEnd_head hj
  | case2 j dst hlt hi lo src hx ih => exact (ih (Nat.succ_pos j)).trans (head?_set_of_pos hj)
  | case3 j dst hlt hi lo src hx => rfl
  | case4 src j dst hlt hne => rfl
  | case5 c src j dst hlt hc hplus ih => exact (ih (Nat.succ_pos j)).trans (head?_set_of_pos hj)
  | case6 c src j dst hlt hc hplus ih => exact (ih (Nat.succ_pos j)).trans (head?_set_of_pos hj)
  | case7 c src j dst hlt => exact urlDecodeEnd_head hj

/-- The first byte of the result does not depend on what the buffer has held. -/
theorem mgHttpGetVar_head {c c' : UInt8} {t t' : Bytes} (h : t.length = t'.length) (ht : t ≠ []) :
    (mgHttpGetVar buf name (c :: t)).2.head? = (mgHttpGetVar buf name (c' :: t')).2.head? := by
  have hlt : 0 + 1 < (0 :: t).length := by
    rw [List.length_cons]
    have := List.length_pos_iff.mpr ht
    omega
  have hlt' : 0 + 1 < (0 :: t').length := by rw [List.length_cons, ← h, ← List.length_cons]; exact hlt
  unfold mgHttpGetVar
  rw [if_neg (show (c :: t).length ≠ 0 by simp), if_neg (show (c' :: t').length ≠ 0 by simp)]
  split_ifs
  · rfl
  cases getVarLoop name none buf with
  | none => rfl
  | some value =>
    show (urlDecodeLoop true value 0 (0 :: t)).2.head? = (urlDecodeLoop true value 0 (0 :: t')).2.head?
    cases value with
    | nil => rfl
    | cons d src =>
      unfold urlDecodeLoop
      rw [if_pos hlt, if_pos hlt']
      split_ifs
      · match src with
        | [] => rfl
        | [_] => rfl
        | hi :: lo :: src =>
          by_cases hx : (isxdigit hi && isxdigit lo) = true
          · simp only [hx, if_true, urlDecodeLoop_head (Nat.succ_pos 0)]
            rfl
          · simp only [hx]
            rfl
      · rw [urlDecodeLoop_head (Nat.succ_pos 0), urlDecodeLoop_head (Nat.succ_pos 0)]
        rfl
      · rw [urlDecodeLoop_head (Nat.succ_pos 0), urlDecodeLoop_head (Nat.succ_pos 0)]
        rfl

end Buffers

end Csrv.Mongoose
