import Mathlib.Algebra.Order.Ring.Nat
import Mathlib.Data.List.Basic

/-!
# Base64

The encoding of RFC 4648 with padding, and the forgiving decoding of web browsers: it ignores ASCII
whitespace, needs no padding, and drops the bits that are left over. Decoding undoes encoding
(`decode_encode`), and does not undo it any more when characters of the alphabet are lost
(`decode_ne_of_lost`).
-/

namespace Base64

/-- The character for six bits. -/
def char (n : ℕ) : UInt8 :=
  UInt8.ofNat (if n < 26 then 0x41 + n else if n < 52 then 0x61 + (n - 26)
    else if n < 62 then 0x30 + (n - 52) else if n = 62 then 0x2b else 0x2f)

/-- The six bits of a character of the alphabet. -/
def sextet (c : UInt8) : Option ℕ :=
  if 0x41 ≤ c ∧ c ≤ 0x5a then some (c.toNat - 0x41)
  else if 0x61 ≤ c ∧ c ≤ 0x7a then some (c.toNat - 0x61 + 26)
  else if 0x30 ≤ c ∧ c ≤ 0x39 then some (c.toNat - 0x30 + 52)
  else if c = 0x2b then some 62
  else if c = 0x2f then some 63
  else none

/-- The bits of bytes, six by six and filled up with zeros. -/
def sextets : List UInt8 → List ℕ
  | x :: y :: z :: s =>
    x.toNat / 4 :: (x.toNat % 4 * 16 + y.toNat / 16) :: (y.toNat % 16 * 4 + z.toNat / 64) ::
      z.toNat % 64 :: sextets s
  | [x, y] => [x.toNat / 4, x.toNat % 4 * 16 + y.toNat / 16, y.toNat % 16 * 4]
  | [x] => [x.toNat / 4, x.toNat % 4 * 16]
  | [] => []

/-- The bits of sextets, eight by eight and without those left over. -/
def octets : List ℕ → List UInt8
  | a :: b :: c :: d :: t =>
    UInt8.ofNat (a * 4 + b / 16) :: UInt8.ofNat (b % 16 * 16 + c / 4) ::
      UInt8.ofNat (c % 4 * 64 + d) :: octets t
  | [a, b, c] => [UInt8.ofNat (a * 4 + b / 16), UInt8.ofNat (b % 16 * 16 + c / 4)]
  | [a, b] => [UInt8.ofNat (a * 4 + b / 16)]
  | _ => []

def encode (s : List UInt8) : List UInt8 :=
  (sextets s).map char ++ List.replicate ((3 - s.length % 3) % 3) 0x3d

def isWhitespace (c : UInt8) : Bool :=
  c == 0x09 || c == 0x0a || c == 0x0c || c == 0x0d || c == 0x20

/-- One or two padding characters at the end are removed. -/
def stripPadding (data : List UInt8) : List UInt8 :=
  if data.getLast? = some 0x3d then
    if data.dropLast.getLast? = some 0x3d then data.dropLast.dropLast else data.dropLast
  else data

def decode (data : List UInt8) : Option (List UInt8) :=
  let data := data.filter (!isWhitespace ·)
  let data := if data.length % 4 = 0 then stripPadding data else data
  if data.length % 4 = 1 then none else (data.mapM sextet).map octets

/-- Whitespace does not matter. -/
theorem decode_congr {s t : List UInt8}
    (h : s.filter (!isWhitespace ·) = t.filter (!isWhitespace ·)) : decode s = decode t := by
  unfold decode
  rw [h]

/-! ## Sextets -/

section Sextets

variable {s data t : List UInt8} {n : ℕ}

theorem sextet_char (h : n < 64) : sextet (char n) = some n := by
  have hall : ∀ n : Fin 64, sextet (char n) = some n.val := by decide +kernel
  exact hall ⟨n, h⟩

theorem sextets_lt : ∀ n ∈ sextets s, n < 64 := by
  fun_induction sextets s with
  | case1 x y z s ih =>
    have hx := x.toNat_lt
    have hy := y.toNat_lt
    have hz := z.toNat_lt
    simp only [List.forall_mem_cons]
    exact ⟨by omega, by omega, by omega, by omega, ih⟩
  | case2 x y =>
    have hx := x.toNat_lt
    have hy := y.toNat_lt
    simp only [List.forall_mem_cons]
    exact ⟨by omega, by omega, by omega, fun n h => absurd h List.not_mem_nil⟩
  | case3 x =>
    have hx := x.toNat_lt
    simp only [List.forall_mem_cons]
    exact ⟨by omega, by omega, fun n h => absurd h List.not_mem_nil⟩
  | case4 => exact fun n h => absurd h List.not_mem_nil

theorem ofNat_eq {x : UInt8} (h : n = x.toNat) : UInt8.ofNat n = x := by rw [h, UInt8.ofNat_toNat]

theorem octets_sextets : octets (sextets s) = s := by
  fun_induction sextets s with
  | case1 x y z s ih =>
    have hx := x.toNat_lt
    have hy := y.toNat_lt
    have hz := z.toNat_lt
    rw [octets, ih, ofNat_eq (x := x) (by omega), ofNat_eq (x := y) (by omega),
      ofNat_eq (x := z) (by omega)]
  | case2 x y =>
    have hx := x.toNat_lt
    have hy := y.toNat_lt
    rw [octets, ofNat_eq (x := x) (by omega), ofNat_eq (x := y) (by omega)]
  | case3 x =>
    have hx := x.toNat_lt
    rw [octets, ofNat_eq (x := x) (by omega)]
  | case4 => rfl

/-- How many sextets there are, and how long the padding is. -/
theorem length_sextets : 4 * s.length ≤ 3 * (sextets s).length ∧
    3 * (sextets s).length < 4 * s.length + 3 ∧
    ((sextets s).length + (3 - s.length % 3) % 3) % 4 = 0 := by
  fun_induction sextets s with
  | case1 x y z s ih =>
    simp only [List.length_cons]
    omega
  | case2 x y => simp
  | case3 x => simp
  | case4 => simp

/-- Fewer than three characters have none at the end of a group. -/
theorem not_exists_of_short (h : s.length < 3) :
    ¬ ∃ i, i % 3 = 2 ∧ (s[i]? = some 0x3e ∨ s[i]? = some 0x7e) := by
  rintro ⟨i, hi, hm⟩
  rw [List.getElem?_eq_none (by omega)] at hm
  rcases hm with hm | hm
  · cases hm
  · cases hm

/-- Where ASCII characters give the sextet 62. -/
theorem sextet_mem_iff (h : ∀ c ∈ s, c < 0x80) :
    62 ∈ sextets s ↔ ∃ i, i % 3 = 2 ∧ (s[i]? = some 0x3e ∨ s[i]? = some 0x7e) := by
  fun_induction sextets s with
  | case1 x y z s ih =>
    have hx : x.toNat < 0x80 := h x (by simp)
    have hy : y.toNat < 0x80 := h y (by simp)
    have hz : z.toNat < 0x80 := h z (by simp)
    have hlast : 62 = z.toNat % 64 ↔ z = 0x3e ∨ z = 0x7e := by
      rw [← UInt8.toNat_inj, ← UInt8.toNat_inj]
      have h3e : (0x3e : UInt8).toNat = 62 := rfl
      have h7e : (0x7e : UInt8).toNat = 126 := rfl
      omega
    simp only [List.mem_cons, ih fun c hc => h c (by simp [hc]), hlast]
    constructor
    · rintro (hm | hm | hm | hm | ⟨i, hi, hm⟩)
      · omega
      · omega
      · omega
      · exact ⟨2, rfl, by simpa using hm⟩
      · exact ⟨i + 3, by omega, by simpa using hm⟩
    · rintro ⟨i, hi, hm⟩
      obtain rfl | hlt := Nat.eq_or_lt_of_le (by omega : 2 ≤ i)
      · exact .inr (.inr (.inr (.inl (by simpa using hm))))
      · obtain ⟨j, rfl⟩ := Nat.exists_eq_add_of_lt hlt
        refine .inr (.inr (.inr (.inr ⟨j, by omega, ?_⟩)))
        rw [show 2 + j + 1 = j + 3 by omega] at hm
        simpa using hm
  | case2 x y =>
    have hx : x.toNat < 0x80 := h x (by simp)
    have hy : y.toNat < 0x80 := h y (by simp)
    refine iff_of_false ?_ (not_exists_of_short (by simp))
    simp only [List.mem_cons, List.not_mem_nil, or_false]
    omega
  | case3 x =>
    have hx : x.toNat < 0x80 := h x (by simp)
    refine iff_of_false ?_ (not_exists_of_short (by simp))
    simp only [List.mem_cons, List.not_mem_nil, or_false]
    omega
  | case4 => simp

theorem length_octets (l : List ℕ) : (octets l).length = 3 * l.length / 4 := by
  fun_induction octets l with
  | case1 a b c d t ih =>
    simp only [List.length_cons, ih]
    omega
  | case2 a b c => simp
  | case3 a b => simp
  | case4 l h₁ h₂ h₃ =>
    rcases l with _ | ⟨a, _ | ⟨b, _ | ⟨c, _ | ⟨d, t⟩⟩⟩⟩
    · simp
    · simp
    · exact absurd rfl (h₃ a b)
    · exact absurd rfl (h₂ a b c)
    · exact absurd rfl (h₁ a b c d t)

end Sextets

/-! ## Characters -/

section Chars

variable {s data t : List UInt8} {c : UInt8} {n : ℕ}

theorem char_ne (h : n < 64) (hc : sextet c = none) : char n ≠ c := by
  rintro rfl
  rw [sextet_char h] at hc
  cases hc

theorem mapM_sextet {l : List ℕ} (h : ∀ n ∈ l, n < 64) : (l.map char).mapM sextet = some l := by
  induction l with
  | nil => rfl
  | cons n l ih =>
    rw [List.map_cons, List.mapM_cons, sextet_char (h n List.mem_cons_self),
      ih fun m hm => h m (List.mem_cons_of_mem _ hm)]
    rfl

theorem sextet_of_isWhitespace (h : isWhitespace c = true) : sextet c = none ∧ c ≠ 0x3d := by
  unfold isWhitespace at h
  simp only [Bool.or_eq_true, beq_iff_eq] at h
  rcases h with (((rfl | rfl) | rfl) | rfl) | rfl <;> decide

theorem mem_encode (h : c ∈ encode s) : (∃ n ∈ sextets s, char n = c) ∨ c = 0x3d := by
  rcases List.mem_append.mp h with h | h
  · exact .inl (List.mem_map.mp h)
  · exact .inr (List.eq_of_mem_replicate h)

/-- What is written is of the alphabet, or padding. -/
theorem sextet_of_mem_encode (h : c ∈ encode s) : (sextet c).isSome = true ∨ c = 0x3d := by
  refine (mem_encode h).imp_left ?_
  rintro ⟨n, hn, rfl⟩
  rw [sextet_char (sextets_lt n hn)]
  rfl

theorem filter_encode : (encode s).filter (!isWhitespace ·) = encode s := by
  refine List.filter_eq_self.mpr fun c hc => ?_
  by_contra hw
  obtain ⟨hnone, hpad⟩ := sextet_of_isWhitespace (by simpa using hw : isWhitespace c = true)
  rcases sextet_of_mem_encode hc with h | h
  · rw [hnone] at h
    cases h
  · exact hpad h

theorem length_encode : (encode s).length % 4 = 0 := by
  unfold encode
  rw [List.length_append, List.length_map, List.length_replicate]
  exact length_sextets.2.2

theorem getLast?_chars {l : List ℕ} (h : ∀ n ∈ l, n < 64) : (l.map char).getLast? ≠ some 0x3d := by
  intro hlast
  obtain ⟨n, hn, he⟩ := List.mem_map.mp (List.mem_of_getLast? hlast)
  exact char_ne (h n hn) (by decide) he

theorem stripPadding_encode : stripPadding (encode s) = (sextets s).map char := by
  have hlast := getLast?_chars (sextets_lt (s := s))
  have hpad : (3 - s.length % 3) % 3 = 0 ∨ (3 - s.length % 3) % 3 = 1 ∨
      (3 - s.length % 3) % 3 = 2 := by
    omega
  unfold stripPadding encode
  generalize (sextets s).map char = w at hlast ⊢
  rcases hpad with hpad | hpad | hpad <;> rw [hpad]
  · simp [hlast]
  · simp [hlast, List.replicate]
  · simp [List.replicate, List.getLast?_append]

/-- **Round trip.** -/
theorem decode_encode : decode (encode s) = some s := by
  unfold decode
  rw [filter_encode]
  simp only [length_encode, if_true, stripPadding_encode]
  rw [if_neg, mapM_sextet sextets_lt, Option.map_some, octets_sextets]
  have := @length_sextets s
  rw [List.length_map]
  omega

/-- Where the text of ASCII characters has a `+`: they are `>` or `~` at the end of a group. -/
theorem plus_mem_encode_iff (h : ∀ c ∈ s, c < 0x80) :
    0x2b ∈ encode s ↔ ∃ i, i % 3 = 2 ∧ (s[i]? = some 0x3e ∨ s[i]? = some 0x7e) := by
  rw [← sextet_mem_iff h]
  constructor
  · intro hmem
    rcases mem_encode hmem with ⟨n, hn, hc⟩ | hc
    · have hs := sextet_char (sextets_lt n hn)
      rw [hc] at hs
      exact Option.some.inj (hs.symm.trans rfl : some n = some 62) ▸ hn
    · cases hc
  · exact fun hmem => List.mem_append_left _ (List.mem_map.mpr ⟨62, hmem, rfl⟩)

/-! ## Lost characters -/

theorem length_mapM {l : List ℕ} (h : data.mapM sextet = some l) :
    l.length = data.countP fun c => (sextet c).isSome := by
  induction data generalizing l with
  | nil =>
    cases h
    rfl
  | cons c data ih =>
    rw [List.mapM_cons] at h
    obtain ⟨n, hn, h⟩ := Option.bind_eq_some_iff.mp h
    obtain ⟨m, hm, h⟩ := Option.bind_eq_some_iff.mp h
    cases h
    rw [List.length_cons, ih hm, List.countP_cons_of_pos (by rw [hn]; rfl)]

theorem stripPadding_sublist : (stripPadding data).Sublist data := by
  unfold stripPadding
  split_ifs
  · exact (List.dropLast_sublist _).trans (List.dropLast_sublist _)
  · exact List.dropLast_sublist _
  · exact List.Sublist.refl _

/-- What is decoded are characters of the text. -/
theorem exists_sublist_of_decode (h : decode data = some t) :
    ∃ (d : List UInt8) (l : List ℕ), d.Sublist data ∧ d.mapM sextet = some l ∧ octets l = t := by
  have hfilter : (data.filter (!isWhitespace ·)).Sublist data := List.filter_sublist
  unfold decode at h
  dsimp only at h
  split_ifs at h
  · obtain ⟨l, hl, ht⟩ := Option.map_eq_some_iff.mp h
    exact ⟨_, l, stripPadding_sublist.trans hfilter, hl, ht⟩
  · obtain ⟨l, hl, ht⟩ := Option.map_eq_some_iff.mp h
    exact ⟨_, l, hfilter, hl, ht⟩

/-- What is decoded is no longer than the characters of the alphabet allow. -/
theorem length_decode (h : decode data = some t) :
    4 * t.length ≤ 3 * data.countP fun c => (sextet c).isSome := by
  obtain ⟨d, l, hd, hl, rfl⟩ := exists_sublist_of_decode h
  have hcount : d.countP (fun c => (sextet c).isSome) ≤ data.countP fun c => (sextet c).isSome :=
    hd.countP_le
  rw [length_octets, length_mapM hl]
  omega

theorem countP_encode : ((encode s).countP fun c => (sextet c).isSome) = (sextets s).length := by
  have hchars := length_mapM (mapM_sextet (sextets_lt (s := s)))
  have hpad : (List.replicate ((3 - s.length % 3) % 3) (0x3d : UInt8)).countP
      (fun c => (sextet c).isSome) = 0 := by
    rw [List.countP_eq_zero]
    intro c hc
    rw [List.eq_of_mem_replicate hc]
    decide
  rw [encode, List.countP_append, ← hchars, hpad]
  rfl

/-- Without some character of the alphabet a text is not decoded to what was encoded. -/
theorem decode_ne_of_lost (hc : (sextet c).isSome = true) (hmem : c ∈ encode s) :
    decode ((encode s).filter (· ≠ c)) ≠ some s := by
  intro h
  have hlen := length_decode h
  have hlost : (((encode s).filter (· ≠ c)).countP fun c => (sextet c).isSome) <
      (encode s).countP fun c => (sextet c).isSome := by
    have hpos : 0 < ((encode s).filter fun b => !decide (b ≠ c)).countP
        fun c => (sextet c).isSome :=
      List.countP_pos_iff.mpr ⟨c, List.mem_filter.mpr ⟨hmem, by simp⟩, hc⟩
    rw [List.countP_eq_countP_filter_add (encode s) _ (· ≠ c)]
    omega
  have hsextets := (length_sextets (s := s)).2.1
  rw [countP_encode] at hlost
  omega

end Chars

end Base64
