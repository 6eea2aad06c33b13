import Mathlib.Algebra.Order.Ring.Nat
import Mathlib.Data.Nat.Log
import Mathlib.Tactic.Linarith

/-!
# Rounding to significant bits

`roundBits p n` is the natural number nearest to `n` that has at most `p` significant bits, ties
to even: what the conversion of an integer to a binary floating-point format of precision `p`
yields. Numbers that have at most `p` significant bits are kept, and the relative error is at
most `2 ^ (-p)`.
-/

namespace Rounding

/-- The spacing of the numbers with `p` significant bits around `n`. -/
def ulp (p n : ℕ) : ℕ := 2 ^ (n.log2 + 1 - p)

def roundBits (p n : ℕ) : ℕ :=
  let u := ulp p n
  let q := n / u
  let r := n % u
  if 2 * r < u ∨ (2 * r = u ∧ q % 2 = 0) then q * u else (q + 1) * u

variable {p m n : ℕ}

theorem ulp_pos (p n : ℕ) : 0 < ulp p n := Nat.two_pow_pos _

theorem roundBits_of_dvd (h : ulp p n ∣ n) : roundBits p n = n := by
  have hr : n % ulp p n = 0 := Nat.mod_eq_zero_of_dvd h
  have hu := ulp_pos p n
  simp only [roundBits, hr]
  rw [if_pos (Or.inl (by omega)), Nat.div_mul_cancel h]

/-- Short numbers are kept, at every scale. -/
theorem roundBits_mul_two_pow (hm : m < 2 ^ p) (k : ℕ) : roundBits p (m * 2 ^ k) = m * 2 ^ k := by
  apply roundBits_of_dvd
  rcases Nat.eq_zero_or_pos m with rfl | h0
  · simp
  have hlog : (m * 2 ^ k).log2 = m.log2 + k := by
    induction k with
    | zero => simp
    | succ k ih =>
      rw [pow_succ, ← Nat.mul_assoc, Nat.mul_comm, Nat.log2_two_mul (by positivity), ih]
      rfl
  have hle : m.log2 < p := (Nat.log2_lt h0.ne').mpr hm
  rw [ulp, hlog]
  exact (pow_dvd_pow 2 (by omega)).trans (Dvd.intro_left m rfl)

theorem roundBits_of_lt (h : n < 2 ^ p) : roundBits p n = n := by
  simpa using roundBits_mul_two_pow h 0

theorem roundBits_of_le (hp : 0 < p) (h : n ≤ 2 ^ p) : roundBits p n = n := by
  obtain h | rfl := Nat.lt_or_eq_of_le h
  · exact roundBits_of_lt h
  · simpa using roundBits_mul_two_pow (Nat.one_lt_two_pow hp.ne') p

/-- The spacing is small against the number, unless it is one. -/
theorem ulp_mul_le (hn : n ≠ 0) (h : ulp p n ≠ 1) : ulp p n * 2 ^ p ≤ 2 * n := by
  have hp : p < n.log2 + 1 := by
    by_contra hp
    exact h (by rw [ulp, Nat.sub_eq_zero_of_le (by omega), pow_zero])
  rw [ulp, ← pow_add, show n.log2 + 1 - p + p = n.log2 + 1 by omega, pow_succ]
  have := Nat.log2_self_le hn
  omega

theorem two_mul_sub_le :
    2 * roundBits p n ≤ 2 * n + ulp p n ∧ 2 * n ≤ 2 * roundBits p n + ulp p n := by
  have hdm := Nat.div_add_mod n (ulp p n)
  have hlt := Nat.mod_lt n (ulp_pos p n)
  rw [Nat.mul_comm] at hdm
  unfold roundBits
  dsimp only
  split_ifs with h
  · omega
  · rw [Nat.add_mul, Nat.one_mul]
    omega

/-- **Relative error.** -/
theorem roundBits_error :
    2 ^ p * roundBits p n ≤ 2 ^ p * n + n ∧ 2 ^ p * n ≤ 2 ^ p * roundBits p n + n := by
  by_cases hd : ulp p n ∣ n
  · rw [roundBits_of_dvd hd]
    omega
  have hu : ulp p n * 2 ^ p ≤ 2 * n := by
    apply ulp_mul_le
    · rintro rfl
      exact hd (dvd_zero _)
    · intro h1
      exact hd (h1 ▸ one_dvd n)
  obtain ⟨h₁, h₂⟩ := two_mul_sub_le (p := p) (n := n)
  have h₁' := Nat.mul_le_mul_left (2 ^ p) h₁
  have h₂' := Nat.mul_le_mul_left (2 ^ p) h₂
  constructor <;> nlinarith

end Rounding
