import Csrv.Mongoose.Static

/-!
# Which paths are templates

`mg_globmatch` for the pattern of `a.c`. It reads a number sign in the path as a literal of the
pattern and forgets where it would have to go on, and it goes back behind a slash only while it
has not matched anything of `.shtml`.

1. `verdict` says what comes of a path, from one start to the next; `globLoop_verdict` and
   `globLoop_of_none` connect it to the loop.
2. `template_iff`: a path is a template iff it ends in `.shtml` and none of its directories ends
   in a part of it.
3. `serveDir_hangs_iff`: the match does not end for most of the other paths with a number sign,
   and neither does the request.
-/

namespace Csrv.Mongoose

/-! ## Common parts -/

/-- The length of the longest common prefix. -/
def common : Bytes → Bytes → ℕ
  | a :: s, b :: t => if a = b then common s t + 1 else 0
  | _, _ => 0

section Common

variable {s t : Bytes} {x : ℕ}

theorem common_le (s t : Bytes) : common s t ≤ s.length ∧ common s t ≤ t.length := by
  induction s generalizing t with
  | nil => exact ⟨Nat.zero_le _, Nat.zero_le _⟩
  | cons a s ih =>
    cases t with
    | nil => exact ⟨Nat.zero_le _, Nat.zero_le _⟩
    | cons b t =>
      have := ih t
      rw [common]
      simp only [List.length_cons]
      split_ifs
      · omega
      · omega

theorem getElem?_of_lt_common (h : x < common s t) : s[x]? = t[x]? := by
  induction s generalizing t x with
  | nil => exact absurd h (Nat.not_lt_zero x)
  | cons a s ih =>
    cases t with
    | nil => exact absurd h (Nat.not_lt_zero x)
    | cons b t =>
      rw [common] at h
      split_ifs at h with hab
      · cases x with
        | zero => exact congrArg some hab
        | succ x =>
          rw [List.getElem?_cons_succ, List.getElem?_cons_succ]
          exact ih (Nat.lt_of_succ_lt_succ h)
      · exact absurd h (Nat.not_lt_zero x)

/-- Behind the common prefix the two differ, unless one ends. -/
theorem getElem?_common (hs : common s t < s.length) (ht : common s t < t.length) :
    s[common s t]? ≠ t[common s t]? := by
  induction s generalizing t with
  | nil => exact absurd hs (Nat.not_lt_zero _)
  | cons a s ih =>
    cases t with
    | nil => exact absurd ht (Nat.not_lt_zero _)
    | cons b t =>
      by_cases hab : a = b
      · rw [common, if_pos hab] at hs ht ⊢
        rw [List.getElem?_cons_succ, List.getElem?_cons_succ]
        exact ih (Nat.lt_of_succ_lt_succ hs) (Nat.lt_of_succ_lt_succ ht)
      · rw [common, if_neg hab]
        exact fun h => hab (Option.some.inj h)

theorem take_common (s t : Bytes) : s.take (common s t) = t.take (common s t) := by
  refine List.ext_getElem? fun x => ?_
  rw [List.getElem?_take, List.getElem?_take]
  split_ifs with hx
  · exact getElem?_of_lt_common hx
  · rfl

theorem eq_of_common (hs : common s t = s.length) (ht : common s t = t.length) : s = t := by
  have h := take_common s t
  rwa [List.take_of_length_le hs.ge, List.take_of_length_le ht.ge] at h

theorem common_append (q s t : Bytes) : common (q ++ s) (q ++ t) = q.length + common s t := by
  induction q with
  | nil => exact (Nat.zero_add _).symm
  | cons a q ih =>
    rw [List.cons_append, List.cons_append, common, if_pos rfl, ih, List.length_cons]
    omega

theorem common_self (s : Bytes) : common s s = s.length := by
  induction s with
  | nil => rfl
  | cons a s ih => rw [common, if_pos rfl, ih, List.length_cons]

end Common

/-! ## The verdict -/

/-- Part of `.shtml` and then a slash: the match is given up. -/
def Blocked (s : Bytes) : Prop :=
  0 < common (ascii ".shtml") s ∧ s[common (ascii ".shtml") s]? = some 0x2f

instance (s : Bytes) : Decidable (Blocked s) := inferInstanceAs (Decidable (_ ∧ _))

/-- A directory on the path whose name ends in part of `.shtml`. -/
def Broken (p : Bytes) : Prop :=
  ∃ q, q ≠ [] ∧ q <+: ascii ".shtml" ∧ q ++ [0x2f] <:+: p

theorem blocked_iff {s : Bytes} :
    Blocked s ↔ ∃ q, q ≠ [] ∧ q <+: ascii ".shtml" ∧ q ++ [0x2f] <+: s := by
  constructor
  · rintro ⟨hpos, hslash⟩
    have hlt : common (ascii ".shtml") s < s.length := (List.getElem?_eq_some_iff.mp hslash).1
    refine ⟨s.take (common (ascii ".shtml") s), fun h => ?_, ?_, ?_⟩
    · have := congrArg List.length h
      rw [List.length_take, List.length_nil] at this
      omega
    · rw [← take_common]
      exact List.take_prefix _ _
    · have htake : s.take (common (ascii ".shtml") s + 1) = _ := List.take_add_one
      rw [hslash, Option.toList_some] at htake
      exact htake ▸ List.take_prefix _ _
  · rintro ⟨q, hq, ⟨r, hr⟩, u, hu⟩
    have hcommon : common (ascii ".shtml") s = q.length := by
      rw [← hr, ← hu, List.append_assoc, common_append]
      cases r with
      | nil => rfl
      | cons c r =>
        have hc : c ∈ ascii ".shtml" := hr ▸ List.mem_append_right q List.mem_cons_self
        rw [List.singleton_append, common, if_neg, Nat.add_zero]
        rintro rfl
        exact absurd hc (by decide +kernel)
    refine ⟨hcommon ▸ List.length_pos_iff.mpr hq, ?_⟩
    rw [hcommon, ← hu, List.append_assoc, List.getElem?_append_right le_rfl, Nat.sub_self]
    rfl

theorem broken_iff {p : Bytes} : Broken p ↔ ∃ t, t <:+ p ∧ Blocked t := by
  simp only [Broken, List.infix_iff_prefix_suffix, blocked_iff]
  constructor
  · rintro ⟨q, hq, hpre, t, ht, hsuf⟩
    exact ⟨t, hsuf, q, hq, hpre, ht⟩
  · rintro ⟨t, hsuf, q, hq, hpre, ht⟩
    exact ⟨q, hq, hpre, t, ht, hsuf⟩

theorem broken_nil : ¬Broken [] := by
  rintro ⟨q, -, -, hin⟩
  have := List.infix_nil.mp hin
  exact absurd this (List.append_ne_nil_of_right_ne_nil q (List.cons_ne_nil _ _))

theorem broken_cons {c : UInt8} {p : Bytes} : Broken (c :: p) ↔ Blocked (c :: p) ∨ Broken p := by
  rw [broken_iff, broken_iff]
  constructor
  · rintro ⟨t, hsuf, ht⟩
    obtain rfl | hsuf := List.suffix_cons_iff.mp hsuf
    · exact .inl ht
    · exact .inr ⟨t, hsuf, ht⟩
  · rintro (h | ⟨t, hsuf, ht⟩)
    · exact ⟨_, List.suffix_rfl, h⟩
    · exact ⟨t, hsuf.trans (List.suffix_cons c p), ht⟩

/-- What follows does not block, if no slash in it comes behind letters of `.shtml` only. -/
theorem blocked_append {t u : Bytes}
    (hu : ∀ q, q ++ [0x2f] <+: u → ∃ c ∈ q, c ∉ ascii ".shtml") :
    Blocked (t ++ u) ↔ Blocked t := by
  rw [blocked_iff, blocked_iff]
  constructor
  · rintro ⟨q, hq, hpre, ht⟩
    refine ⟨q, hq, hpre, ?_⟩
    obtain ht | ⟨v, hv⟩ := List.prefix_or_prefix_of_prefix ht (List.prefix_append t u)
    · exact ht
    -- the slash is in what follows
    rw [← hv] at ht
    obtain rfl | ⟨v', c, rfl⟩ := v.eq_nil_or_concat
    · exact (List.append_nil t ▸ hv) ▸ List.prefix_rfl
    · rw [List.concat_eq_append, ← List.append_assoc] at hv
      obtain ⟨rfl, hc⟩ := List.append_inj' hv rfl
      rw [List.concat_eq_append, hc, List.prefix_append_right_inj] at ht
      obtain ⟨c, hc, hnot⟩ := hu v' ht
      exact absurd (hpre.subset (List.mem_append_right t hc)) hnot
  · rintro ⟨q, hq, hpre, ht⟩
    exact ⟨q, hq, hpre, ht.trans (List.prefix_append t u)⟩

/-- What the match says of the rest of a path; `none` is a match that does not end. -/
def verdict : Bool → Bytes → Option Bool
  | _, [] => some false
  | first, c :: s =>
    if c = 0x23 then
      if s = ascii ".shtml" then some true else if first ∨ Blocked s then some false else none
    else if c :: s = ascii ".shtml" then some true
    else if Blocked (c :: s) then some false
    else verdict false s

/-! ## The loop -/

theorem globLoop_mono {s1 s2 : Bytes} {fuel i j ni nj : ℕ} {b : Bool}
    (h : globLoop s1 s2 fuel i j ni nj = some b) (k : ℕ) :
    globLoop s1 s2 (fuel + k) i j ni nj = some b := by
  induction fuel generalizing i j ni nj with
  | zero => cases h
  | succ fuel ih =>
    rw [Nat.add_right_comm]
    unfold globLoop at h ⊢
    split_ifs at h ⊢
    · exact ih h
    · exact ih h
    · exact ih h
    · exact h
    · exact h

/-- A loop that comes back to where it was does not end. -/
theorem globLoop_of_cycle {s1 s2 : Bytes} {n i j ni nj : ℕ} (hn : 0 < n)
    (h : ∀ fuel, globLoop s1 s2 (fuel + n) i j ni nj = globLoop s1 s2 fuel i j ni nj) (fuel : ℕ) :
    globLoop s1 s2 fuel i j ni nj = none := by
  have hround : ∀ k, globLoop s1 s2 (k * n) i j ni nj = none := by
    intro k
    induction k with
    | zero => rw [Nat.zero_mul]; rfl
    | succ k ih => rw [Nat.succ_mul, h, ih]
  cases hb : globLoop s1 s2 fuel i j ni nj with
  | none => rfl
  | some b =>
    obtain ⟨k, hk⟩ := Nat.exists_eq_add_of_le (Nat.le_mul_of_pos_right fuel hn)
    have := globLoop_mono hb k
    rw [← hk, hround] at this
    cases this

section Shtml

variable {path : Bytes} {k nj : ℕ}

theorem length_shtmlPattern : shtmlPattern.length = 7 := by decide

/-- What is common with `.shtml` is matched. -/
theorem globLoop_literal {m : ℕ} (hm : m ≤ common (ascii ".shtml") (path.drop k)) (fuel : ℕ) :
    globLoop shtmlPattern path (fuel + m) 1 k 0 nj =
      globLoop shtmlPattern path fuel (1 + m) (k + m) 0 nj := by
  induction m generalizing fuel with
  | zero => rfl
  | succ m ih =>
    have hle := common_le (ascii ".shtml") (path.drop k)
    rw [List.length_drop, show (ascii ".shtml").length = 6 from rfl] at hle
    have heq := getElem?_of_lt_common (Nat.lt_of_succ_le hm)
    rw [List.getElem?_drop] at heq
    rw [← Nat.add_assoc, Nat.add_right_comm, ih (Nat.le_of_succ_le hm)]
    have hbyte : path[k + m]? = shtmlPattern[1 + m]? := by
      rw [Nat.add_comm 1 m, shtmlPattern_getElem.2, heq]
    conv_lhs => unfold globLoop
    rw [length_shtmlPattern, if_pos (.inl (by omega)),
      if_pos ⟨by omega, by omega, .inr hbyte⟩]
    rfl

theorem shtmlPattern_hash (i : ℕ) : shtmlPattern[i]? = some 0x23 ↔ i = 0 := by
  refine ⟨fun h => ?_, fun h => by rw [h]; rfl⟩
  have hi : i < 7 := (List.getElem?_eq_some_iff.mp h).1
  have hall : ∀ i < 7, shtmlPattern[i]? = some 0x23 → i = 0 := by decide
  exact hall i hi h

theorem shtmlPattern_star (i : ℕ) : shtmlPattern[i]? ≠ some 0x2a := by
  exact fun h => absurd (List.mem_of_getElem? h) (by decide)

/-- Behind them it is a match, or it goes back, or it is none. -/
theorem globLoop_behind {fuel : ℕ} :
    globLoop shtmlPattern path (fuel + 1) (1 + common (ascii ".shtml") (path.drop k))
        (k + common (ascii ".shtml") (path.drop k)) 0 nj =
      if path.drop k = ascii ".shtml" then some true
      else if (0 < nj ∧ nj ≤ path.length) ∧ ¬Blocked (path.drop k) then
        globLoop shtmlPattern path fuel 0 nj 0 nj
      else some false := by
  have hle := common_le (ascii ".shtml") (path.drop k)
  have h6 : (ascii ".shtml").length = 6 := rfl
  rw [List.length_drop, h6] at hle
  by_cases hs : path.drop k = ascii ".shtml"
  · -- both have ended
    have hn := congrArg List.length hs
    rw [List.length_drop, h6] at hn
    conv_lhs => unfold globLoop
    rw [if_pos hs, hs, common_self, h6, length_shtmlPattern, if_neg (by omega)]
  · have hmore : 1 + common (ascii ".shtml") (path.drop k) < 7 ∨
        k + common (ascii ".shtml") (path.drop k) < path.length := by
      by_contra hend
      refine hs (eq_of_common ?_ ?_).symm
      · rw [h6]; omega
      · rw [List.length_drop]; omega
    have hbyte : ¬(1 + common (ascii ".shtml") (path.drop k) < 7 ∧
        k + common (ascii ".shtml") (path.drop k) < path.length ∧
        (shtmlPattern[1 + common (ascii ".shtml") (path.drop k)]? = some 0x3f ∨
          path[k + common (ascii ".shtml") (path.drop k)]? =
            shtmlPattern[1 + common (ascii ".shtml") (path.drop k)]?)) := by
      rintro ⟨hi, hj, hlit⟩
      have heq := hlit.resolve_left shtmlPattern_getElem.1
      rw [Nat.add_comm 1, shtmlPattern_getElem.2, ← List.getElem?_drop] at heq
      exact getElem?_common (by omega) (by rw [List.length_drop]; omega) heq.symm
    have hstar : ¬(1 + common (ascii ".shtml") (path.drop k) < 7 ∧
        (shtmlPattern[1 + common (ascii ".shtml") (path.drop k)]? = some 0x2a ∨
          shtmlPattern[1 + common (ascii ".shtml") (path.drop k)]? = some 0x23)) := by
      rintro ⟨-, h | h⟩
      · exact shtmlPattern_star _ h
      · exact absurd ((shtmlPattern_hash _).mp h) (by omega)
    have hback : (nj > 0 ∧ nj ≤ path.length ∧
        (shtmlPattern[1 + common (ascii ".shtml") (path.drop k) - 1]? = some 0x23 ∨
          path[k + common (ascii ".shtml") (path.drop k)]? ≠ some 0x2f)) ↔
        (0 < nj ∧ nj ≤ path.length) ∧ ¬Blocked (path.drop k) := by
      rw [Nat.add_sub_cancel_left, shtmlPattern_hash, Blocked, List.getElem?_drop, not_and_or,
        Nat.pos_iff_ne_zero (n := common _ _), not_not, and_assoc]
    conv_lhs => unfold globLoop
    rw [if_neg hs, length_shtmlPattern, if_pos hmore, if_neg hbyte, if_neg hstar]
    exact if_congr hback rfl rfl

/-- One start of the pattern. -/
theorem globLoop_from {fuel : ℕ} :
    globLoop shtmlPattern path (fuel + 1 + common (ascii ".shtml") (path.drop k)) 1 k 0 nj =
      if path.drop k = ascii ".shtml" then some true
      else if (0 < nj ∧ nj ≤ path.length) ∧ ¬Blocked (path.drop k) then
        globLoop shtmlPattern path fuel 0 nj 0 nj
      else some false := by
  rw [globLoop_literal le_rfl, globLoop_behind]

theorem globLoop_hash {fuel : ℕ} (h : path[k]? = some 0x23) :
    globLoop shtmlPattern path (fuel + 1) 0 k 0 nj =
      globLoop shtmlPattern path fuel 1 (k + 1) 0 nj := by
  have hk : k < path.length := (List.getElem?_eq_some_iff.mp h).1
  conv_lhs => unfold globLoop
  rw [length_shtmlPattern, if_pos (.inl (by omega)), if_pos ⟨by omega, hk, .inr h⟩]

theorem globLoop_star {fuel : ℕ} (h : path[k]? ≠ some 0x23) :
    globLoop shtmlPattern path (fuel + 1) 0 k 0 nj =
      globLoop shtmlPattern path fuel 1 k 0 (k + 1) := by
  conv_lhs => unfold globLoop
  rw [length_shtmlPattern, if_pos (.inl (by omega)), if_neg, if_pos ⟨by omega, .inr rfl⟩]
  rintro ⟨-, -, hlit⟩
  exact hlit.elim (fun hq => shtmlPattern_getElem.1 hq) h

/-- A start at a number sign of the path. -/
theorem round_hash {s : Bytes} (h : path.drop k = 0x23 :: s) : ∃ n, 0 < n ∧ n ≤ 8 ∧
    ∀ fuel, globLoop shtmlPattern path (fuel + n) 0 k 0 k =
      if s = ascii ".shtml" then some true
      else if k ≠ 0 ∧ ¬Blocked s then globLoop shtmlPattern path fuel 0 k 0 k
      else some false := by
  have hk : path[k]? = some 0x23 := by rw [← Nat.add_zero k, ← List.getElem?_drop, h]; rfl
  have hs : path.drop (k + 1) = s := by rw [← List.drop_drop, h]; rfl
  have hle := common_le (ascii ".shtml") s
  have hlt : k < path.length := (List.getElem?_eq_some_iff.mp hk).1
  refine ⟨1 + common (ascii ".shtml") s + 1, by omega, ?_, fun fuel => ?_⟩
  · have : (ascii ".shtml").length = 6 := rfl
    omega
  · rw [← Nat.add_assoc, globLoop_hash hk, ← Nat.add_assoc, ← hs, globLoop_from]
    refine if_congr Iff.rfl rfl (if_congr (and_congr_left' ?_) rfl rfl)
    rw [← Nat.pos_iff_ne_zero]
    exact and_iff_left hlt.le

/-- A start anywhere else. -/
theorem round_star (h : path[k]? ≠ some 0x23) : ∃ n, 0 < n ∧ n ≤ 8 ∧
    ∀ fuel, globLoop shtmlPattern path (fuel + n) 0 k 0 k =
      if path.drop k = ascii ".shtml" then some true
      else if k < path.length ∧ ¬Blocked (path.drop k) then
        globLoop shtmlPattern path fuel 0 (k + 1) 0 (k + 1)
      else some false := by
  have hle := common_le (ascii ".shtml") (path.drop k)
  refine ⟨1 + common (ascii ".shtml") (path.drop k) + 1, by omega, ?_, fun fuel => ?_⟩
  · have : (ascii ".shtml").length = 6 := rfl
    omega
  · rw [← Nat.add_assoc, globLoop_star h, ← Nat.add_assoc, globLoop_from]
    refine if_congr Iff.rfl rfl (if_congr (and_congr_left' ?_) rfl rfl)
    exact and_iff_right k.succ_pos

/-- Where there is a verdict the loop comes to it. -/
theorem globLoop_verdict {first b : Bool} {s : Bytes} (hf : first = true ↔ k = 0)
    (hs : path.drop k = s) (h : verdict first s = some b) :
    ∃ n ≤ 8 * s.length + 8, globLoop shtmlPattern path n 0 k 0 k = some b := by
  induction s generalizing k first with
  | nil =>
    have hk : path.length ≤ k := List.drop_eq_nil_iff.mp hs
    obtain ⟨n, -, hn, hround⟩ := @round_star path k (by
      rw [List.getElem?_eq_none_iff.mpr hk]
      exact nofun)
    refine ⟨0 + n, by omega, ?_⟩
    rw [hround, hs, if_neg (by decide +kernel), if_neg fun hlt => absurd hlt.1 (by omega)]
    exact h
  | cons c s ih =>
    have hk : path[k]? = some c := by rw [← Nat.add_zero k, ← List.getElem?_drop, hs]; rfl
    have hlt : k < path.length := (List.getElem?_eq_some_iff.mp hk).1
    have hs' : path.drop (k + 1) = s := by rw [← List.drop_drop, hs]; rfl
    rw [verdict] at h
    by_cases hc : c = 0x23
    · subst hc
      obtain ⟨n, -, hn, hround⟩ := round_hash hs
      refine ⟨0 + n, by rw [List.length_cons]; omega, ?_⟩
      rw [if_pos rfl] at h
      rw [hround]
      split_ifs at h ⊢ with h1 h2 h3
      · exact h
      · exact absurd h3 (not_or.mpr ⟨fun h => h2.1 (hf.mp h), h2.2⟩)
      · exact h
    · rw [if_neg hc] at h
      obtain ⟨n, -, hn, hround⟩ :=
        @round_star path k fun h => hc (Option.some.inj (hk.symm.trans h))
      rw [hs] at hround
      by_cases h1 : c :: s = ascii ".shtml"
      · refine ⟨0 + n, by rw [List.length_cons]; omega, ?_⟩
        rw [if_pos h1] at h
        rw [hround, if_pos h1, h]
      rw [if_neg h1] at h
      by_cases h2 : Blocked (c :: s)
      · refine ⟨0 + n, by rw [List.length_cons]; omega, ?_⟩
        rw [if_pos h2] at h
        rw [hround, if_neg h1, if_neg fun h => h.2 h2, h]
      rw [if_neg h2] at h
      obtain ⟨n', hn', hrest⟩ := ih (by simp) hs' h
      refine ⟨n' + n, by rw [List.length_cons]; omega, ?_⟩
      rw [hround, if_neg h1, if_pos ⟨hlt, h2⟩, hrest]

/-- Where there is none it does not end. -/
theorem globLoop_of_none {first : Bool} {s : Bytes} (hf : first = true ↔ k = 0)
    (hs : path.drop k = s) (h : verdict first s = none) (fuel : ℕ) :
    globLoop shtmlPattern path fuel 0 k 0 k = none := by
  induction s generalizing k first fuel with
  | nil => cases h
  | cons c s ih =>
    have hk : path[k]? = some c := by rw [← Nat.add_zero k, ← List.getElem?_drop, hs]; rfl
    have hlt : k < path.length := (List.getElem?_eq_some_iff.mp hk).1
    have hs' : path.drop (k + 1) = s := by rw [← List.drop_drop, hs]; rfl
    rw [verdict] at h
    by_cases hc : c = 0x23
    · subst hc
      obtain ⟨n, hpos, -, hround⟩ := round_hash hs
      rw [if_pos rfl] at h
      split_ifs at h with h1 h2
      rw [not_or] at h2
      refine globLoop_of_cycle hpos (fun fuel => ?_) fuel
      rw [hround, if_neg h1, if_pos ⟨fun hk => h2.1 (hf.mpr hk), h2.2⟩]
    · rw [if_neg hc] at h
      obtain ⟨n, -, -, hround⟩ :=
        @round_star path k fun h => hc (Option.some.inj (hk.symm.trans h))
      rw [hs] at hround
      split_ifs at h with h1 h2
      rw [Option.eq_none_iff_forall_ne_some]
      intro b hb
      have hlong := globLoop_mono hb n
      rw [hround, if_neg h1, if_pos ⟨hlt, h2⟩, ih (by simp) hs' h] at hlong
      cases hlong

end Shtml

/-! ## What the verdict is -/

theorem blocked_append_shtml {t : Bytes} : Blocked (t ++ ascii ".shtml") ↔ Blocked t :=
  blocked_append fun q hq =>
    absurd (hq.subset (List.mem_append_right q List.mem_cons_self)) (by decide +kernel)

theorem blocked_append_hash {t s : Bytes} : Blocked (t ++ 0x23 :: s) ↔ Blocked t := by
  refine blocked_append fun q hq => ?_
  cases q with
  | nil => exact absurd (List.cons_prefix_cons.mp hq).1 (by decide)
  | cons c q =>
    obtain rfl := (List.cons_prefix_cons.mp hq).1
    exact ⟨0x23, List.mem_cons_self, by decide +kernel⟩

theorem cons_ne_shtml {c : UInt8} {s : Bytes} (h : c ≠ 0x2e) : c :: s ≠ ascii ".shtml" :=
  fun hs => h (List.cons.inj (hs.trans (show ascii ".shtml" = 0x2e :: ascii "shtml" from rfl))).1

theorem verdict_eq_true {first : Bool} {path : Bytes} : verdict first path = some true ↔
    ∃ p, path = p ++ ascii ".shtml" ∧ ¬Broken p ∧ 0x23 ∉ p.dropLast := by
  induction path generalizing first with
  | nil =>
    refine ⟨nofun, ?_⟩
    rintro ⟨p, hp, -⟩
    exact absurd hp.symm (List.append_ne_nil_of_right_ne_nil p (by decide +kernel))
  | cons c path ih =>
    rw [verdict]
    by_cases hc : c = 0x23
    · -- a number sign can only be the last byte before `.shtml`
      subst hc
      have hrhs : (∃ p, 0x23 :: path = p ++ ascii ".shtml" ∧ ¬Broken p ∧ 0x23 ∉ p.dropLast) ↔
          path = ascii ".shtml" := by
        constructor
        · rintro ⟨p, hp, -, hlast⟩
          cases p with
          | nil => exact absurd hp (cons_ne_shtml (by decide))
          | cons d p =>
            obtain ⟨rfl, hp'⟩ := List.cons.inj hp
            by_cases hnil : p = []
            · exact hp'.trans (by rw [hnil]; rfl)
            · rw [List.dropLast_cons_of_ne_nil hnil] at hlast
              exact absurd List.mem_cons_self hlast
        · intro h
          refine ⟨[0x23], by rw [h]; rfl, ?_, List.not_mem_nil⟩
          rw [broken_cons, not_or]
          exact ⟨by decide +kernel, broken_nil⟩
      rw [hrhs, if_pos rfl]
      split_ifs with h1 h2
      · exact iff_of_true rfl h1
      · exact iff_of_false nofun h1
      · exact iff_of_false nofun h1
    · rw [if_neg hc]
      split_ifs with h1 h2
      · exact iff_of_true rfl ⟨[], h1, broken_nil, List.not_mem_nil⟩
      · refine iff_of_false nofun ?_
        rintro ⟨p, hp, hbroken, -⟩
        cases p with
        | nil => exact h1 hp
        | cons d p =>
          rw [hp, blocked_append_shtml] at h2
          exact hbroken (broken_cons.mpr (.inl h2))
      · rw [ih]
        constructor
        · rintro ⟨p, rfl, hbroken, hlast⟩
          rw [← List.cons_append, blocked_append_shtml] at h2
          refine ⟨c :: p, rfl, fun h => (broken_cons.mp h).elim h2 hbroken, ?_⟩
          by_cases hnil : p = []
          · rw [hnil]
            exact List.not_mem_nil
          · rw [List.dropLast_cons_of_ne_nil hnil, List.mem_cons, not_or]
            exact ⟨Ne.symm hc, hlast⟩
        · rintro ⟨p, hp, hbroken, hlast⟩
          cases p with
          | nil => exact absurd hp h1
          | cons d p =>
            obtain ⟨rfl, rfl⟩ := List.cons.inj hp
            refine ⟨p, rfl, fun h => hbroken (broken_cons.mpr (.inr h)), fun h => hlast ?_⟩
            rw [List.dropLast_cons_of_ne_nil (List.ne_nil_of_mem (List.mem_of_mem_dropLast h))]
            exact List.mem_cons_of_mem c h

theorem verdict_eq_none {first : Bool} {path : Bytes} : verdict first path = none ↔
    ∃ p s, path = p ++ 0x23 :: s ∧ (first = true → p ≠ []) ∧ 0x23 ∉ p ∧ ¬Broken p ∧
      s ≠ ascii ".shtml" ∧ ¬Blocked s := by
  induction path generalizing first with
  | nil =>
    refine ⟨nofun, ?_⟩
    rintro ⟨p, s, hp, -⟩
    exact absurd hp.symm (List.append_ne_nil_of_right_ne_nil p (List.cons_ne_nil _ _))
  | cons c path ih =>
    rw [verdict]
    by_cases hc : c = 0x23
    · -- the first number sign of the path
      subst hc
      have hrhs : (∃ p s, 0x23 :: path = p ++ 0x23 :: s ∧ (first = true → p ≠ []) ∧ 0x23 ∉ p ∧
          ¬Broken p ∧ s ≠ ascii ".shtml" ∧ ¬Blocked s) ↔
          ¬(first = true) ∧ path ≠ ascii ".shtml" ∧ ¬Blocked path := by
        constructor
        · rintro ⟨p, s, hp, hfirst, hhash, -, hs, hblocked⟩
          cases p with
          | nil =>
            obtain ⟨-, rfl⟩ := List.cons.inj hp
            exact ⟨fun h => hfirst h rfl, hs, hblocked⟩
          | cons d p =>
            obtain ⟨rfl, -⟩ := List.cons.inj hp
            exact absurd List.mem_cons_self hhash
        · rintro ⟨hfirst, hs, hblocked⟩
          exact ⟨[], path, rfl, fun h => absurd h hfirst, List.not_mem_nil, broken_nil, hs,
            hblocked⟩
      rw [hrhs, if_pos rfl]
      split_ifs with h1 h2
      · exact iff_of_false nofun fun h => h.2.1 h1
      · exact iff_of_false nofun fun h => h2.elim h.1 h.2.2
      · exact iff_of_true rfl ⟨fun h => h2 (.inl h), h1, fun h => h2 (.inr h)⟩
    · rw [if_neg hc]
      split_ifs with h1 h2
      · refine iff_of_false nofun ?_
        rintro ⟨p, s, hp, -⟩
        have hmem : 0x23 ∈ ascii ".shtml" := by
          rw [← h1, hp]
          exact List.mem_append_right p List.mem_cons_self
        exact absurd hmem (by decide +kernel)
      · refine iff_of_false nofun ?_
        rintro ⟨p, s, hp, -, -, hbroken, -⟩
        cases p with
        | nil => exact hc (List.cons.inj hp).1
        | cons d p =>
          rw [hp, blocked_append_hash] at h2
          exact hbroken (broken_cons.mpr (.inl h2))
      · rw [ih]
        constructor
        · rintro ⟨p, s, rfl, -, hhash, hbroken, hs⟩
          rw [← List.cons_append, blocked_append_hash] at h2
          refine ⟨c :: p, s, rfl, fun _ => List.cons_ne_nil _ _, ?_,
            fun h => (broken_cons.mp h).elim h2 hbroken, hs⟩
          rw [List.mem_cons, not_or]
          exact ⟨Ne.symm hc, hhash⟩
        · rintro ⟨p, s, hp, -, hhash, hbroken, hs⟩
          cases p with
          | nil => exact absurd (List.cons.inj hp).1 hc
          | cons d p =>
            obtain ⟨rfl, rfl⟩ := List.cons.inj hp
            rw [List.mem_cons, not_or] at hhash
            exact ⟨p, s, rfl, nofun, hhash.2, fun h => hbroken (broken_cons.mpr (.inr h)), hs⟩

/-! ## The results -/

theorem mgGlobmatch_eq (path : Bytes) : mgGlobmatch shtmlPattern path = verdict true path := by
  cases h : verdict true path with
  | none => exact globLoop_of_none (k := 0) (by simp) rfl h _
  | some b =>
    obtain ⟨n, hn, hb⟩ := globLoop_verdict (k := 0) (by simp) rfl h
    have hfuel : n ≤ (shtmlPattern.length + 1) ^ 2 * (path.length + 2) ^ 2 := by
      rw [List.drop_zero] at hn
      rw [length_shtmlPattern]
      nlinarith
    obtain ⟨k, hk⟩ := Nat.exists_eq_add_of_le hfuel
    rw [mgGlobmatch, hk]
    exact globLoop_mono hb k

/-- No fuel is enough for a match that has no result. -/
theorem mgGlobmatch_eq_none_iff {path : Bytes} : mgGlobmatch shtmlPattern path = none ↔
    ∀ fuel, globLoop shtmlPattern path fuel 0 0 0 0 = none := by
  refine ⟨fun h fuel => ?_, fun h => h _⟩
  rw [mgGlobmatch_eq] at h
  exact globLoop_of_none (k := 0) (by simp) rfl h fuel

/-- **Templates.** A path matches iff it ends in `.shtml`, no directory on it ends in part of
`.shtml`, and there is no number sign on it but right before that. -/
theorem template_iff (path : Bytes) : mgGlobmatch shtmlPattern path = some true ↔
    ∃ p, path = p ++ ascii ".shtml" ∧ ¬Broken p ∧ 0x23 ∉ p.dropLast := by
  rw [mgGlobmatch_eq, verdict_eq_true]

theorem globmatch_hangs_iff {path : Bytes} :
    (∀ fuel, globLoop shtmlPattern path fuel 0 0 0 0 = none) ↔
      ∃ p s, path = p ++ 0x23 :: s ∧ p ≠ [] ∧ 0x23 ∉ p ∧ ¬Broken p ∧ s ≠ ascii ".shtml" ∧
        ¬Blocked s := by
  rw [← mgGlobmatch_eq_none_iff, mgGlobmatch_eq, verdict_eq_none]
  simp only [forall_const]

/-- **Requests that hang the server.** They are for what is no directory under a path with a
number sign, unless the match is given up before it or right behind it. -/
theorem serveDir_hangs_iff (fs : FileSystem) (hm : HttpMessage) (rootDir : Bytes) :
    mgHttpServeDir fs hm rootDir shtmlPattern = none ↔
      ∃ rs p s st, uriToPath fs hm.uri rootDir = (rs, p ++ 0x23 :: s, some st) ∧
        st.isDir = false ∧ p ≠ [] ∧ 0x23 ∉ p ∧ ¬Broken p ∧ s ≠ ascii ".shtml" ∧ ¬Blocked s := by
  rw [mgHttpServeDir]
  rcases uriToPath fs hm.uri rootDir with ⟨rs, path, flags⟩
  cases flags with
  | none =>
    refine iff_of_false nofun ?_
    rintro ⟨_, _, _, _, heq, -⟩
    cases heq
  | some st =>
    simp only
    split_ifs with hdir
    · refine iff_of_false nofun ?_
      rintro ⟨_, _, _, _, heq, hfile, -⟩
      cases heq
      exact absurd hdir (Bool.eq_false_iff.mp hfile)
    · rw [Option.map_eq_none_iff, mgGlobmatch_eq_none_iff, globmatch_hangs_iff]
      constructor
      · rintro ⟨p, s, rfl, hp⟩
        exact ⟨rs, p, s, st, rfl, Bool.eq_false_iff.mpr hdir, hp⟩
      · rintro ⟨_, p, s, _, heq, -, hp⟩
        cases heq
        exact ⟨p, s, rfl, hp⟩

end Csrv.Mongoose
