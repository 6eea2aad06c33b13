import Mathlib.Data.List.Perm.Subperm
import Mathlib.Tactic.Ring

/-!
# Linear probing

A ring of `n` slots. A search starts at a home slot, moves one slot on after each collision and
ends at the first slot that satisfies `stop`. `Clear n busy h j` says that every slot passed on
the way from `h` to `j` is busy; it is the invariant that keeps an entry stored at `j` findable,
and it only asks for slots to stay busy, so a table that marks removals instead of emptying the
slot never breaks it.
-/

namespace LinearProbe

/-- The slot after `k` collisions. -/
def slot (n h k : ℕ) : ℕ := (h + k) % n

/-- The first slot satisfying `stop` among the `fuel` slots from `i` on. -/
def scan (n : ℕ) (stop : ℕ → Bool) : ℕ → ℕ → Option ℕ
  | 0, _ => none
  | fuel + 1, i => if stop i then some i else scan n stop fuel ((i + 1) % n)

/-- Every slot passed on the way from `h` to `j` is busy. -/
def Clear (n : ℕ) (busy : ℕ → Prop) (h j : ℕ) : Prop :=
  ∃ k < n, j = slot n h k ∧ ∀ m < k, busy (slot n h m)

variable {n h j k m : ℕ} {stop : ℕ → Bool} {busy busy' : ℕ → Prop}

theorem slot_zero (hh : h < n) : slot n h 0 = h := Nat.mod_eq_of_lt hh

theorem slot_lt (hn : 0 < n) : slot n h k < n := Nat.mod_lt _ hn

theorem slot_succ : slot n ((h + 1) % n) k = slot n h (k + 1) := by
  unfold slot
  rw [Nat.mod_add_mod, show h + 1 + k = h + (k + 1) by ring]

/-- The slots of one round are distinct. -/
theorem slot_inj (hh : h < n) (hk : k < n) (hm : m < n) (e : slot n h k = slot n h m) : k = m := by
  have key : ∀ x < n, slot n h x = if h + x < n then h + x else h + x - n := by
    intro x hx
    unfold slot
    split_ifs with hlt
    · exact Nat.mod_eq_of_lt hlt
    · rw [Nat.mod_eq_sub_mod (by omega), Nat.mod_eq_of_lt (by omega)]
  rw [key k hk, key m hm] at e
  split_ifs at e <;> omega

/-- One round visits every slot. -/
theorem exists_slot (hh : h < n) (hj : j < n) : ∃ k < n, j = slot n h k := by
  by_cases hle : h ≤ j
  · refine ⟨j - h, by omega, ?_⟩
    unfold slot
    rw [Nat.add_sub_cancel' hle, Nat.mod_eq_of_lt hj]
  · refine ⟨j + n - h, by omega, ?_⟩
    unfold slot
    rw [show h + (j + n - h) = j + n by omega, Nat.add_mod_right, Nat.mod_eq_of_lt hj]

theorem scan_eq_some_iff (hh : h < n) {fuel : ℕ} :
    scan n stop fuel h = some j ↔
      ∃ k < fuel, j = slot n h k ∧ stop j ∧ ∀ m < k, stop (slot n h m) = false := by
  induction fuel generalizing h with
  | zero => simp [scan]
  | succ fuel ih =>
    have hn : 0 < n := by omega
    rw [scan]
    by_cases hs : stop h
    · rw [if_pos hs, Option.some.injEq]
      constructor
      · rintro rfl
        exact ⟨0, by omega, (slot_zero hh).symm, hs, fun m hm => absurd hm (Nat.not_lt_zero m)⟩
      · rintro ⟨k, -, rfl, -, hk⟩
        cases k with
        | zero => exact (slot_zero hh).symm
        | succ k =>
          have := hk 0 (by omega)
          rw [slot_zero hh, hs] at this
          cases this
    · rw [if_neg hs, ih (Nat.mod_lt _ hn)]
      simp only [slot_succ]
      constructor
      · rintro ⟨k, hk, rfl, hst, hb⟩
        refine ⟨k + 1, by omega, rfl, hst, fun m hm => ?_⟩
        cases m with
        | zero => rw [slot_zero hh]; simpa using hs
        | succ m => exact hb m (by omega)
      · rintro ⟨k, hk, rfl, hst, hb⟩
        cases k with
        | zero => rw [slot_zero hh] at hst; exact absurd hst hs
        | succ k => exact ⟨k, by omega, rfl, hst, fun m hm => hb (m + 1) (by omega)⟩

/-! ## Searching a ring -/

/-- A search over one round ends if some slot stops it. -/
theorem scan_ends (hh : h < n) (hj : j < n) (hs : stop j) : ∃ i, scan n stop n h = some i := by
  obtain ⟨k, hk, rfl⟩ := exists_slot hh hj
  -- the least stopping offset is where the scan ends
  have hex : ∃ k, k < n ∧ stop (slot n h k) = true := ⟨k, hk, hs⟩
  obtain ⟨hf, hst⟩ := Nat.find_spec hex
  refine ⟨slot n h (Nat.find hex), (scan_eq_some_iff hh).mpr ⟨_, hf, rfl, hst, fun m hm => ?_⟩⟩
  have := Nat.find_min hex hm
  simp only [not_and, Bool.not_eq_true] at this
  exact this (by omega)

theorem scan_lt (hh : h < n) (hs : scan n stop n h = some j) : j < n := by
  obtain ⟨k, -, rfl, -⟩ := (scan_eq_some_iff hh).mp hs
  exact slot_lt (by omega)

theorem scan_stop (hh : h < n) (hs : scan n stop n h = some j) : stop j := by
  obtain ⟨k, -, -, hst, -⟩ := (scan_eq_some_iff hh).mp hs
  exact hst

/-- The slots passed by a search did not stop it. -/
theorem scan_clear (hh : h < n) (hs : scan n stop n h = some j)
    (hb : ∀ i, stop i = false → busy i) : Clear n busy h j := by
  obtain ⟨k, hk, rfl, -, hm⟩ := (scan_eq_some_iff hh).mp hs
  exact ⟨k, hk, rfl, fun m hmk => hb _ (hm m hmk)⟩

/-- **Hit.** A search finds `j` if the way to `j` is clear and no other busy slot stops it. -/
theorem scan_hit (hh : h < n) (hc : Clear n busy h j) (hj : stop j)
    (hb : ∀ i < n, busy i → i ≠ j → stop i = false) : scan n stop n h = some j := by
  obtain ⟨k, hk, rfl, hm⟩ := hc
  refine (scan_eq_some_iff hh).mpr ⟨k, hk, rfl, hj, fun m hmk =>
    hb _ (slot_lt (by omega)) (hm m hmk) fun e => ?_⟩
  have := slot_inj hh (by omega) hk e
  omega

theorem Clear.mono (hc : Clear n busy h j) (hb : ∀ i, busy i → busy' i) : Clear n busy' h j := by
  obtain ⟨k, hk, rfl, hm⟩ := hc
  exact ⟨k, hk, rfl, fun m hmk => hb _ (hm m hmk)⟩

/-! ## Room in the ring -/

/-- Fewer than `n` occupied slots leave one free. -/
theorem exists_free {l : List ℕ} (hl : l.length < n) : ∃ i < n, i ∉ l := by
  by_contra hall
  push Not at hall
  have hsub : List.range n ⊆ l := fun i hi => hall i (List.mem_range.mp hi)
  have hle := (List.subperm_of_subset List.nodup_range hsub).length_le
  rw [List.length_range] at hle
  omega

end LinearProbe
