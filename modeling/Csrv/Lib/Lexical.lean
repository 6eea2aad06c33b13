import Mathlib.Algebra.Order.Ring.Int
import Mathlib.Data.List.Infix
import Mathlib.Tactic.Common

/-!
# Lexical path resolution

A path is a walk in a tree of names: a segment stays, goes up or goes down. Resolving it from an
unknown directory leaves a number of steps above that directory and the names entered from there.

* `ups_eq_zero_iff`: the walk stays in the directory iff no prefix of it has negative height.
* `resolve_eq_iff`: where a walk ends, as a split of the walk at its last entry below the start.
-/

namespace Lexical

variable {σ : Type*}

/-- One segment of a path. -/
inductive Move (σ : Type*)
  | stay
  | up
  | down (name : σ)
  deriving DecidableEq

/-- A resolved path: steps above the start, then names, innermost first. -/
structure Place (σ : Type*) where
  ups : ℕ
  names : List σ
  deriving DecidableEq

namespace Place

def start : Place σ := ⟨0, []⟩

def move : Place σ → Move σ → Place σ
  | p, .stay => p
  | ⟨u, []⟩, .up => ⟨u + 1, []⟩
  | ⟨u, _ :: ns⟩, .up => ⟨u, ns⟩
  | ⟨u, ns⟩, .down n => ⟨u, n :: ns⟩

/-- `p` lies properly inside `root`. -/
def StrictlyBelow (p root : Place σ) : Prop :=
  p.ups = root.ups ∧ root.names <:+ p.names ∧ root.names ≠ p.names

instance [DecidableEq σ] (p root : Place σ) : Decidable (p.StrictlyBelow root) :=
  inferInstanceAs (Decidable (_ ∧ _ ∧ _))

end Place

def resolve (ms : List (Move σ)) : Place σ := ms.foldl Place.move .start

def Move.rise : Move σ → ℤ
  | .stay => 0
  | .up => -1
  | .down _ => 1

/-- Entered minus left directories. -/
def height (ms : List (Move σ)) : ℤ := (ms.map Move.rise).sum

/-- The walk never leaves the directory it starts in. -/
def Inside (ms : List (Move σ)) : Prop := ∀ p, p <+: ms → 0 ≤ height p

/-- The walk stays inside and comes back to where it started. -/
def Closed (ms : List (Move σ)) : Prop := Inside ms ∧ height ms = 0

variable {ms ms' : List (Move σ)} {m : Move σ}

@[simp] theorem height_nil : height ([] : List (Move σ)) = 0 := rfl

@[simp] theorem height_append : height (ms ++ ms') = height ms + height ms' := by
  simp [height]

@[simp] theorem height_singleton : height [m] = m.rise := by simp [height]

@[simp] theorem height_cons : height (m :: ms) = m.rise + height ms := by simp [height]

theorem resolve_concat : resolve (ms ++ [m]) = (resolve ms).move m := by simp [resolve]

theorem inside_nil : Inside ([] : List (Move σ)) := by
  intro p hp
  rw [List.prefix_nil.mp hp, height_nil]

theorem inside_concat : Inside (ms ++ [m]) ↔ Inside ms ∧ 0 ≤ height (ms ++ [m]) := by
  constructor
  · intro h
    exact ⟨fun p hp => h p (hp.trans (List.prefix_append _ _)), h _ List.prefix_rfl⟩
  · rintro ⟨h, hm⟩ p hp
    rcases List.prefix_concat_iff.mp hp with rfl | hp
    · exact hm
    · exact h p hp

/-- A walk without a step up stays inside. -/
theorem inside_of_no_up (h : Move.up ∉ ms) : Inside ms := by
  induction ms using List.reverseRecOn with
  | nil => exact inside_nil
  | append_singleton ms m ih =>
    rw [List.mem_append, not_or, List.mem_singleton] at h
    have hms := ih h.1
    refine inside_concat.mpr ⟨hms, ?_⟩
    have h0 := hms ms List.prefix_rfl
    rw [height_append, height_singleton]
    cases m with
    | up => exact absurd rfl h.2
    | stay => simp only [Move.rise]; omega
    | down n => simp only [Move.rise]; omega

/-- **Staying inside.** -/
theorem ups_eq_zero_iff (ms : List (Move σ)) :
    ((resolve ms).ups = 0 ↔ Inside ms) ∧
      height ms = (resolve ms).names.length - (resolve ms).ups := by
  induction ms using List.reverseRecOn with
  | nil => exact ⟨⟨fun _ => inside_nil, fun _ => rfl⟩, rfl⟩
  | append_singleton ms m ih =>
    obtain ⟨hin, hh⟩ := ih
    rw [resolve_concat, inside_concat, ← hin, height_append, height_singleton, hh]
    obtain ⟨u, ns⟩ := resolve ms
    cases m with
    | stay => simp only [Place.move, Move.rise]; omega
    | down n => simp only [Place.move, Move.rise, List.length_cons]; omega
    | up =>
      cases ns with
      | nil => simp only [Place.move, Move.rise, List.length_nil]; omega
      | cons n ns => simp only [Place.move, Move.rise, List.length_cons]; omega

theorem resolve_of_closed (h : Closed ms) : resolve ms = .start := by
  obtain ⟨hin, hh⟩ := ups_eq_zero_iff ms
  have hu := hin.mpr h.1
  rw [h.2, hu] at hh
  have hn : (resolve ms).names = [] := List.length_eq_zero_iff.mp (by omega)
  generalize resolve ms = p at hu hn
  cases p
  cases hu
  cases hn
  rfl

theorem closed_of_resolve (h : resolve ms = .start) : Closed ms := by
  obtain ⟨hin, hh⟩ := ups_eq_zero_iff ms
  rw [h] at hin hh
  exact ⟨hin.mp rfl, hh⟩

/-- A walk that stays inside only adds names to the place it starts from. -/
theorem foldl_of_inside {p : Place σ} (h : Inside ms) :
    ∃ t, ms.foldl Place.move p = ⟨p.ups, t ++ p.names⟩ ∧ (t.length : ℤ) = height ms := by
  induction ms using List.reverseRecOn with
  | nil => exact ⟨[], rfl, rfl⟩
  | append_singleton ms m ih =>
    obtain ⟨hms, hm⟩ := inside_concat.mp h
    obtain ⟨t, ht, hlen⟩ := ih hms
    rw [height_append, height_singleton] at hm ⊢
    rw [List.foldl_append, ht]
    cases m with
    | stay => exact ⟨t, rfl, by simp only [Move.rise]; omega⟩
    | down n => exact ⟨n :: t, rfl, by simp only [Move.rise, List.length_cons]; omega⟩
    | up =>
      cases t with
      | nil => simp only [Move.rise, List.length_nil] at hm hlen; omega
      | cons n t => exact ⟨t, rfl, by simp only [Move.rise, List.length_cons] at hlen ⊢; omega⟩

theorem resolve_split {X Y : List (Move σ)} {r : σ} (hX : Closed X) (hY : Inside Y) :
    ∃ t, resolve (X ++ .down r :: Y) = ⟨0, t ++ [r]⟩ ∧ (t.length : ℤ) = height Y := by
  have h : resolve (X ++ .down r :: Y) = Y.foldl Place.move ⟨0, [r]⟩ := by
    rw [resolve, List.foldl_append, ← resolve, resolve_of_closed hX]
    rfl
  rw [h]
  exact foldl_of_inside hY

theorem split_of_resolve {r : σ} : ∀ {t : List σ}, resolve ms = ⟨0, t ++ [r]⟩ →
    ∃ X Y, ms = X ++ .down r :: Y ∧ Closed X ∧ Inside Y ∧ height Y = t.length := by
  induction ms using List.reverseRecOn with
  | nil =>
    intro t h
    simp [resolve, Place.start] at h
  | append_singleton ms m ih =>
    intro t h
    rw [resolve_concat] at h
    -- the last move extends the part of the walk after the entry, unless it is the entry
    have extend : ∀ t' : List σ, resolve ms = ⟨0, t' ++ [r]⟩ →
        (t.length : ℤ) = t'.length + m.rise →
        ∃ X Y, ms ++ [m] = X ++ .down r :: Y ∧ Closed X ∧ Inside Y ∧ height Y = t.length := by
      intro t' ht hlen
      obtain ⟨X, Y, rfl, hX, hY, hh⟩ := ih ht
      refine ⟨X, Y ++ [m], by simp, hX, inside_concat.mpr ⟨hY, ?_⟩, ?_⟩
      · rw [height_append, height_singleton]; omega
      · rw [height_append, height_singleton]; omega
    cases m with
    | stay => exact extend t h (by simp [Move.rise])
    | up =>
      rcases hp : resolve ms with ⟨u, ns⟩
      rw [hp] at h
      cases ns with
      | nil => simp [Place.move] at h
      | cons n ns =>
        simp only [Place.move, Place.mk.injEq] at h
        refine extend (n :: t) ?_ ?_
        · rw [hp, h.1, h.2]; rfl
        · simp only [Move.rise, List.length_cons]; omega
    | down n =>
      rcases hp : resolve ms with ⟨u, ns⟩
      rw [hp] at h
      simp only [Place.move, Place.mk.injEq] at h
      cases t with
      | nil =>
        simp only [List.nil_append, List.cons.injEq] at h
        obtain ⟨rfl, rfl, rfl⟩ := h
        exact ⟨ms, [], rfl, closed_of_resolve hp, inside_nil, rfl⟩
      | cons n' t =>
        simp only [List.cons_append, List.cons.injEq] at h
        refine extend t ?_ ?_
        · rw [hp, h.1, h.2.2]
        · simp only [Move.rise, List.length_cons]; omega

/-- **Where a walk ends.** -/
theorem strictlyBelow_iff {r : σ} :
    (resolve ms).StrictlyBelow ⟨0, [r]⟩ ↔
      ∃ X Y, ms = X ++ .down r :: Y ∧ Closed X ∧ Inside Y ∧ 0 < height Y := by
  constructor
  · rintro ⟨hu, ⟨t, ht⟩, hne⟩
    have hp : resolve ms = ⟨0, t ++ [r]⟩ := by
      rcases h : resolve ms with ⟨u, ns⟩
      rw [h] at hu ht
      obtain rfl : u = 0 := hu
      exact congrArg (Place.mk 0) ht.symm
    obtain ⟨X, Y, hms, hX, hY, hh⟩ := split_of_resolve hp
    refine ⟨X, Y, hms, hX, hY, ?_⟩
    have ht0 : t ≠ [] := by
      rintro rfl
      exact hne ht
    have := List.length_pos_iff.mpr ht0
    omega
  · rintro ⟨X, Y, rfl, hX, hY, hh⟩
    obtain ⟨t, ht, hlen⟩ := resolve_split (r := r) hX hY
    rw [ht]
    refine ⟨rfl, ⟨t, rfl⟩, fun h => ?_⟩
    have := congrArg List.length h
    simp only [List.length_append, List.length_singleton] at this
    omega

end Lexical
