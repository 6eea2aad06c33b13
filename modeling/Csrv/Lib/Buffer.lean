import Mathlib.Data.List.TakeWhile
import Mathlib.Algebra.Order.Ring.Int

/-!
# Terminated strings in blocks

A block is the list of its cells, of which a string takes those before the first terminator `z`.
Writing past the end of a block has no result. `build_iff`: a new block to which strings are
appended one after the other holds them in the end exactly if it has room for all of them and one
terminator.
-/

namespace Buffer

variable {α : Type*} {b b' s t : List α} {i : ℕ}

/-- Writing `s` at offset `i`. -/
def write (b : List α) (i : ℕ) (s : List α) : Option (List α) :=
  if i + s.length ≤ b.length then some (b.take i ++ s ++ b.drop (i + s.length)) else none

/-- A new block, with whatever its cells contain. -/
def malloc (stale : ℕ → α) (size : ℕ) : List α := (List.range size).map stale

@[simp] theorem length_malloc (stale : ℕ → α) (size : ℕ) : (malloc stale size).length = size := by
  rw [malloc, List.length_map, List.length_range]

/-- A block of another size that keeps what fits of the old one. -/
def realloc (stale : ℕ → α) (size : ℕ) (b : List α) : List α :=
  b.take size ++ (malloc stale size).drop b.length

@[simp] theorem length_realloc (stale : ℕ → α) (size : ℕ) (b : List α) :
    (realloc stale size b).length = size := by
  rw [realloc, List.length_append, List.length_take, List.length_drop, length_malloc]
  omega

theorem prefix_realloc (stale : ℕ → α) (size : ℕ) (h : s <+: b) (hs : s.length ≤ size) :
    s <+: realloc stale size b := by
  refine List.IsPrefix.trans ?_ (List.prefix_append _ _)
  obtain ⟨r, rfl⟩ := h
  rw [List.take_append, List.take_of_length_le hs]
  exact List.prefix_append _ _

theorem length_write (h : write b i s = some b') : b'.length = b.length := by
  unfold write at h
  split_ifs at h with hle
  obtain rfl := Option.some.inj h
  simp only [List.length_append, List.length_take, List.length_drop]
  omega

theorem write_append (u : List α) (h : s.length ≤ t.length) :
    write (u ++ t) u.length s = some (u ++ s ++ t.drop s.length) := by
  unfold write
  rw [if_pos (by rw [List.length_append]; omega), List.take_left, List.drop_length_add_append]

/-- The block holds the string `s` and its terminator. -/
def Holds (z : α) (b s : List α) : Prop := z ∉ s ∧ ∃ rest, b = s ++ z :: rest

theorem Holds.length_lt {z : α} (h : Holds z b s) : s.length < b.length := by
  obtain ⟨-, rest, rfl⟩ := h
  simp

theorem write_holds {z : α} (hs : z ∉ s) (h : s.length < b.length) :
    ∃ b', write b 0 (s ++ [z]) = some b' ∧ Holds z b' s := by
  have hle : (s ++ [z]).length ≤ b.length := by rwa [List.length_append, List.length_singleton]
  refine ⟨_, write_append [] hle, hs, b.drop (s ++ [z]).length, ?_⟩
  simp

/-- A string, and then its terminator, written behind a string that the block starts with. -/
theorem write_write_holds {z : α} (hs : z ∉ s) (ht : z ∉ t) (hb : s <+: b)
    (hfit : s.length + t.length < b.length) :
    ∃ b₁ b₂, write b s.length t = some b₁ ∧ write b₁ (s.length + t.length) [z] = some b₂ ∧
      Holds z b₂ (s ++ t) := by
  obtain ⟨r, rfl⟩ := hb
  rw [List.length_append] at hfit
  have hw := write_append (s := t) (t := r) s (by omega)
  have hw' := write_append (s := [z]) (t := r.drop t.length) (s ++ t) (by
    rw [List.length_singleton, List.length_drop]
    omega)
  rw [List.length_append] at hw'
  refine ⟨_, _, hw, hw', by simp [hs, ht], (r.drop t.length).drop 1, ?_⟩
  simp

variable [DecidableEq α] (z : α)

/-- The string at the start of a block. -/
def text (b : List α) : List α := b.takeWhile (· ≠ z)

def strcat (b s : List α) : Option (List α) := write b (text z b).length (s ++ [z])

/-- A new block, made the empty string and extended by the strings `ss`. -/
def build (stale : ℕ → α) (size : ℕ) (ss : List (List α)) : Option (List α) := do
  let b ← write (malloc stale size) 0 [z]
  ss.foldlM (strcat z) b

variable {z} {ss : List (List α)}

theorem Holds.text_eq (h : Holds z b s) : text z b = s := by
  obtain ⟨hs, rest, rfl⟩ := h
  rw [text, List.takeWhile_append_of_pos]
  · simp
  · intro x hx
    simpa using fun e : x = z => hs (e ▸ hx)

theorem Holds.strcat (h : Holds z b s) (ht : z ∉ t) (hfit : s.length + t.length < b.length) :
    ∃ b', strcat z b t = some b' ∧ Holds z b' (s ++ t) ∧ b'.length = b.length := by
  have htext := h.text_eq
  obtain ⟨hs, rest, rfl⟩ := h
  have hle : (t ++ [z]).length ≤ (z :: rest).length := by simp at hfit ⊢; omega
  have hw := write_append s hle
  refine ⟨_, ?_, ⟨by simp [hs, ht], rest.drop t.length, ?_⟩, length_write hw⟩
  · rw [Buffer.strcat, htext]
    exact hw
  · simp

theorem Holds.strcat_none (h : Holds z b s) (hfit : b.length ≤ s.length + t.length) :
    Buffer.strcat z b t = none := by
  rw [Buffer.strcat, h.text_eq, write, if_neg]
  rw [List.length_append, List.length_singleton]
  omega

theorem Holds.strcats (hss : ∀ t ∈ ss, z ∉ t) : ∀ {b s}, Holds z b s →
    s.length + ss.flatten.length < b.length →
      ∃ b', ss.foldlM (Buffer.strcat z) b = some b' ∧ Holds z b' (s ++ ss.flatten) := by
  induction ss with
  | nil => exact fun {b s} h _ => ⟨b, rfl, by rwa [List.flatten_nil, List.append_nil]⟩
  | cons t ss ih =>
    intro b s h hfit
    rw [List.flatten_cons, List.length_append] at hfit
    obtain ⟨b₁, h₁, hb₁, hlen⟩ := h.strcat (hss t List.mem_cons_self) (by omega)
    obtain ⟨b', h', hb'⟩ := ih (fun t ht => hss t (List.mem_cons_of_mem _ ht)) hb₁
      (by rw [List.length_append, hlen]; omega)
    refine ⟨b', ?_, by rwa [List.flatten_cons, ← List.append_assoc]⟩
    rw [List.foldlM_cons, h₁]
    exact h'

/-- The append that no longer fits stops the whole. -/
theorem Holds.strcats_none (hss : ∀ t ∈ ss, z ∉ t) : ∀ {b s}, Holds z b s →
    b.length ≤ s.length + ss.flatten.length → ss.foldlM (Buffer.strcat z) b = none := by
  induction ss with
  | nil => exact fun {b s} h hfit => absurd h.length_lt (by simpa using hfit)
  | cons t ss ih =>
    intro b s h hfit
    rw [List.flatten_cons, List.length_append] at hfit
    rw [List.foldlM_cons]
    rcases Nat.lt_or_ge (s.length + t.length) b.length with hlt | hge
    · obtain ⟨b₁, h₁, hb₁, hlen⟩ := h.strcat (hss t List.mem_cons_self) hlt
      rw [h₁]
      exact ih (fun t ht => hss t (List.mem_cons_of_mem _ ht)) hb₁
        (by rw [List.length_append, hlen]; omega)
    · rw [h.strcat_none hge]
      rfl

theorem build_eq_none (hss : ∀ t ∈ ss, z ∉ t) {stale : ℕ → α} {size : ℕ}
    (h : size ≤ ss.flatten.length) : build z stale size ss = none := by
  unfold build
  rcases Nat.eq_zero_or_pos size with rfl | hpos
  · rfl
  · obtain ⟨b, hb, hh⟩ := write_holds (z := z) (s := []) (b := malloc stale size) (by simp)
      (by simpa using hpos)
    rw [List.nil_append] at hb
    rw [hb, Option.bind_eq_bind, Option.bind_some]
    refine hh.strcats_none hss ?_
    rw [length_write hb, length_malloc]
    simpa using h

/-- **Building.** -/
theorem build_iff (hss : ∀ t ∈ ss, z ∉ t) (stale : ℕ → α) (size : ℕ) :
    (∃ b, build z stale size ss = some b ∧ Holds z b ss.flatten) ↔ ss.flatten.length < size := by
  constructor
  · rintro ⟨b, hb, -⟩
    by_contra hlt
    rw [build_eq_none hss (by omega)] at hb
    cases hb
  · intro hlt
    obtain ⟨b₀, hb₀, hh⟩ := write_holds (z := z) (s := []) (b := malloc stale size) (by simp)
      (by simp; omega)
    rw [List.nil_append] at hb₀
    obtain ⟨b, hb, hh'⟩ := hh.strcats hss (by
      rw [length_write hb₀, length_malloc]
      simpa using hlt)
    refine ⟨b, ?_, hh'⟩
    unfold build
    rw [hb₀]
    exact hb

end Buffer
