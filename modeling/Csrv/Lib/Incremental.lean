import Mathlib.Data.List.Basic

/-!
# Incremental parsing

A parser that looks at the front of a buffer and finds nothing yet, an item made of so many
symbols, or something that ends the session. `Drains` is the loop that takes items from the
buffer as long as it can and `drain` the same loop with fuel.

* `drain_eq_some_iff`: the loop ends iff it never meets an item of no symbols; the length of the
  buffer bounds its rounds.
* `Stable`: an outcome other than `more` does not depend on what follows. Such a parser may be
  run on its input piece by piece (`Stable.append`, `Stable.halt_append`).
-/

namespace Incremental

variable {α ι ε : Type*}

/-- What a parser finds at the front of a buffer. -/
inductive Outcome (ι ε : Type*)
  | more
  | halt (e : ε)
  | item (i : ι) (n : ℕ)

/-- `Drains parse s is rest e`: the loop takes the items `is` from `s` and stops in front of
`rest`, for want of more input or for the reason `e`. -/
inductive Drains (parse : List α → Outcome ι ε) : List α → List ι → List α → Option ε → Prop
  | more {s : List α} : parse s = .more → Drains parse s [] s none
  | halt {s : List α} {e : ε} : parse s = .halt e → Drains parse s [] s (some e)
  | item {s : List α} {i : ι} {n : ℕ} {is : List ι} {rest : List α} {e : Option ε} :
      parse s = .item i n → Drains parse (s.drop n) is rest e → Drains parse s (i :: is) rest e

/-- The loop with fuel. -/
def drain (parse : List α → Outcome ι ε) : ℕ → List α → Option (List ι × List α × Option ε)
  | 0, _ => none
  | fuel + 1, s =>
    match parse s with
    | .more => some ([], s, none)
    | .halt e => some ([], s, some e)
    | .item i n => (drain parse fuel (s.drop n)).map fun r => (i :: r.1, r.2)

variable {parse : List α → Outcome ι ε} {s t rest rest' : List α} {is js : List ι}
  {e e' : Option ε} {fuel : ℕ}

/-! ## The loop -/

/-- The loop behind an item. -/
theorem drains_item_iff {i : ι} {n : ℕ} (hi : parse s = .item i n) :
    Drains parse s is rest e ↔ ∃ js, is = i :: js ∧ Drains parse (s.drop n) js rest e := by
  constructor
  · intro h
    cases h with
    | more hp => cases hi.symm.trans hp
    | halt hp => cases hi.symm.trans hp
    | item hp hrest =>
      obtain ⟨rfl, rfl⟩ := Outcome.item.inj (hi.symm.trans hp)
      exact ⟨_, rfl, hrest⟩
  · rintro ⟨js, rfl, hrest⟩
    exact .item hi hrest

theorem Drains.unique (h : Drains parse s is rest e) (h' : Drains parse s js rest' e') :
    is = js ∧ rest = rest' ∧ e = e' := by
  induction h generalizing js with
  | more hp =>
    cases h' with
    | more hp' => exact ⟨rfl, rfl, rfl⟩
    | halt hp' => cases hp.symm.trans hp'
    | item hp' h' => cases hp.symm.trans hp'
  | halt hp =>
    cases h' with
    | more hp' => cases hp.symm.trans hp'
    | halt hp' => cases hp.symm.trans hp'; exact ⟨rfl, rfl, rfl⟩
    | item hp' h' => cases hp.symm.trans hp'
  | item hp h ih =>
    cases h' with
    | more hp' => cases hp.symm.trans hp'
    | halt hp' => cases hp.symm.trans hp'
    | item hp' h' =>
      cases hp.symm.trans hp'
      obtain ⟨rfl, rfl, rfl⟩ := ih h'
      exact ⟨rfl, rfl, rfl⟩

/-- A loop that ends has taken symbols with each item. -/
theorem Drains.lt_length {i : ι} {n : ℕ} (h : Drains parse (s.drop n) is rest e)
    (hp : parse s = .item i n) : (s.drop n).length < s.length := by
  by_contra hlen
  rw [List.length_drop] at hlen
  have hsame : s.drop n = s := by
    rcases Nat.eq_zero_or_pos n with rfl | hn
    · exact List.drop_zero
    · rw [List.length_eq_zero_iff.mp (by omega : s.length = 0), List.drop_nil]
  -- otherwise the loop would go on as it began, with one item more
  have hcons : Drains parse s (i :: is) rest e := .item hp h
  rw [hsame] at h
  exact List.cons_ne_self _ _ (hcons.unique h).1

theorem Drains.length_le (h : Drains parse s is rest e) : is.length ≤ s.length := by
  induction h with
  | more hp => exact Nat.zero_le _
  | halt hp => exact Nat.zero_le _
  | item hp h ih =>
    have := h.lt_length hp
    rw [List.length_cons]
    omega

theorem Drains.length_rest_le (h : Drains parse s is rest e) : rest.length ≤ s.length := by
  induction h with
  | more hp => exact Nat.le_refl _
  | halt hp => exact Nat.le_refl _
  | item hp h ih =>
    rw [List.length_drop] at ih
    omega

theorem drains_of_drain (h : drain parse fuel s = some (is, rest, e)) :
    Drains parse s is rest e := by
  induction fuel generalizing s is with
  | zero => cases h
  | succ fuel ih =>
    unfold drain at h
    cases hp : parse s with
    | more => rw [hp] at h; cases h; exact .more hp
    | halt e => rw [hp] at h; cases h; exact .halt hp
    | item i n =>
      rw [hp] at h
      obtain ⟨r, hr, heq⟩ := Option.map_eq_some_iff.mp h
      rcases r with ⟨js, q⟩
      obtain ⟨rfl, rfl⟩ := Prod.mk.inj heq
      exact .item hp (ih hr)

theorem Drains.drain (h : Drains parse s is rest e) (hfuel : is.length < fuel) :
    drain parse fuel s = some (is, rest, e) := by
  induction h generalizing fuel with
  | more hp =>
    obtain ⟨fuel, rfl⟩ := Nat.exists_eq_add_of_lt hfuel
    unfold Incremental.drain
    rw [hp]
  | halt hp =>
    obtain ⟨fuel, rfl⟩ := Nat.exists_eq_add_of_lt hfuel
    unfold Incremental.drain
    rw [hp]
  | item hp h ih =>
    cases fuel with
    | zero => exact absurd hfuel (Nat.not_lt_zero _)
    | succ fuel =>
      unfold Incremental.drain
      rw [hp]
      simp only [ih (Nat.lt_of_succ_lt_succ hfuel), Option.map_some]

/-- **Enough fuel.** One round more than the buffer has symbols. -/
theorem drain_eq_some_iff (hfuel : s.length < fuel) :
    drain parse fuel s = some (is, rest, e) ↔ Drains parse s is rest e :=
  ⟨drains_of_drain, fun h => h.drain (Nat.lt_of_le_of_lt h.length_le hfuel)⟩

/-! ## Stable parsers -/

/-- An outcome other than `more` does not depend on what follows. -/
structure Stable (parse : List α → Outcome ι ε) : Prop where
  halt : ∀ {s : List α} {e : ε} (t : List α), parse s = .halt e → parse (s ++ t) = .halt e
  item : ∀ {s : List α} {i : ι} {n : ℕ} (t : List α),
    parse s = .item i n → n ≤ s.length ∧ parse (s ++ t) = .item i n

/-- What is left waits for more input. -/
theorem Drains.more_rest (h : Drains parse s is rest none) : parse rest = .more := by
  generalize hx : (none : Option ε) = o at h
  induction h with
  | more hp => exact hp
  | halt hp => cases hx
  | item hp h ih => exact ih hx

section Stable

variable (hst : Stable parse)
include hst

/-- The reason for stopping stays. -/
theorem Stable.halt_append {x : ε} (h : Drains parse s is rest (some x)) (t : List α) :
    Drains parse (s ++ t) is (rest ++ t) (some x) := by
  generalize hx : some x = e at h
  induction h with
  | more hp => cases hx
  | halt hp =>
    cases hx
    exact .halt (hst.halt t hp)
  | item hp h ih =>
    obtain ⟨hn, hp'⟩ := hst.item t hp
    refine .item hp' ?_
    rw [List.drop_append_of_le_length hn]
    exact ih hx

/-- With more input the loop goes on where it stopped. -/
theorem Stable.append (h : Drains parse s is rest none) :
    Drains parse (s ++ t) js rest' e ↔
      ∃ ks, js = is ++ ks ∧ Drains parse (rest ++ t) ks rest' e := by
  generalize hx : (none : Option ε) = o at h
  induction h generalizing js with
  | more hp =>
    exact ⟨fun h => ⟨js, rfl, h⟩, fun ⟨ks, hks, h⟩ => hks ▸ h⟩
  | halt hp => cases hx
  | item hp h ih =>
    obtain ⟨hn, hp'⟩ := hst.item t hp
    constructor
    · intro h'
      cases h' with
      | more hp'' => cases hp'.symm.trans hp''
      | halt hp'' => cases hp'.symm.trans hp''
      | item hp'' h'' =>
        cases hp'.symm.trans hp''
        rw [List.drop_append_of_le_length hn] at h''
        obtain ⟨ks, rfl, hks⟩ := (ih hx).mp h''
        exact ⟨ks, rfl, hks⟩
    · rintro ⟨ks, rfl, hks⟩
      refine .item hp' ?_
      rw [List.drop_append_of_le_length hn]
      exact (ih hx).mpr ⟨ks, rfl, hks⟩

/-- What the loop takes from a prefix it takes from the whole. -/
theorem Stable.isPrefix (h : Drains parse s is rest e) (h' : Drains parse (s ++ t) js rest' e') :
    is <+: js := by
  cases e with
  | some x =>
    obtain ⟨rfl, -⟩ := h'.unique (hst.halt_append h t)
    exact List.prefix_refl _
  | none =>
    obtain ⟨ks, rfl, -⟩ := (hst.append h).mp h'
    exact List.prefix_append _ _

/-- A buffer on which the loop ends has only prefixes on which it ends. -/
theorem Stable.exists_drains_prefix (h : Drains parse (s ++ t) is rest e) :
    ∃ js rest' e', Drains parse s js rest' e' := by
  generalize hu : s ++ t = u at h
  induction h generalizing s with
  | more hp =>
    subst hu
    cases hs : parse s with
    | more => exact ⟨[], s, none, .more hs⟩
    | halt x => exact ⟨[], s, some x, .halt hs⟩
    | item i n => cases hp.symm.trans (hst.item t hs).2
  | halt hp =>
    subst hu
    cases hs : parse s with
    | more => exact ⟨[], s, none, .more hs⟩
    | halt x => exact ⟨[], s, some x, .halt hs⟩
    | item i n => cases hp.symm.trans (hst.item t hs).2
  | @item s₀ i n is rest e hp h ih =>
    subst hu
    cases hs : parse s with
    | more => exact ⟨[], s, none, .more hs⟩
    | halt x => exact ⟨[], s, some x, .halt hs⟩
    | item i' n' =>
      obtain ⟨hn, hp'⟩ := hst.item t hs
      cases hp'.symm.trans hp
      obtain ⟨js, rest', e', hd⟩ := ih (List.drop_append_of_le_length hn).symm
      exact ⟨_, _, _, .item hs hd⟩

/-- Where the whole does not stop the loop, a prefix does not. -/
theorem Stable.drains_prefix (h : Drains parse (s ++ t) is rest none) :
    ∃ js rest', Drains parse s js rest' none ∧ js <+: is := by
  obtain ⟨js, rest', e', hd⟩ := hst.exists_drains_prefix h
  cases e' with
  | some x => cases (h.unique (hst.halt_append hd t)).2.2
  | none => exact ⟨js, rest', hd, hst.isPrefix hd h⟩

end Stable

end Incremental
