import Mathlib.Logic.Function.Basic
import Mathlib.Data.List.Nodup

/-!
# Lists threaded through an array

A singly linked list whose cells are array slots. `Seg next p l q` says that following `next` from
the pointer `p` visits exactly the slots `l`, in order, and arrives at the pointer `q`; a whole
list ends at `none`. The lemmas are the two writes such lists are built with: redirecting the link
of the last cell, and updating slots the list does not visit.
-/

namespace Threaded

variable {ι : Type*}

/-- Following `next` from `p` visits `l` and arrives at `q`. -/
def Seg (next : ι → Option ι) : Option ι → List ι → Option ι → Prop
  | p, [], q => p = q
  | p, i :: l, q => p = some i ∧ Seg next (next i) l q

variable {next next' : ι → Option ι} {p q r : Option ι} {l l' : List ι} {i : ι}

@[simp] theorem seg_nil : Seg next p [] q ↔ p = q := Iff.rfl

@[simp] theorem seg_cons : Seg next p (i :: l) q ↔ p = some i ∧ Seg next (next i) l q := Iff.rfl

theorem seg_append : Seg next p (l ++ l') q ↔ ∃ r, Seg next p l r ∧ Seg next r l' q := by
  induction l generalizing p with
  | nil => simp
  | cons i l ih => simp [ih, and_assoc]

theorem seg_concat : Seg next p (l ++ [i]) q ↔ Seg next p l (some i) ∧ next i = q := by
  simp [seg_append]

theorem seg_congr (h : ∀ i ∈ l, next i = next' i) : Seg next p l q ↔ Seg next' p l q := by
  induction l generalizing p with
  | nil => rfl
  | cons i l ih =>
    rw [seg_cons, seg_cons, h i List.mem_cons_self, ih fun j hj => h j (List.mem_cons_of_mem i hj)]

/-- The slots and the end of a segment determine the pointer it starts from. -/
theorem seg_start (h : Seg next p l q) : p = if l = [] then q else l.head? := by
  cases l with
  | nil => exact h
  | cons i l => simpa using h.1

section Write

variable [DecidableEq ι]

/-- A write to a slot the segment does not visit. -/
theorem seg_update_of_not_mem (h : i ∉ l) :
    Seg (Function.update next i r) p l q ↔ Seg next p l q :=
  seg_congr fun j hj => Function.update_of_ne (fun e : j = i => h (e ▸ hj)) _ _

/-- Redirecting the link of the last cell. -/
theorem seg_update_last (hn : i ∉ l) (h : Seg next p (l ++ [i]) q) :
    Seg (Function.update next i r) p (l ++ [i]) r := by
  rw [seg_concat] at h ⊢
  exact ⟨(seg_update_of_not_mem hn).mpr h.1, Function.update_self ..⟩

/-- Redirecting the last link, or the start if there is none, changes where the list arrives. -/
theorem seg_redirect (hn : l.Nodup) (h : Seg next p l q)
    (hnext : ∀ j ∈ l, next' j = if l.getLast? = some j then r else next j) :
    Seg next' (if l.getLast? = none then r else p) l r := by
  rcases List.eq_nil_or_concat l with rfl | ⟨l, i, rfl⟩
  · exact if_pos rfl
  · rw [List.concat_eq_append] at *
    rw [List.getLast?_concat] at hnext ⊢
    have hi : i ∉ l := fun hi =>
      (List.nodup_append.mp hn).2.2 i hi i (List.mem_singleton_self i) rfl
    rw [if_neg (Option.some_ne_none i)]
    refine (seg_congr fun j hj => ?_).mpr (seg_update_last hi h)
    rw [hnext j hj]
    by_cases hji : j = i
    · rw [if_pos (congrArg some hji.symm), hji, Function.update_self]
    · rw [if_neg fun e => hji (Option.some.inj e).symm, Function.update_of_ne hji]

end Write

end Threaded
