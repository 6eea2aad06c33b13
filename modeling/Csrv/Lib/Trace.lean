import Mathlib.Algebra.Order.Group.Int
import Mathlib.Data.List.Infix

/-!
# Traces

Two ways to speak about the events of a run.

1. `Guarded`: every event meets a condition on the events before it.
2. `balance`: the number of acquiring events minus the number of releasing events. The
   predicate `releases` of an event and its `acquires` are left to the user.
-/

namespace Trace

variable {ε : Type*}

/-! ## Guarded traces -/

/-- Every event of the trace meets its guard, which sees the events before it. -/
def Guarded (g : List ε → ε → Prop) (tr : List ε) : Prop :=
  ∀ pre e post, tr = pre ++ e :: post → g pre e

variable {g : List ε → ε → Prop} {e : ε} {s t : List ε}

theorem guarded_nil : Guarded g [] := by
  intro pre e post h
  simp at h

theorem guarded_concat_iff : Guarded g (t ++ [e]) ↔ Guarded g t ∧ g t e := by
  constructor
  · intro h
    refine ⟨fun pre d post ht => h pre d (post ++ [e]) ?_, h t e [] rfl⟩
    rw [ht, List.append_assoc, List.cons_append]
  · rintro ⟨h, he⟩ pre d post ht
    rcases List.eq_nil_or_concat post with rfl | ⟨post, d', rfl⟩
    · obtain ⟨rfl, hd⟩ := List.append_inj' ht rfl
      obtain rfl := List.singleton_inj.mp hd
      exact he
    · refine h pre d post ?_
      rw [List.concat_eq_append, ← List.cons_append, ← List.append_assoc] at ht
      exact (List.append_inj' ht rfl).1

/-! ## Balances -/

section Balance

variable (acquires releases : ε → Bool)

/-- Acquired minus released. -/
def balance (tr : List ε) : ℤ := (tr.countP acquires : ℤ) - tr.countP releases

/-- What one event adds to the balance. -/
def weight (e : ε) : ℤ := (if acquires e then 1 else 0) - if releases e then 1 else 0

@[simp] theorem balance_nil : balance acquires releases ([] : List ε) = 0 := rfl

@[simp] theorem balance_append :
    balance acquires releases (s ++ t) =
      balance acquires releases s + balance acquires releases t := by
  unfold balance
  rw [List.countP_append, List.countP_append]
  omega

@[simp] theorem balance_cons :
    balance acquires releases (e :: t) =
      weight acquires releases e + balance acquires releases t := by
  unfold balance weight
  rw [List.countP_cons, List.countP_cons]
  split_ifs <;> omega

end Balance

end Trace
