import Mathlib.Algebra.BigOperators.Group.List.Basic
import Mathlib.Algebra.GroupWithZero.Nat

/-!
# Threads and a lock

Numbered threads as a list that only grows, and the argument for mutual exclusion.

1. `All P ws`: every thread `ws[t]` satisfies `P t`; the rules for a change of one thread and for
   a new thread.
2. `total f ws`: the sum of a quantity over the threads, and how it changes.
3. `Guards owner inside`: only the owner of the lock is inside its critical section; one rule for
   each kind of step.
-/

namespace Threads

variable {α ι : Type*}

/-! ## All threads -/

def All (P : ℕ → α → Prop) (ws : List α) : Prop := ∀ t w, ws[t]? = some w → P t w

section All

variable {P Q : ℕ → α → Prop} {ws : List α} {t : ℕ} {w : α}

theorem all_nil : All P [] := fun _ _ h => by simp at h

theorem All.imp (h : All P ws) (hPQ : ∀ t w, ws[t]? = some w → P t w → Q t w) : All Q ws :=
  fun t w hw => hPQ t w hw (h t w hw)

theorem getElem?_set_some {u : ℕ} {v : α} (h : (ws.set t w)[u]? = some v) :
    (u = t ∧ v = w) ∨ (u ≠ t ∧ ws[u]? = some v) := by
  by_cases hu : u = t
  · subst hu
    rw [List.getElem?_set_self'] at h
    obtain ⟨_, -, rfl⟩ := Option.map_eq_some_iff.mp h
    exact .inl ⟨rfl, rfl⟩
  · rw [List.getElem?_set_ne (Ne.symm hu)] at h
    exact .inr ⟨hu, h⟩

/-- Thread `t` changes to `w`. -/
theorem All.set (h : All P ws) (ht : P t w) : All P (ws.set t w) := by
  intro u v hv
  obtain ⟨rfl, rfl⟩ | ⟨-, hv⟩ := getElem?_set_some hv
  · exact ht
  · exact h u v hv

theorem getElem?_concat_some {u : ℕ} {v : α} (h : (ws ++ [w])[u]? = some v) :
    (u = ws.length ∧ v = w) ∨ ws[u]? = some v := by
  rw [List.getElem?_append] at h
  split at h
  · exact .inr h
  · obtain ⟨hu, rfl⟩ := List.getElem?_eq_some_iff.mp h
    rw [List.length_singleton] at hu
    exact .inl ⟨by omega, List.getElem_singleton _⟩

/-- A new thread `w`. -/
theorem All.concat (h : All P ws) (ht : P ws.length w) : All P (ws ++ [w]) := by
  intro u v hv
  obtain ⟨rfl, rfl⟩ | hv := getElem?_concat_some hv
  · exact ht
  · exact h u v hv

end All

/-! ## Totals -/

def total (f : α → ℕ) (ws : List α) : ℕ := (ws.map f).sum

section Total

variable {f g : α → ℕ} {ws : List α} {t : ℕ} {v w : α}

theorem total_concat : total f (ws ++ [w]) = total f ws + f w := by simp [total]

theorem total_congr (h : ∀ w ∈ ws, f w = g w) : total f ws = total g ws := by
  unfold total
  rw [List.map_congr_left h]

/-- How a total changes when thread `t` changes from `v` to `w`. -/
theorem total_set (ht : ws[t]? = some v) : total f (ws.set t w) + f v = total f ws + f w := by
  unfold total
  induction ws generalizing t with
  | nil => simp at ht
  | cons x ws ih =>
    cases t with
    | zero =>
      rw [List.getElem?_cons_zero] at ht
      cases ht
      simp only [List.set_cons_zero, List.map_cons, List.sum_cons]
      omega
    | succ t =>
      have := ih (by simpa using ht)
      simp only [List.set_cons_succ, List.map_cons, List.sum_cons]
      omega

end Total

/-! ## A lock -/

/-- Only the owner is inside. -/
def Guards (owner : Option ι) (inside : ι → Prop) : Prop := ∀ a, inside a → owner = some a

namespace Guards

variable {owner owner' : Option ι} {inside inside' : ι → Prop} {a b : ι}

theorem unique (h : Guards owner inside) (ha : inside a) (hb : inside b) : a = b :=
  Option.some.inj ((h a ha).symm.trans (h b hb))

/-- A step in which nobody enters and the lock stays. -/
theorem keep (h : Guards owner inside) (hi : ∀ b, inside' b → inside b) : Guards owner inside' :=
  fun b hb => h b (hi b hb)

/-- `a` takes the free lock. -/
theorem acquire (h : Guards none inside) (hi : ∀ b, inside' b → b = a ∨ inside b) :
    Guards (some a) inside' := by
  intro b hb
  obtain rfl | hb := hi b hb
  · rfl
  · exact absurd (h b hb) (by simp)

/-- `a`, which is inside, leaves. -/
theorem release (h : Guards owner inside) (ha : inside a)
    (hi : ∀ b, inside' b → b ≠ a ∧ inside b) : Guards owner' inside' := by
  intro b hb
  obtain ⟨hne, hb⟩ := hi b hb
  exact absurd (h.unique hb ha) hne

/-- The lock is initialised while nobody is inside. -/
theorem reset (h : ∀ b, ¬ inside b) (hi : ∀ b, inside' b → inside b) : Guards owner' inside' :=
  fun b hb => absurd (hi b hb) (h b)

end Guards

end Threads
