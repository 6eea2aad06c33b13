import Mathlib.Data.List.TakeWhile
import Mathlib.Order.Lattice

/-!
# Sorted multimaps

Entries sorted by key, by a field of the structure. A new entry comes behind those with the same
key, so the entries of a key stay in the order they came in. Erasing a key erases all its entries.
-/

structure Multimap (κ ν : Type*) [LinearOrder κ] where
  entries : List (κ × ν)
  sorted : entries.Pairwise fun e e' => e.1 ≤ e'.1

namespace Multimap

variable {κ ν : Type*} [LinearOrder κ]

def empty : Multimap κ ν := ⟨[], .nil⟩

section Split

variable {l : List (κ × ν)} {k : κ}

theorem takeWhile_le : ∀ e ∈ l.takeWhile (·.1 ≤ k), e.1 ≤ k := fun e he => by
  simpa using List.mem_takeWhile_imp he

theorem lt_of_mem_dropWhile (h : l.Pairwise fun e e' => e.1 ≤ e'.1) :
    ∀ e ∈ l.dropWhile (·.1 ≤ k), k < e.1 := by
  induction l with
  | nil => exact fun e he => absurd he List.not_mem_nil
  | cons d l ih =>
    obtain ⟨hd, hl⟩ := List.pairwise_cons.mp h
    intro e he
    by_cases hk : d.1 ≤ k
    · rw [List.dropWhile_cons_of_pos (by simpa using hk)] at he
      exact ih hl e he
    · rw [List.dropWhile_cons_of_neg (by simpa using hk)] at he
      rcases List.mem_cons.mp he with rfl | he
      · exact lt_of_not_ge hk
      · exact (lt_of_not_ge hk).trans_le (hd e he)

theorem pairwise_insert (h : l.Pairwise fun e e' => e.1 ≤ e'.1) (v : ν) :
    (l.takeWhile (·.1 ≤ k) ++ (k, v) :: l.dropWhile (·.1 ≤ k)).Pairwise
      fun e e' => e.1 ≤ e'.1 := by
  rw [List.pairwise_append, List.pairwise_cons]
  refine ⟨h.sublist (List.takeWhile_sublist _),
    ⟨fun e he => (lt_of_mem_dropWhile h e he).le, h.sublist (List.dropWhile_sublist _)⟩,
    fun d hd e he => ?_⟩
  rcases List.mem_cons.mp he with rfl | he
  · exact takeWhile_le d hd
  · exact (takeWhile_le d hd).trans (lt_of_mem_dropWhile h e he).le

end Split

def insert (m : Multimap κ ν) (k : κ) (v : ν) : Multimap κ ν :=
  ⟨m.entries.takeWhile (·.1 ≤ k) ++ (k, v) :: m.entries.dropWhile (·.1 ≤ k),
    pairwise_insert m.sorted v⟩

def erase (m : Multimap κ ν) (k : κ) : Multimap κ ν :=
  ⟨m.entries.filter (·.1 ≠ k), m.sorted.sublist List.filter_sublist⟩

/-- The entries of a key. -/
def of (m : Multimap κ ν) (k : κ) : List (κ × ν) := m.entries.filter (·.1 = k)

variable {m : Multimap κ ν} {k k' : κ} {v : ν}

theorem perm_insert : (m.insert k v).entries.Perm ((k, v) :: m.entries) := by
  refine List.perm_middle.trans (List.Perm.cons _ ?_)
  rw [List.takeWhile_append_dropWhile]

theorem perm_erase : m.entries.Perm (m.of k ++ (m.erase k).entries) := by
  have h := (List.filter_append_perm (fun e : κ × ν => decide (e.1 = k)) m.entries).symm
  simpa [of, erase] using h

@[simp] theorem of_erase_self : (m.erase k).of k = [] := by
  unfold of erase
  rw [List.filter_filter, List.filter_eq_nil_iff]
  simp

theorem of_erase_of_ne (h : k' ≠ k) : (m.erase k).of k' = m.of k' := by
  unfold of erase
  rw [List.filter_filter]
  refine List.filter_congr fun e he => ?_
  by_cases hk : e.1 = k'
  · simp [hk, h]
  · simp [hk]

end Multimap
