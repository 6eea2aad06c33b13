import Csrv.Lib.Threads

/-!
# Components that share an object

Numbered components take steps one at a time, and in its steps a component calls an object that
all of them share.

1. `Legal obj u log u'`: the calls of `log`, with their results, are calls of the object, one
   after the other.
2. `Path move c log c'`: a component on its own, whose steps are labelled with the calls it makes
   and the results it gets.
3. `Recorded`: whatever the order of the steps, the calls of all are legal, and each component has
   taken a path that is labelled with its own part of them.
-/

namespace Shared

variable {σ τ μ ρ α : Type*}

/-- Calls and their results, from one state of the object to another. -/
inductive Legal (obj : τ → μ → τ × ρ) : τ → List (μ × ρ) → τ → Prop
  | nil {u : τ} : Legal obj u [] u
  | cons {u u' : τ} {m : μ} {log : List (μ × ρ)} :
      Legal obj (obj u m).1 log u' → Legal obj u ((m, (obj u m).2) :: log) u'

/-- The steps of a component, with the calls of each. -/
inductive Path (move : σ → List (μ × ρ) → σ → Prop) : σ → List (μ × ρ) → σ → Prop
  | refl {c : σ} : Path move c [] c
  | tail {c c' c'' : σ} {log log' : List (μ × ρ)} :
      Path move c log c' → move c' log' c'' → Path move c (log ++ log') c''

/-- What belongs to component `k`. -/
def part (k : ℕ) (log : List (ℕ × α)) : List α := (log.filter (·.1 = k)).map Prod.snd

section Part

variable {k : ℕ} {log log' : List (ℕ × α)} {calls : List α}

theorem part_append : part k (log ++ log') = part k log ++ part k log' := by
  unfold part
  rw [List.filter_append, List.map_append]

theorem part_same : part k (calls.map (k, ·)) = calls := by
  unfold part
  rw [List.filter_eq_self.mpr, List.map_map]
  · exact List.map_id _
  · rintro e he
    obtain ⟨c, -, rfl⟩ := List.mem_map.mp he
    exact decide_eq_true rfl

theorem part_eq_nil (h : ∀ e ∈ log, e.1 ≠ k) : part k log = [] := by
  unfold part
  rw [List.filter_eq_nil_iff.mpr, List.map_nil]
  exact fun e he => by simpa using h e he

end Part

variable {obj : τ → μ → τ × ρ} {move : σ → List (μ × ρ) → σ → Prop}

theorem Legal.append {u u' u'' : τ} {log log' : List (μ × ρ)} (h : Legal obj u log u')
    (h' : Legal obj u' log' u'') : Legal obj u (log ++ log') u'' := by
  induction h with
  | nil => exact h'
  | cons h ih => exact .cons (ih h')

/-- Components `cs` that began as `inits`, the state `u` of the object, and all calls so far. -/
structure Recorded (obj : τ → μ → τ × ρ) (move : σ → List (μ × ρ) → σ → Prop) (u₀ : τ)
    (inits : List σ) (log : List (ℕ × μ × ρ)) (cs : List σ) (u : τ) : Prop where
  legal : Legal obj u₀ (log.map Prod.snd) u
  length : cs.length = inits.length
  bound : ∀ e ∈ log, e.1 < inits.length
  path : Threads.All (fun k c => ∀ c₀, inits[k]? = some c₀ → Path move c₀ (part k log) c) cs

section Recorded

variable {u₀ u u' : τ} {inits cs : List σ} {log : List (ℕ × μ × ρ)}

theorem recorded_nil : Recorded obj move u [] [] [] u where
  legal := .nil
  length := rfl
  bound _ h := absurd h List.not_mem_nil
  path := Threads.all_nil

/-- A new component. -/
theorem Recorded.concat (h : Recorded obj move u₀ inits log cs u) (c : σ) :
    Recorded obj move u₀ (inits ++ [c]) log (cs ++ [c]) u where
  legal := h.legal
  length := by simp only [List.length_append, h.length, List.length_singleton]
  bound e he := by
    have := h.bound e he
    rw [List.length_append]
    omega
  path := by
    have hnew : part cs.length log = [] := part_eq_nil fun e he heq => by
      have := h.bound e he
      rw [← h.length] at this
      omega
    refine Threads.All.concat ?_ ?_
    · intro k c' hc' c₀ hc₀
      obtain ⟨hk, -⟩ := List.getElem?_eq_some_iff.mp hc'
      rw [List.getElem?_append_left (by rw [← h.length]; exact hk)] at hc₀
      exact h.path k c' hc' c₀ hc₀
    · intro c₀ hc₀
      rw [h.length, List.getElem?_concat_length] at hc₀
      cases hc₀
      rw [hnew]
      exact .refl

/-- A step of component `k`. -/
theorem Recorded.step (h : Recorded obj move u₀ inits log cs u) {k : ℕ} {c c' : σ}
    {calls : List (μ × ρ)} (hk : cs[k]? = some c) (hmove : move c calls c')
    (hlegal : Legal obj u calls u') :
    Recorded obj move u₀ inits (log ++ calls.map (k, ·)) (cs.set k c') u' where
  legal := by
    rw [List.map_append, List.map_map]
    refine h.legal.append ?_
    rw [show Prod.snd ∘ (fun e : μ × ρ => (k, e)) = id from rfl, List.map_id]
    exact hlegal
  length := by rw [List.length_set, h.length]
  bound e he := by
    rcases List.mem_append.mp he with he | he
    · exact h.bound e he
    · obtain ⟨call, -, rfl⟩ := List.mem_map.mp he
      rw [← h.length]
      exact (List.getElem?_eq_some_iff.mp hk).1
  path := by
    intro j d hd c₀ hc₀
    rw [part_append]
    obtain ⟨rfl, rfl⟩ | ⟨hj, hd⟩ := Threads.getElem?_set_some hd
    · rw [part_same]
      exact .tail (h.path j c hk c₀ hc₀) hmove
    · have hother : part j (calls.map (k, ·)) = [] := part_eq_nil fun e he heq => by
        obtain ⟨call, -, rfl⟩ := List.mem_map.mp he
        exact hj heq.symm
      rw [hother, List.append_nil]
      exact h.path j d hd c₀ hc₀

end Recorded

end Shared
