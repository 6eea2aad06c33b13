import Mathlib.Order.Basic

/-!
# Runs of transition systems

Two kinds of machine and the rules their verification needs.

1. `Reach`: states reached by labelled steps that each meet a condition `ok` on the state before
   the step. With `ok = Free` these are all the reachable states.
2. `feed`: a machine that consumes a list of inputs and returns an output for each, with the
   rules that carry an invariant, totality and a simulation from one step to a whole run.
-/

namespace Run

variable {σ τ α ι ο π : Type*}

/-! ## Reachability under a step condition -/

/-- The states that steps meeting `ok` reach from an initial state. -/
inductive Reach (init : σ → Prop) (step : σ → α → Option σ) (ok : σ → α → Prop) : σ → Prop
  | init {s : σ} : init s → Reach init step ok s
  | step {s s' : σ} {a : α} :
      Reach init step ok s → step s a = some s' → ok s a → Reach init step ok s'

/-- No condition on the steps. -/
def Free (_ : σ) (_ : α) : Prop := True

instance (s : σ) (a : α) : Decidable (Free s a) := .isTrue trivial

variable {init : σ → Prop} {step : σ → α → Option σ} {ok : σ → α → Prop}

/-- **Invariant rule.** -/
theorem Reach.invariant {I : σ → Prop} (h0 : ∀ s, init s → I s)
    (hI : ∀ s a s', I s → step s a = some s' → ok s a → I s') {s : σ}
    (hs : Reach init step ok s) : I s := by
  induction hs with
  | init hi => exact h0 _ hi
  | step _ hst hok ih => exact hI _ _ _ ih hst hok

/-- The invariant rule relative to an invariant `J` already known. -/
theorem Reach.invariant_under {I J : σ → Prop} (hJ : ∀ s, Reach init step ok s → J s)
    (h0 : ∀ s, init s → I s)
    (hI : ∀ s a s', J s → I s → step s a = some s' → ok s a → I s') {s : σ}
    (hs : Reach init step ok s) : I s := by
  induction hs with
  | init hi => exact h0 _ hi
  | step hr hst hok ih => exact hI _ _ _ (hJ _ hr) ih hst hok

/-- The state after a list of labels. -/
def exec (step : σ → α → Option σ) : σ → List α → Option σ
  | s, [] => some s
  | s, a :: as => (step s a).bind fun s' => exec step s' as

theorem exec_append {s : σ} {as bs : List α} :
    exec step s (as ++ bs) = (exec step s as).bind fun s' => exec step s' bs := by
  induction as generalizing s with
  | nil => rfl
  | cons a as ih => simp only [List.cons_append, exec, ih, Option.bind_assoc]

/-- The steps that meet `ok`. -/
def guarded (step : σ → α → Option σ) (ok : σ → α → Prop) [∀ s a, Decidable (ok s a)] (s : σ)
    (a : α) : Option σ :=
  if ok s a then step s a else none

theorem Reach.exec [∀ s a, Decidable (ok s a)] {s s' : σ} {as : List α}
    (hs : Reach init step ok s) (h : exec (guarded step ok) s as = some s') :
    Reach init step ok s' := by
  induction as generalizing s with
  | nil => cases h; exact hs
  | cons a as ih =>
    obtain ⟨t, ht, h⟩ := Option.bind_eq_some_iff.mp h
    unfold guarded at ht
    split_ifs at ht with hok
    exact ih (.step hs ht hok) h

/-- What is seen of the state after a list of labels is seen of a reachable state. -/
theorem Reach.exec_map [∀ s a, Decidable (ok s a)] {β : Type*} {f : σ → β} {b : β} {s : σ}
    {as : List α} (hs : Reach init step ok s)
    (h : (Run.exec (guarded step ok) s as).map f = some b) :
    ∃ s', Reach init step ok s' ∧ f s' = b := by
  obtain ⟨s', hexec, hb⟩ := Option.map_eq_some_iff.mp h
  exact ⟨s', hs.exec hexec, hb⟩

/-- What `obs` sees of each step of a run. -/
def seen {β : Type*} (step : σ → α → Option σ) (obs : σ → α → β) : σ → List α → List β
  | _, [] => []
  | s, a :: as => obs s a :: ((step s a).map fun s' => seen step obs s' as).getD []

theorem seen_concat {β : Type*} {obs : σ → α → β} {s s' : σ} {as : List α} {a : α}
    (h : exec step s as = some s') :
    seen step obs s (as ++ [a]) = seen step obs s as ++ [obs s' a] := by
  induction as generalizing s with
  | nil =>
    cases h
    rw [List.nil_append, seen, seen]
    cases step s' a with
    | none => rfl
    | some _ => rfl
  | cons b as ih =>
    obtain ⟨s₁, h₁, h⟩ := Option.bind_eq_some_iff.mp h
    rw [List.cons_append, seen, seen, h₁]
    exact congrArg (obs s b :: ·) (ih h)

/-- A step that never fails from `I` and keeps it, where `I` speaks of the state and of what has been
seen, makes every list of labels succeed in `I`. -/
theorem exec_seen {β : Type*} {obs : σ → α → β} {I : List β → σ → Prop} {ok : α → Prop}
    (h : ∀ bs s a, I bs s → ok a → ∃ s', step s a = some s' ∧ I (bs ++ [obs s a]) s')
    {bs : List β} {s : σ} {as : List α} (hs : I bs s) (hok : ∀ a ∈ as, ok a) :
    ∃ s', exec step s as = some s' ∧ I (bs ++ seen step obs s as) s' := by
  induction as generalizing bs s with
  | nil => exact ⟨s, rfl, by rwa [seen, List.append_nil]⟩
  | cons a as ih =>
    obtain ⟨s₁, h₁, hI⟩ := h bs s a hs (hok a List.mem_cons_self)
    obtain ⟨s', h₂, hI'⟩ := ih hI fun b hb => hok b (List.mem_cons_of_mem a hb)
    refine ⟨s', by rw [exec, h₁]; exact h₂, ?_⟩
    rw [seen, h₁]
    simpa only [Option.map_some, Option.getD_some, List.append_assoc, List.singleton_append]
      using hI'

/-! ## Machines with outputs -/

/-- Feeds the inputs in order and collects the outputs. -/
def feed (step : σ → ι → Option (σ × ο)) : σ → List ι → Option (σ × List ο)
  | s, [] => some (s, [])
  | s, i :: is =>
    (step s i).bind fun r => (feed step r.1 is).map fun q => (q.1, r.2 :: q.2)

section Feed

variable {step : σ → ι → Option (σ × ο)}

theorem feed_cons_iff {s s' : σ} {i : ι} {is : List ι} {os : List ο} :
    feed step s (i :: is) = some (s', os) ↔
      ∃ s₁ o os', step s i = some (s₁, o) ∧ feed step s₁ is = some (s', os') ∧ os = o :: os' := by
  simp only [feed, Option.bind_eq_some_iff, Option.map_eq_some_iff, Prod.mk.injEq, Prod.exists]
  constructor
  · rintro ⟨s₁, o, h, s₂, os', h', rfl, rfl⟩
    exact ⟨s₁, o, os', h, h', rfl⟩
  · rintro ⟨s₁, o, os', h, h', rfl⟩
    exact ⟨s₁, o, h, s', os', h', rfl, rfl⟩

theorem feed_append {s s₁ s' : σ} {is js : List ι} {os os' : List ο}
    (h : feed step s is = some (s₁, os)) (h' : feed step s₁ js = some (s', os')) :
    feed step s (is ++ js) = some (s', os ++ os') := by
  induction is generalizing s os with
  | nil => cases h; exact h'
  | cons i is ih =>
    obtain ⟨s₂, o, os₂, h₁, h₂, rfl⟩ := feed_cons_iff.mp h
    exact feed_cons_iff.mpr ⟨s₂, o, os₂ ++ os', h₁, ih h₂, rfl⟩

/-- **Run rule.** A step that keeps `I` and never fails from it makes every run succeed in `I`. -/
theorem feed_total {I : σ → Prop} {ok : ι → Prop}
    (h : ∀ s i, I s → ok i → ∃ s' o, step s i = some (s', o) ∧ I s') {s : σ} {is : List ι}
    (hs : I s) (hok : ∀ i ∈ is, ok i) : ∃ s' os, feed step s is = some (s', os) ∧ I s' := by
  induction is generalizing s with
  | nil => exact ⟨s, [], rfl, hs⟩
  | cons i is ih =>
    obtain ⟨s₁, o, h₁, hI⟩ := h s i hs (hok i List.mem_cons_self)
    obtain ⟨s', os, h₂, hI'⟩ := ih hI fun j hj => hok j (List.mem_cons_of_mem i hj)
    exact ⟨s', o :: os, feed_cons_iff.mpr ⟨s₁, o, os, h₁, h₂, rfl⟩, hI'⟩

/-- An invariant of the steps taken holds at the end of a run. -/
theorem feed_invariant {I : σ → Prop} (h : ∀ s i s' o, I s → step s i = some (s', o) → I s')
    {s s' : σ} {is : List ι} {os : List ο} (hs : I s) (hf : feed step s is = some (s', os)) :
    I s' := by
  induction is generalizing s os with
  | nil => cases hf; exact hs
  | cons i is ih =>
    obtain ⟨s₁, o, os', h₁, h₂, -⟩ := feed_cons_iff.mp hf
    exact ih (h _ _ _ _ hs h₁) h₂

/-- **Refinement rule.** If every output meets what is said of it in terms of an abstract state,
then so do all outputs of a run. -/
theorem feed_meets (effect : τ → ι → τ) (meets : τ → ι → ο → Prop) (R : σ → τ → Prop)
    {ok : ι → Prop}
    (h : ∀ s t i, R s t → ok i →
      ∃ s' o, step s i = some (s', o) ∧ R s' (effect t i) ∧ meets t i o)
    {s : σ} {t : τ} {is : List ι} (hst : R s t) (hok : ∀ i ∈ is, ok i) :
    ∃ s' os, feed step s is = some (s', os) ∧ R s' (is.foldl effect t) ∧
      ∀ n (hn : n < is.length),
        ∃ o, os[n]? = some o ∧ meets ((is.take n).foldl effect t) is[n] o := by
  induction is generalizing s t with
  | nil => exact ⟨s, [], rfl, hst, fun n hn => absurd hn (Nat.not_lt_zero n)⟩
  | cons i is ih =>
    obtain ⟨s₁, o, h₁, hR, hv⟩ := h s t i hst (hok i List.mem_cons_self)
    obtain ⟨s', os, h₂, hR', hos⟩ := ih hR fun j hj => hok j (List.mem_cons_of_mem i hj)
    refine ⟨s', o :: os, feed_cons_iff.mpr ⟨s₁, o, os, h₁, h₂, rfl⟩, hR', fun n hn => ?_⟩
    cases n with
    | zero => exact ⟨o, rfl, hv⟩
    | succ n => exact hos n (Nat.lt_of_succ_lt_succ hn)

/-- **Simulation rule.** If every step of the concrete machine is matched by one of the total
abstract machine `spec`, with outputs related by `view`, then so is every run. -/
theorem feed_simulates (spec : τ → ι → τ × π) (view : ο → π) (R : σ → τ → Prop) {ok : ι → Prop}
    (h : ∀ s t i, R s t → ok i →
      ∃ s' o, step s i = some (s', o) ∧ R s' (spec t i).1 ∧ view o = (spec t i).2)
    {s : σ} {t : τ} {is : List ι} (hst : R s t) (hok : ∀ i ∈ is, ok i) :
    ∃ s' os, feed step s is = some (s', os) ∧ R s' (is.foldl (fun t i => (spec t i).1) t) ∧
      ∀ n (hn : n < is.length),
        (os.map view)[n]? = some (spec ((is.take n).foldl (fun t i => (spec t i).1) t) is[n]).2 := by
  obtain ⟨s', os, hf, hR, hos⟩ := feed_meets (fun t i => (spec t i).1)
    (fun t i o => view o = (spec t i).2) R h hst hok
  refine ⟨s', os, hf, hR, fun n hn => ?_⟩
  obtain ⟨o, ho, hv⟩ := hos n hn
  rw [List.getElem?_map, ho, ← hv]
  rfl

end Feed

end Run
