import Csrv.Thread.Slots

/-!
# `stop` and the lock

`stop` joins the workers while it holds the lock that each of them takes once in each round of its
loop. `stop_not_deadlocked`: the join never waits for a worker that waits for the lock if no worker
that will be joined is between its test of `running` and its `pthread_mutex_lock` at the moment
when `stop` clears `running`. The workers are created at the loop test, past their start-up.
-/

namespace Csrv.Thread

open Run Threads

namespace State

/-- `stop` holds the lock and joins a worker that waits for it. -/
def Deadlock (s : State) : Prop :=
  s.lock = some .loop ∧ ∃ i t w, s.handler = .join i ∧ s.tbuf i = some t ∧
    s.workers[t]? = some w ∧ w.pc = .lock

/-- Where the worker of slot `k` is. -/
def pcAt (s : State) (k : Fin NTHREADS) : Option Pc :=
  ((s.tbuf k).bind fun t => s.workers[t]?).map (·.pc)

/-- From slot `i` on, up to the first empty slot, no worker is at the lock. -/
def NoWaiter (s : State) (i : ℕ) : Prop :=
  ∀ k : Fin NTHREADS, i ≤ k.val → (∀ j : Fin NTHREADS, i ≤ j.val → j < k → s.tbuf j ≠ none) →
    s.pcAt k ≠ some .lock

instance (s : State) (i : ℕ) : Decidable (s.NoWaiter i) :=
  inferInstanceAs (Decidable (∀ _ : Fin NTHREADS, _ → _ → _))

/-- What `stop` still has to join in its loop. -/
def Joinable (s : State) : Prop :=
  match s.handler with
  | .join i => s.NoWaiter i.val
  | .ret i _ => s.NoWaiter (i.val + 1)
  | _ => True

end State

/-- The condition on the step of `stop` that clears `running`. -/
def Unraced (s : State) : Act → Prop
  | .entry => s.handler = .stopRun → s.NoWaiter 0
  | _ => True

instance (s : State) : (a : Act) → Decidable (Unraced s a)
  | .request _ _ => inferInstanceAs (Decidable True)
  | .entry => inferInstanceAs (Decidable (s.handler = .stopRun → s.NoWaiter 0))
  | .createFails _ => inferInstanceAs (Decidable True)
  | .tf0 _ => inferInstanceAs (Decidable True)
  | .cancel _ => inferInstanceAs (Decidable True)

/-! ## Steps -/

section Steps

variable {s s' : State} {boot : Pc} {t : ℕ} {w w' : Worker} {n : ℕ}

theorem pcAt_eq_some_iff {k : Fin NTHREADS} {pc : Pc} :
    s.pcAt k = some pc ↔ ∃ t w, s.tbuf k = some t ∧ s.workers[t]? = some w ∧ w.pc = pc := by
  unfold State.pcAt
  simp only [Option.map_eq_some_iff, Option.bind_eq_some_iff]
  constructor
  · rintro ⟨w, ⟨t, ht, hw⟩, rfl⟩
    exact ⟨t, w, ht, hw, rfl⟩
  · rintro ⟨t, w, ht, hw, rfl⟩
    exact ⟨w, ⟨t, ht, hw⟩, rfl⟩

/-- One worker moves, and not to the lock unless it was there. -/
theorem State.NoWaiter.set (h : s.NoWaiter n) (w' : Worker) (hw : s.workers[t]? = some w)
    (hpc : w'.pc = .lock → w.pc = .lock) (s' : State) (htbuf : s'.tbuf = s.tbuf)
    (hws : s'.workers = s.workers.set t w') : s'.NoWaiter n := by
  intro k hk hj he
  rw [htbuf] at hj
  obtain ⟨u, v, hu, hv, hl⟩ := pcAt_eq_some_iff.mp he
  rw [htbuf] at hu
  rw [hws] at hv
  refine h k hk hj (pcAt_eq_some_iff.mpr ?_)
  obtain ⟨rfl, rfl⟩ | ⟨-, hv⟩ := getElem?_set_some hv
  · exact ⟨u, w, hu, hw, hpc hl⟩
  · exact ⟨u, v, hu, hv, hl⟩

theorem joinable_next {i : Fin NTHREADS} (h : s.NoWaiter (i.val + 1)) :
    (s.goto (next i .join)).Joinable := by
  obtain ⟨j, hj, he⟩ | ⟨-, he⟩ := next_cases i .join <;> rw [he]
  · show s.NoWaiter j.val
    rw [hj]
    exact h
  · trivial

theorem joinable_entry (h : s.Joinable) (he : Entry boot s s') (hok : Unraced s .entry) :
    s'.Joinable := by
  unfold State.Joinable at h
  cases he with
  | stopRun hpc => exact hok hpc
  | @join i t w r hpc hi hr =>
    rw [hpc] at h
    obtain ⟨ht, hw, -⟩ := slot_eq_some_iff.mp hi
    have hnext : s.NoWaiter (i.val + 1) := by
      intro k hk hj
      refine h k (by omega) fun j hij hjk => ?_
      by_cases hji : j = i
      · rw [hji, ht]
        exact Option.some_ne_none t
      · have := Fin.val_ne_of_ne hji
        exact hj j (by omega) hjk
    exact hnext.set { w with joined := true } hw id _ rfl rfl
  | @ret i n hpc =>
    rw [hpc] at h
    refine joinable_next (s := (s.collect n).setSlot i none) fun k hk hj he => ?_
    have hne : ∀ j : Fin NTHREADS, i.val + 1 ≤ j.val →
        ((s.collect n).setSlot i none).tbuf j = s.tbuf j := fun j hij =>
      Function.update_of_ne (fun e => by rw [e] at hij; omega) _ _
    refine h k hk (fun j hij hjk => hne j hij ▸ hj j hij hjk) (pcAt_eq_some_iff.mpr ?_)
    obtain ⟨u, v, hu, hv, hl⟩ := pcAt_eq_some_iff.mp he
    exact ⟨u, v, (hne k hk).symm.trans hu, hv, hl⟩
  | create hpc =>
    obtain ⟨j, -, he⟩ | ⟨-, he⟩ := next_cases _ Hpc.create <;> rw [he] <;> trivial
  | start hpc => cases s.running <;> trivial
  | stop hpc => cases s.running <;> trivial
  | lock hpc _ => trivial
  | startRun hpc => trivial
  | setperiod hpc => trivial
  | cancel hpc _ => trivial
  | forget hpc _ => trivial
  | forgetNull hpc _ => trivial
  | unlock hpc => trivial
  | crash hpc => trivial

/-- A worker moves while `stop` joins. -/
theorem joinable_work (h : s.Joinable) (hw : s.workers[t]? = some w)
    (hpc : s.running = false → w'.pc = .lock → w.pc = .lock) (hs : Slots s) (s' : State)
    (hh : s'.handler = s.handler) (htbuf : s'.tbuf = s.tbuf)
    (hws : s'.workers = s.workers.set t w') : s'.Joinable := by
  unfold State.Joinable at h ⊢
  rw [hh]
  cases hc : s.handler <;> rw [hc] at h
  case join i => exact h.set w' hw (hpc (hs.phaseAt hc).1) s' htbuf hws
  case ret i r => exact h.set w' hw (hpc (hs.phaseAt hc).1) s' htbuf hws
  all_goals trivial

theorem joinable_step {a : Act} (hs : Slots s) (h : s.Joinable) (ha : Step boot s a s')
    (hok : Unraced s a) : s'.Joinable := by
  cases ha with
  | @request query stack hpc =>
    unfold State.request
    cases command query stack <;> trivial
  | entry he => exact joinable_entry h he hok
  | createFails hpc =>
    obtain ⟨j, -, he⟩ | ⟨-, he⟩ := next_cases _ Hpc.create <;> rw [he] <;> trivial
  | tf0 hw hf =>
    have hf := tf0_cases hf
    refine joinable_work h hw (fun hr hl => ?_) hs _ rfl hf.tbuf rfl
    exact absurd (hf.lock hl) (by simp [hr])
  | cancel hw hc hp => exact joinable_work h hw (by simp) hs _ rfl rfl rfl

end Steps

/-- **No deadlock.** In a run in which `stop` clears `running` only while none of the workers it
will join is between the loop test and the lock, it never holds the lock and joins a worker that
waits for the lock. -/
theorem stop_not_deadlocked {s : State}
    (h : Reach (· = State.init) (step .test) Unraced s) : ¬ s.Deadlock := by
  have hj : s.Joinable := Reach.invariant_under (fun _ h => reach_slots (.inr rfl) h)
    (fun _ e => e ▸ trivial)
    (fun _ _ _ hs hj ha hok => joinable_step hs hj (step_cases ha) hok) h
  rintro ⟨-, i, t, w, hpc, ht, hw, hl⟩
  unfold State.Joinable at hj
  rw [hpc] at hj
  refine hj i le_rfl (fun j hij hji => ?_) (pcAt_eq_some_iff.mpr ⟨t, w, ht, hw, hl⟩)
  exact absurd (Fin.lt_def.mp hji) (by omega)

/-- A `stop` that has joined the first worker. -/
theorem stop_not_deadlocked_ret : ∃ (s : State) (r : Ret), s.handler = .ret 0 r ∧ ¬ s.Deadlock := by
  have hrun : ((exec (guarded (step .test) Unraced) State.init
      (ask "fn=start" :: List.replicate 12 .entry ++ ask "fn=stop" :: List.replicate 3 .entry ++
        List.replicate 4 (.tf0 0) ++ [.entry])).map (·.handler)) =
      some (.ret 0 (.counter 0)) := by
    decide +kernel
  obtain ⟨s, hs, hpc⟩ := reach_of_exec hrun
  exact ⟨s, _, hpc, stop_not_deadlocked hs⟩

/-- Worker 0 passes the loop test, then `stop` takes the lock, clears `running` and joins it. -/
theorem stop_deadlocks : ¬ ∀ s, Reach (· = State.init) (step .test) Free s → ¬ s.Deadlock := by
  intro hall
  have hrun : ((exec (guarded (step .test) Free) State.init
      (ask "fn=start" :: List.replicate 12 .entry ++ .tf0 0 :: ask "fn=stop" ::
        List.replicate 3 .entry)).map fun s =>
          (s.lock, s.handler, s.tbuf 0, s.workers[0]?.map (·.pc))) =
      some (some .loop, .join 0, some 0, some .lock) := by
    decide +kernel
  obtain ⟨s, hs, he⟩ := reach_of_exec hrun
  simp only [Prod.mk.injEq] at he
  obtain ⟨hl, hpc, ht, hw⟩ := he
  obtain ⟨w, hw, hwl⟩ := Option.map_eq_some_iff.mp hw
  exact hall s hs ⟨hl, 0, 0, w, hpc, ht, hw, hwl⟩

end Csrv.Thread
