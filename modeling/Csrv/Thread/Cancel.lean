import Csrv.Thread.Slots

/-!
# Cancellation and the lock

A pending cancellation takes effect at the next `printf` or `usleep`. One `printf` of the loop lies
between lock and unlock, and no cleanup handler is installed: a worker that is cancelled there
takes the lock with it.

1. `Timely`: `pthread_cancel` is called only for a worker that is past that `printf` in its round
   or past the loop, or that is at it and does not own the lock any more.
2. `cancel_frees_lock`: then the lock is never owned by a worker that has ended, and a command that
   waits for the lock gets it once the owner has finished its round.
-/

namespace Csrv.Thread

open Run Threads

/-- The next cancellation point is the `usleep` of the loop, or lies behind the loop. -/
def Pc.pastPrint : Pc → Bool
  | .load | .store _ | .count | .unlock | .sleep | .free | .printEnd | .exit | .dead _ => true
  | _ => false

/-- A worker at `pc` that is cancelled will not end as the owner of the lock: it is past the
`printf` behind the lock, or at it after somebody's start-up has taken the lock from it. -/
def State.Spares (s : State) (t : ℕ) (pc : Pc) : Prop :=
  pc.pastPrint = true ∨ pc = .print ∧ s.lock ≠ some (.worker t)

instance (s : State) (t : ℕ) (pc : Pc) : Decidable (s.Spares t pc) :=
  inferInstanceAs (Decidable (_ ∨ _))

/-- The condition on the `pthread_cancel` of `cancel`. -/
def Timely (s : State) : Act → Prop
  | .entry => ∀ i, s.handler = .enter (.cancel i) → ∀ x ∈ s.slot i, s.Spares x.1 x.2.pc
  | _ => True

instance (s : State) : (a : Act) → Decidable (Timely s a)
  | .request _ _ => inferInstanceAs (Decidable True)
  | .entry => inferInstanceAs
      (Decidable (∀ i, s.handler = .enter (.cancel i) → ∀ x ∈ s.slot i, s.Spares x.1 x.2.pc))
  | .createFails _ => inferInstanceAs (Decidable True)
  | .tf0 _ => inferInstanceAs (Decidable True)
  | .cancel _ => inferInstanceAs (Decidable True)

namespace State

/-- The lock is owned by a worker that has ended. -/
def Orphaned (s : State) : Prop :=
  ∃ t w, s.lock = some (.worker t) ∧ s.workers[t]? = some w ∧ w.pc.isDead = true

/-- Whoever owns the lock is between lock and unlock. -/
structure Owned (s : State) : Prop where
  loop : s.lock = some .loop → s.handler.inside = true ∨ s.handler = .crashed
  worker : ∀ t, s.lock = some (.worker t) → ∃ w, s.workers[t]? = some w ∧ w.pc.inside = true

/-- No cancelled worker will end as the owner of the lock. -/
def Spared (s : State) : Prop := All (fun t w => w.canceled = true → s.Spares t w.pc) s.workers

end State

/-! ## Steps -/

section Steps

variable {s s' : State} {boot : Pc} {t : ℕ} {w w' : Worker}

/-- What a step of `tf0` does with the lock: take it, make it free, or leave it. -/
theorem tf0_owner {st st' : Static} (h : tf0 st t w = some (st', w')) :
    (st'.lock = some (.worker t) ∧ w'.pc.inside = true) ∨ st'.lock = none ∨
      (st'.lock = st.lock ∧ w'.pc.inside = w.pc.inside) := by
  cases hpc : w.pc <;> simp only [tf0, hpc] at h
  case init =>
    cases h
    exact .inr (.inl rfl)
  case test =>
    cases h
    refine .inr (.inr ⟨rfl, ?_⟩)
    cases st.running <;> rfl
  case lock =>
    split_ifs at h
    cases h
    exact .inl ⟨rfl, rfl⟩
  case unlock =>
    cases h
    exact .inr (.inl rfl)
  case sleep =>
    split_ifs at h
    cases h
    exact .inr (.inr ⟨rfl, rfl⟩)
  case dead => cases h
  all_goals
    cases h
    exact .inr (.inr ⟨rfl, rfl⟩)

/-- A cancelled worker does not start another round. -/
theorem tf0_pastPrint {st st' : Static} (h : tf0 st t w = some (st', w'))
    (hc : w.canceled = true) (hp : w.pc.pastPrint = true ∨ w.pc = .print) :
    w'.pc.pastPrint = true := by
  cases hpc : w.pc <;> simp only [tf0, hpc, hc] at h <;>
    simp only [hpc, Pc.pastPrint, Bool.false_eq_true, reduceCtorEq, or_self] at hp
  case sleep => simp at h
  case dead => cases h
  all_goals
    cases h
    rfl

/-- The lock changes, but no worker gets it. -/
theorem State.Spares.congr {pc : Pc} (h : s.Spares t pc)
    (hl : s'.lock = some (.worker t) → s.lock = some (.worker t)) : s'.Spares t pc :=
  h.imp id (And.imp id fun hne he => hne (hl he))

theorem State.Owned.of_free (hl : s.lock = none) : s.Owned where
  loop h := absurd (hl.symm.trans h) (by simp)
  worker _ h := absurd (hl.symm.trans h) (by simp)

/-- The event loop moves while the lock and the place of every worker stay. -/
theorem State.Owned.move (h : s.Owned) (s' : State) (hl : s'.lock = s.lock)
    (hi : s'.handler.inside = s.handler.inside ∨ s'.handler = .crashed)
    (hc : s.handler ≠ .crashed)
    (hws : ∀ (t : ℕ) (w : Worker), s.workers[t]? = some w →
      ∃ w' : Worker, s'.workers[t]? = some w' ∧ w'.pc = w.pc) : s'.Owned := by
  refine ⟨fun hs => ?_, fun t hs => ?_⟩
  · rw [hl] at hs
    exact hi.imp (fun hi => hi.trans ((h.loop hs).resolve_right hc)) id
  · rw [hl] at hs
    obtain ⟨w, hw, hin⟩ := h.worker t hs
    obtain ⟨w', hw', hpc⟩ := hws t w hw
    exact ⟨w', hw', hpc ▸ hin⟩

/-- Worker `t` moves and leaves the lock alone. -/
theorem State.Owned.work (h : s.Owned) (s' : State) (hw : s.workers[t]? = some w)
    (hl : s'.lock = s.lock) (hh : s'.handler = s.handler) (hws : s'.workers = s.workers.set t w')
    (hi : w.pc.inside = true → w'.pc.inside = true) : s'.Owned := by
  refine ⟨fun hs => ?_, fun u hs => ?_⟩
  · rw [hl] at hs
    rw [hh]
    exact h.loop hs
  · rw [hl] at hs
    obtain ⟨v, hv, hvi⟩ := h.worker u hs
    rw [hws]
    by_cases hut : u = t
    · subst hut
      cases hw.symm.trans hv
      exact ⟨w', by rw [List.getElem?_set_self', hw]; rfl, hi hvi⟩
    · exact ⟨v, (List.getElem?_set_ne (Ne.symm hut)).trans hv, hvi⟩

theorem getElem?_set_pc (hw : s.workers[t]? = some w) (hpc : w'.pc = w.pc) (u : ℕ) (v : Worker)
    (hv : s.workers[u]? = some v) :
    ∃ v', (s.workers.set t w')[u]? = some v' ∧ v'.pc = v.pc := by
  by_cases hut : u = t
  · subst hut
    cases hw.symm.trans hv
    exact ⟨w', by rw [List.getElem?_set_self', hw]; rfl, hpc⟩
  · exact ⟨v, by rw [List.getElem?_set_ne (Ne.symm hut), hv], rfl⟩

theorem entry_pcs (h : Entry boot s s') (u : ℕ) (v : Worker) (hv : s.workers[u]? = some v) :
    ∃ v', s'.workers[u]? = some v' ∧ v'.pc = v.pc := by
  have ht := entry_workers h
  generalize s'.workers = ws' at ht ⊢
  cases ht with
  | none => exact ⟨v, hv, rfl⟩
  | flag hw hpc _ => exact getElem?_set_pc hw hpc u v hv
  | spawn =>
    refine ⟨v, ?_, rfl⟩
    rw [List.getElem?_append_left (List.getElem?_eq_some_iff.mp hv).1, hv]

theorem next_inside (i : Fin NTHREADS) (body : Fin NTHREADS → Hpc)
    (hb : ∀ j, (body j).inside = true) : (next i body).inside = true := by
  obtain ⟨j, -, he⟩ | ⟨-, he⟩ := next_cases i body
  · rw [he]
    exact hb j
  · rw [he]
    rfl

theorem owned_entry (h : s.Owned) (he : Entry boot s s') : s'.Owned := by
  have hpcs := entry_pcs he
  cases he with
  | lock hpc hl => exact ⟨fun _ => .inl rfl, fun t ht => by cases ht⟩
  | unlock hpc => exact .of_free rfl
  | start hpc =>
    refine h.move _ rfl (.inl ?_) (by simp [hpc]) hpcs
    show (if s.running then Hpc.unlock else .startRun).inside = _
    rw [hpc]
    cases s.running <;> rfl
  | stop hpc =>
    refine h.move _ rfl (.inl ?_) (by simp [hpc]) hpcs
    show (if s.running then Hpc.stopRun else .unlock).inside = _
    rw [hpc]
    cases s.running <;> rfl
  | @create i hpc =>
    refine h.move _ rfl (.inl ?_) (by simp [hpc]) hpcs
    rw [hpc]
    exact next_inside i _ fun _ => rfl
  | @ret i n hpc =>
    refine h.move _ rfl (.inl ?_) (by simp [hpc]) hpcs
    rw [hpc]
    exact next_inside i _ fun _ => rfl
  | startRun hpc => exact h.move _ rfl (.inl (hpc ▸ rfl)) (by simp [hpc]) hpcs
  | stopRun hpc => exact h.move _ rfl (.inl (hpc ▸ rfl)) (by simp [hpc]) hpcs
  | join hpc _ _ => exact h.move _ rfl (.inl (hpc ▸ rfl)) (by simp [hpc]) hpcs
  | setperiod hpc => exact h.move _ rfl (.inl (hpc ▸ rfl)) (by simp [hpc]) hpcs
  | cancel hpc _ => exact h.move _ rfl (.inl (hpc ▸ rfl)) (by simp [hpc]) hpcs
  | forget hpc _ => exact h.move _ rfl (.inl (hpc ▸ rfl)) (by simp [hpc]) hpcs
  | forgetNull hpc _ => exact h.move _ rfl (.inl (hpc ▸ rfl)) (by simp [hpc]) hpcs
  | crash hpc =>
    refine h.move _ rfl (.inr rfl) ?_ hpcs
    obtain ⟨i, hpc | hpc, -⟩ | ⟨i, hpc⟩ := hpc <;> simp [hpc]

theorem spared_entry (h : s.Spared) (he : Entry boot s s') (hok : Timely s .entry) :
    s'.Spared := by
  unfold State.Spared at h ⊢
  cases he with
  | create hpc => exact h.concat (by simp)
  | @join i t w r hpc hs hr => exact h.set (h t w (slot_eq_some_iff.mp hs).2.1 :)
  | cancel hpc hs => exact h.set fun _ => hok _ hpc _ hs
  | @forget i t w hpc hs => exact h.set (h t w (slot_eq_some_iff.mp hs).2.1 :)
  | lock hpc _ => exact h.imp fun t w _ hw hc => (hw hc).congr (by simp)
  | unlock hpc => exact h.imp fun t w _ hw hc => (hw hc).congr (by simp)
  | _ => exact h

/-- **One step.** -/
theorem owned_step {a : Act} (h : s.Owned) (hsp : s.Spared) (ha : Step boot s a s')
    (hok : Timely s a) : s'.Owned ∧ s'.Spared := by
  cases ha with
  | @request query stack hpc =>
    refine ⟨h.move _ rfl (.inl ?_) (by simp [hpc]) fun t w hw => ⟨w, hw, rfl⟩, hsp⟩
    rw [hpc]
    unfold State.request
    cases command query stack <;> rfl
  | entry he => exact ⟨owned_entry h he, spared_entry hsp he hok⟩
  | @createFails i id hpc =>
    refine ⟨h.move _ rfl (.inl ?_) (by simp [hpc]) fun t w hw => ⟨w, hw, rfl⟩, hsp⟩
    rw [hpc]
    exact next_inside i _ fun _ => rfl
  | @tf0 t w w' st hw hf =>
    refine ⟨?_, fun u v hv hc => ?_⟩
    · obtain ⟨hl, hin⟩ | hl | ⟨hl, hin⟩ := tf0_owner hf
      · refine ⟨fun hs => ?_, fun u hs => ?_⟩
        · cases hl.symm.trans hs
        · cases hl.symm.trans hs
          exact ⟨w', by rw [State.put, List.getElem?_set_self', hw]; rfl, hin⟩
      · exact .of_free hl
      · exact h.work _ hw hl rfl rfl fun hi => hin.trans hi
    · obtain ⟨rfl, rfl⟩ | ⟨hne, hv⟩ := getElem?_set_some hv
      · have hcw := (tf0_cases hf).canceled.symm.trans hc
        exact .inl (tf0_pastPrint hf hcw ((hsp u w hw hcw).imp id And.left))
      · refine (hsp u v hv hc).congr fun hl' => ?_
        change st.lock = _ at hl'
        obtain ⟨hl, -⟩ | hl | ⟨hl, -⟩ := tf0_owner hf
        · cases hl.symm.trans hl'
          exact absurd rfl hne
        · cases hl.symm.trans hl'
        · exact hl.symm.trans hl'
  | @cancel t w hw hc hp =>
    refine ⟨?_, hsp.set fun _ => .inl rfl⟩
    refine ⟨h.loop, fun u hu => ?_⟩
    obtain ⟨v, hv, hi⟩ := h.worker u hu
    have hut : u ≠ t := by
      rintro rfl
      cases hw.symm.trans hv
      -- the owner is inside, so it could only be at the `printf`
      obtain hpast | ⟨-, hl⟩ := hsp u w hw hc
      · revert hp hpast hi
        cases w.pc <;> simp [Pc.cancellationPoint, Pc.pastPrint, Pc.inside]
      · exact hl hu
    exact ⟨v, (List.getElem?_set_ne (Ne.symm hut)).trans hv, hi⟩

end Steps

/-! ## Waiting for the lock -/

section Waiting

variable {s : State} {boot : Pc} {t : ℕ} {w : Worker}

/-- How many steps worker `t` needs to the end of its critical section. -/
def Pc.rest : Pc → ℕ
  | .print => 5
  | .load => 4
  | .store _ => 3
  | .count => 2
  | .unlock => 1
  | _ => 0

/-- The owner of the lock can finish its round by itself. -/
theorem exec_release (boot : Pc) {n : ℕ} : ∀ {s : State} {w : Worker}, s.handler ≠ .crashed →
    s.workers[t]? = some w → w.pc.inside = true → w.pc.rest = n →
      ∃ s', exec (step boot) s (List.replicate n (.tf0 t)) = some s' ∧ s'.lock = none ∧
        s'.handler = s.handler := by
  induction n with
  | zero => intro s w _ _ hi hr; cases hpc : w.pc <;> simp [hpc, Pc.inside, Pc.rest] at hi hr
  | succ n ih =>
    intro s w hc hw hi hr
    -- one step, with the state it leads to
    have run : ∀ (st : Static) (w' : Worker), tf0 s.toStatic t w = some (st, w') →
        step boot s (.tf0 t) = some ({ s with toStatic := st }.put t w') := by
      intro st w' hf
      simp only [step, if_neg hc, hw, hf, Option.bind_eq_bind, Option.bind_some]
    have go : ∀ (st : Static) (w' : Worker), tf0 s.toStatic t w = some (st, w') →
        w'.pc.inside = true → w'.pc.rest = n →
          ∃ s', exec (step boot) s (List.replicate (n + 1) (.tf0 t)) = some s' ∧
            s'.lock = none ∧ s'.handler = s.handler := by
      intro st w' hf hi' hr'
      obtain ⟨s', he, hl, hh⟩ := ih (s := { s with toStatic := st }.put t w') hc
        (by rw [State.put, List.getElem?_set_self', hw]; rfl) hi' hr'
      refine ⟨s', ?_, hl, hh⟩
      rw [List.replicate_succ, exec, run st w' hf]
      exact he
    cases hpc : w.pc <;> simp only [hpc, Pc.inside, Bool.false_eq_true] at hi <;>
      simp only [hpc, Pc.rest] at hr
    case unlock =>
      obtain rfl : n = 0 := by omega
      refine ⟨{ s with lock := none }.put t { w with pc := .sleep }, ?_, rfl, rfl⟩
      rw [List.replicate_succ, exec, run { s.toStatic with lock := none } { w with pc := .sleep }
        (by simp only [tf0, hpc])]
      rfl
    all_goals
      refine go _ _ (by simp only [tf0, hpc]; rfl) rfl ?_
      simp only [Pc.rest]
      omega

end Waiting

/-- **The lock outlives cancellation.** In a run in which `pthread_cancel` is only called for
workers past the `printf` between lock and unlock, or at it without the lock, no worker that has
ended owns the lock. A command that waits for the lock can take it after at most five steps of the
owner. -/
theorem cancel_frees_lock {s : State} (h : Reach (· = State.init) (step .beg) Timely s) :
    ¬ s.Orphaned ∧ ∀ c, s.handler = .lock c → ∃ t n s', n ≤ 5 ∧
      exec (step .beg) s (List.replicate n (.tf0 t) ++ [.entry]) = some s' ∧
        s'.handler = .enter c := by
  have hI : s.Owned ∧ s.Spared := h.invariant
    (fun _ e => e ▸ ⟨.of_free rfl, all_nil⟩)
    fun _ _ _ hi hs hok => owned_step hi.1 hi.2 (step_cases hs) hok
  refine ⟨?_, fun c hc => ?_⟩
  · rintro ⟨t, w, hl, hw, hd⟩
    obtain ⟨v, hv, hi⟩ := hI.1.worker t hl
    cases hw.symm.trans hv
    revert hi hd
    cases w.pc <;> simp [Pc.inside, Pc.isDead]
  -- the command takes the lock as soon as it is free
  have take : ∀ s' : State, s'.lock = none → s'.handler = .lock c →
      ∃ s'', exec (step .beg) s' [.entry] = some s'' ∧ s''.handler = .enter c := by
    intro s' hl hh
    refine ⟨{ s' with lock := some .loop, handler := .enter c }, ?_, rfl⟩
    simp [exec, step, entry, hh, hl]
  cases hl : s.lock with
  | none =>
    obtain ⟨s', he, hh⟩ := take s hl hc
    exact ⟨0, 0, s', by decide, he, hh⟩
  | some a =>
    cases a with
    | loop =>
      have := hI.1.loop hl
      simp [hc, Hpc.inside] at this
    | worker t =>
      obtain ⟨w, hw, hi⟩ := hI.1.worker t hl
      obtain ⟨s₁, h₁, hl₁, hh₁⟩ := exec_release .beg (by simp [hc]) hw hi rfl
      obtain ⟨s₂, h₂, hh₂⟩ := take s₁ hl₁ (hh₁.trans hc)
      refine ⟨t, w.pc.rest, s₂, ?_, ?_, hh₂⟩
      · cases w.pc <;> simp [Pc.rest]
      · rw [exec_append, h₁]
        exact h₂

/-- Worker 1 is cancelled in its sleep and ends; then a `stop` waits for worker 0. -/
theorem cancel_frees_lock_sleep : ∃ s, s.lock = some (.worker 0) ∧ ¬ s.Orphaned ∧
    ∃ t n s', n ≤ 5 ∧ exec (step .beg) s (List.replicate n (.tf0 t) ++ [.entry]) = some s' ∧
      s'.handler = .enter .stop := by
  have hrun : ((exec (guarded (step .beg) Timely) State.init
      (ask "fn=start" :: List.replicate 12 .entry ++ List.replicate 10 (.tf0 1) ++
        ask "fn=cancel&tid=1" :: List.replicate 4 .entry ++ .cancel 1 ::
        List.replicate 5 (.tf0 0) ++ [ask "fn=stop"])).map fun s => (s.lock, s.handler)) =
      some (some (.worker 0), .lock .stop) := by
    decide +kernel
  obtain ⟨s, hs, he⟩ := reach_of_exec hrun
  simp only [Prod.mk.injEq] at he
  have h := cancel_frees_lock hs
  exact ⟨s, he.1, h.1, h.2 .stop he.2⟩

/-- Worker 0 is cancelled after it has passed the loop test, and dies at the `printf` behind the
lock. -/
theorem cancel_orphans_lock :
    ¬ ∀ s, Reach (· = State.init) (step .beg) Free s → ¬ s.Orphaned := by
  intro hall
  have hrun : ((exec (guarded (step .beg) Free) State.init
      (ask "fn=start" :: List.replicate 12 .entry ++ List.replicate 4 (.tf0 0) ++
        ask "fn=cancel&tid=0" :: List.replicate 4 .entry ++ [.tf0 0, .cancel 0])).map fun s =>
          (s.lock, s.workers[0]?.map (·.pc))) =
      some (some (.worker 0), some (.dead .canceled)) := by
    decide +kernel
  obtain ⟨s, hs, he⟩ := reach_of_exec hrun
  simp only [Prod.mk.injEq] at he
  obtain ⟨hl, hw⟩ := he
  obtain ⟨w, hw, hd⟩ := Option.map_eq_some_iff.mp hw
  exact hall s hs ⟨0, w, hl, hw, by rw [hd]; rfl⟩

end Csrv.Thread
