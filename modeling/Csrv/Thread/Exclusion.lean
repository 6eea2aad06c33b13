import Csrv.Thread.Slots

/-!
# The lock and the counter

Every worker initialises the lock when it starts, which makes it free whoever holds it.

1. `InitSafe`: a worker initialises the lock only while nobody is between lock and unlock, or
   while only `stop` is, in its joins, and no worker can still reach the lock.
2. `Locked`: then only the owner of the lock is inside.
3. `Counted`: `reqidxthread` is the number of increments that the workers have executed.
4. `Collected`: what `stop` has joined is what the joined workers have counted.
-/

namespace Csrv.Thread

open Run Threads

/-! ## Critical sections -/

namespace State

/-- Between a successful `pthread_mutex_lock` and its unlock. -/
def Inside (s : State) : Agent → Prop
  | .loop => s.handler.inside = true
  | .worker t => ∃ w, s.workers[t]? = some w ∧ w.pc.inside = true

/-- Nobody is inside. -/
def Quiet (s : State) : Prop := s.handler.inside = false ∧ ∀ w ∈ s.workers, w.pc.inside = false

/-- `stop` joins or unlocks, and no worker is inside or can still get there. -/
def Closing (s : State) : Prop :=
  s.handler.closing = true ∧ s.running = false ∧
    ∀ w ∈ s.workers, w.pc.inside = false ∧ w.pc ≠ .lock

instance (s : State) : Decidable s.Quiet := inferInstanceAs (Decidable (_ ∧ _))

instance (s : State) : Decidable s.Closing := inferInstanceAs (Decidable (_ ∧ _))

end State

/-- The condition on the `pthread_mutex_init` of a worker. -/
def InitSafe (s : State) : Act → Prop
  | .tf0 t => ∀ w ∈ s.workers[t]?, w.pc = .init → s.Quiet ∨ s.Closing
  | _ => True

instance (s : State) : (a : Act) → Decidable (InitSafe s a)
  | .request _ _ => inferInstanceAs (Decidable True)
  | .entry => inferInstanceAs (Decidable True)
  | .createFails _ => inferInstanceAs (Decidable True)
  | .tf0 t => inferInstanceAs
      (Decidable (∀ w ∈ s.workers[t]?, w.pc = .init → s.Quiet ∨ s.Closing))
  | .cancel _ => inferInstanceAs (Decidable True)

/-- Only the owner of the lock is inside, or the lock does not matter any more. -/
def State.Locked (s : State) : Prop := Guards s.lock s.Inside ∨ s.Closing

section Locked

variable {s s' : State} {boot : Pc} {t : ℕ} {w w' : Worker}

theorem State.Quiet.not_inside (h : s.Quiet) : ∀ a, ¬ s.Inside a
  | .loop, hi => Bool.false_ne_true (h.1.symm.trans hi)
  | .worker _, ⟨w, hw, hi⟩ => Bool.false_ne_true ((h.2 w (List.mem_of_getElem? hw)).symm.trans hi)

theorem State.Closing.not_inside (h : s.Closing) (t : ℕ) : ¬ s.Inside (.worker t) :=
  fun ⟨w, hw, hi⟩ => Bool.false_ne_true ((h.2.2 w (List.mem_of_getElem? hw)).1.symm.trans hi)

/-- **Mutual exclusion.** -/
theorem State.Locked.unique (h : s.Locked) {a b : Agent} (ha : s.Inside a) (hb : s.Inside b) :
    a = b := by
  obtain h | h := h
  · exact h.unique ha hb
  · cases a with
    | worker t => exact absurd ha (h.not_inside t)
    | loop =>
      cases b with
      | worker t => exact absurd hb (h.not_inside t)
      | loop => rfl

/-- What a step of `tf0` does with the lock: take it, release it, initialise it, or nothing. -/
theorem tf0_lock {st st' : Static} (h : tf0 st t w = some (st', w')) :
    (w.pc = .lock ∧ st.lock = none ∧ st'.lock = some (.worker t)) ∨
      (w.pc.inside = true ∧ w'.pc.inside = false) ∨ (w.pc = .init ∧ w'.pc.inside = false) ∨
      (st'.lock = st.lock ∧ w'.pc.inside = w.pc.inside) := by
  cases hpc : w.pc <;> simp only [tf0, hpc] at h
  case init =>
    cases h
    exact .inr (.inr (.inl ⟨rfl, rfl⟩))
  case test =>
    cases h
    refine .inr (.inr (.inr ⟨rfl, ?_⟩))
    cases st.running <;> rfl
  case lock =>
    split_ifs at h with hl
    cases h
    exact .inl ⟨rfl, hl, rfl⟩
  case unlock =>
    cases h
    exact .inr (.inl ⟨rfl, rfl⟩)
  case sleep =>
    split_ifs at h
    cases h
    exact .inr (.inr (.inr ⟨rfl, rfl⟩))
  case dead => cases h
  all_goals
    cases h
    exact .inr (.inr (.inr ⟨rfl, rfl⟩))

/-- Who is inside after worker `t` has moved. -/
theorem inside_work {b : Agent} (hb : s'.Inside b) (hh : s'.handler = s.handler)
    (hws : s'.workers = s.workers.set t w') :
    (b = .worker t ∧ w'.pc.inside = true) ∨ (b ≠ .worker t ∧ s.Inside b) := by
  cases b with
  | loop => exact .inr ⟨by simp, (congrArg Hpc.inside hh).symm.trans hb⟩
  | worker u =>
    obtain ⟨v, hv, hi⟩ := hb
    rw [hws] at hv
    obtain ⟨rfl, rfl⟩ | ⟨hne, hv⟩ := getElem?_set_some hv
    · exact .inl ⟨rfl, hi⟩
    · exact .inr ⟨by simpa using hne, v, hv, hi⟩

theorem State.Closing.work (h : s.Closing) (hi : w'.pc.inside = false) (hl : w'.pc ≠ .lock)
    (s' : State) (hh : s'.handler = s.handler) (hr : s'.running = s.running)
    (hws : s'.workers = s.workers.set t w') : s'.Closing := by
  refine ⟨hh ▸ h.1, hr ▸ h.2.1, fun v hv => ?_⟩
  rw [hws] at hv
  obtain hv | rfl := List.mem_or_eq_of_mem_set hv
  · exact h.2.2 v hv
  · exact ⟨hi, hl⟩

theorem locked_tf0 (h : s.Locked) (hw : s.workers[t]? = some w) {st : Static}
    (hs : tf0 s.toStatic t w = some (st, w')) (hok : InitSafe s (.tf0 t)) :
    ({ s with toStatic := st }.put t w').Locked := by
  have hframe := tf0_cases hs
  have hin : ∀ b, State.Inside ({ s with toStatic := st }.put t w') b →
      (b = .worker t ∧ w'.pc.inside = true) ∨ (b ≠ .worker t ∧ s.Inside b) :=
    fun b hb => inside_work hb rfl rfl
  obtain h | h := h
  · obtain ⟨hpc, hfree, hlock⟩ | ⟨hi, hi'⟩ | ⟨hpc, hi'⟩ | ⟨hlock, hi⟩ := tf0_lock hs
    · rw [hfree] at h
      refine .inl ?_
      show Guards st.lock _
      rw [hlock]
      exact h.acquire fun b hb => (hin b hb).imp And.left And.right
    · exact .inl (h.release (a := .worker t) ⟨w, hw, hi⟩ fun b hb =>
        (hin b hb).resolve_left (by simp [hi']))
    · obtain hq | hc := hok w hw hpc
      · exact .inl (Guards.reset hq.not_inside fun b hb =>
          ((hin b hb).resolve_left (by simp [hi'])).2)
      · exact .inr (hc.work hi' (fun e => absurd (hframe.lock e) (by simp [hc.2.1])) _ rfl
          hframe.running rfl)
    · refine .inl ?_
      show Guards st.lock _
      rw [hlock]
      apply h.keep
      intro b hb
      obtain ⟨rfl, hi'⟩ | ⟨-, hb⟩ := hin b hb
      · exact ⟨w, hw, hi ▸ hi'⟩
      · exact hb
  · -- nobody is inside or at the lock, and nobody gets there
    obtain ⟨hi, hl⟩ := h.2.2 w (List.mem_of_getElem? hw)
    have hi' : w'.pc.inside = false := by
      obtain ⟨hpc, -, -⟩ | ⟨hin, -⟩ | ⟨-, hi'⟩ | ⟨-, hi'⟩ := tf0_lock hs
      · exact absurd hpc hl
      · exact absurd hin (by simp [hi])
      · exact hi'
      · exact hi'.trans hi
    exact .inr (h.work hi' (fun e => absurd (hframe.lock e) (by simp [h.2.1])) _ rfl
      hframe.running rfl)

/-- What a step of `entry` does with the lock: take it, release it, or nothing. -/
theorem entry_lock (h : Entry boot s s') :
    (s.lock = none ∧ s'.lock = some .loop) ∨
      (s.handler.inside = true ∧ s'.handler.inside = false) ∨
      (s'.lock = s.lock ∧ s.handler.inside = true) := by
  cases h with
  | lock hpc hl => exact .inl ⟨hl, rfl⟩
  | unlock hpc => exact .inr (.inl ⟨by rw [hpc]; rfl, rfl⟩)
  | crash hpc =>
    refine .inr (.inl ⟨?_, rfl⟩)
    obtain ⟨i, hpc | hpc, -⟩ | ⟨i, hpc⟩ := hpc <;> rw [hpc] <;> rfl
  | _ => exact .inr (.inr ⟨rfl, by simp_all [Hpc.inside]⟩)

/-- The steps of the joining part of `stop`. -/
theorem entry_closing (h : Entry boot s s') (hc : s.handler.closing = true) :
    (s'.handler.closing = true ∨ s'.handler.inside = false) ∧ s'.running = s.running := by
  cases h with
  | lock hpc _ => simp [hpc, Hpc.closing] at hc
  | start hpc => simp [hpc, Hpc.closing] at hc
  | startRun hpc => simp [hpc, Hpc.closing] at hc
  | create hpc => simp [hpc, Hpc.closing] at hc
  | stop hpc => simp [hpc, Hpc.closing] at hc
  | stopRun hpc => simp [hpc, Hpc.closing] at hc
  | join hpc _ _ => exact ⟨.inl rfl, rfl⟩
  | @ret i n hpc =>
    refine ⟨.inl ?_, rfl⟩
    obtain ⟨j, -, he⟩ | ⟨-, he⟩ := next_cases i .join
    · exact (congrArg Hpc.closing he).trans rfl
    · exact (congrArg Hpc.closing he).trans rfl
  | setperiod hpc => simp [hpc, Hpc.closing] at hc
  | cancel hpc _ => simp [hpc, Hpc.closing] at hc
  | forget hpc _ => simp [hpc, Hpc.closing] at hc
  | forgetNull hpc _ => simp [hpc, Hpc.closing] at hc
  | unlock hpc => exact ⟨.inr rfl, rfl⟩
  | crash hpc => exact ⟨.inr rfl, rfl⟩

/-- A worker of the state after a step of `entry` is new or where it was. -/
theorem Touches.pc {ws ws' : List Worker} (h : Touches boot ws ws') (hw : ws'[t]? = some w') :
    w'.pc = boot ∨ ∃ w, ws[t]? = some w ∧ w'.pc = w.pc := by
  cases h with
  | none => exact .inr ⟨w', hw, rfl⟩
  | flag ht hpc _ =>
    obtain ⟨rfl, rfl⟩ | ⟨-, hw⟩ := getElem?_set_some hw
    · exact .inr ⟨_, ht, hpc⟩
    · exact .inr ⟨w', hw, rfl⟩
  | spawn =>
    obtain ⟨-, rfl⟩ | hw := getElem?_concat_some hw
    · exact .inl rfl
    · exact .inr ⟨w', hw, rfl⟩

theorem locked_entry (h : s.Locked) (hs : Entry .beg s s') : s'.Locked := by
  have hpc : ∀ {t : ℕ} {w' : Worker}, s'.workers[t]? = some w' →
      w'.pc = .beg ∨ ∃ w, s.workers[t]? = some w ∧ w'.pc = w.pc := (entry_workers hs).pc
  have hin : ∀ t, s'.Inside (.worker t) → s.Inside (.worker t) := by
    rintro t ⟨w', hw', hi⟩
    obtain hb | ⟨w, hw, he⟩ := hpc hw'
    · rw [hb] at hi
      cases hi
    · exact ⟨w, hw, he ▸ hi⟩
  obtain h | h := h
  · refine .inl ?_
    obtain ⟨hfree, hlock⟩ | ⟨hi, hi'⟩ | ⟨hlock, hi⟩ := entry_lock hs
    · rw [hfree] at h
      rw [hlock]
      apply h.acquire
      intro b hb
      cases b with
      | loop => exact .inl rfl
      | worker t => exact .inr (hin t hb)
    · refine h.release (a := .loop) hi fun b hb => ?_
      cases b with
      | loop => exact absurd hb (by simp [State.Inside, hi'])
      | worker t => exact ⟨by simp, hin t hb⟩
    · rw [hlock]
      apply h.keep
      intro b hb
      cases b with
      | loop => exact hi
      | worker t => exact hin t hb
  · obtain ⟨hc | hi, hr⟩ := entry_closing hs h.1
    · refine .inr ⟨hc, hr.trans h.2.1, fun w' hw' => ?_⟩
      obtain ⟨t, hw'⟩ := List.getElem?_of_mem hw'
      obtain hb | ⟨w, hw, he⟩ := hpc hw'
      · rw [hb]
        exact ⟨rfl, by simp⟩
      · rw [he]
        exact h.2.2 w (List.mem_of_getElem? hw)
    · have hout : ∀ b, ¬ s'.Inside b := by
        intro b hb
        cases b with
        | loop => exact absurd hb (by simp [State.Inside, hi])
        | worker t => exact h.not_inside t (hin t hb)
      exact .inl (Guards.reset hout fun _ hb => hb)

theorem locked_step {a : Act} (h : s.Locked) (hs : Step .beg s a s') (hok : InitSafe s a) :
    s'.Locked := by
  cases hs with
  | @request query stack hpc =>
    obtain h | h := h
    · refine .inl (h.keep fun b hb => ?_)
      cases b with
      | loop =>
        revert hb
        unfold State.request
        cases command query stack <;> exact fun hb => by cases hb
      | worker t => exact hb
    · exact absurd h.1 (by simp [hpc, Hpc.closing])
  | entry hs => exact locked_entry h hs
  | @createFails i id hpc =>
    obtain h | h := h
    · refine .inl (h.keep fun b hb => ?_)
      cases b with
      | loop =>
        show s.handler.inside = true
        rw [hpc]
        rfl
      | worker t => exact hb
    · exact absurd h.1 (by simp [hpc, Hpc.closing])
  | tf0 hw hs => exact locked_tf0 h hw hs hok
  | cancel hw hc hp =>
    obtain h | h := h
    · refine .inl (h.keep fun b hb => ?_)
      obtain ⟨-, hi⟩ | ⟨-, hb⟩ : _ ∨ _ ∧ s.Inside b := inside_work hb rfl rfl
      · cases hi
      · exact hb
    · exact .inr (h.work rfl (by simp) _ rfl rfl rfl)

end Locked

/-! ## The counter -/

/-- `stop` has joined a cancelled worker, or the process has died of one. -/
def Hpc.doomed : Hpc → Bool
  | .ret _ .canceled | .crashed => true
  | _ => false

/-- The increments of `reqidxthread` that a worker has executed. -/
def Worker.incs (w : Worker) : ℕ := w.acc + if w.pc = .count then 1 else 0

/-- What a joined worker has returned. -/
def Worker.yield (w : Worker) : ℕ := if w.joined then w.acc else 0

namespace State

/-- No increment is lost, and none will be: a worker that has read the counter finds it unchanged
when it writes. -/
structure Counted (s : State) : Prop where
  total : s.reqidxthread = total Worker.incs s.workers
  store : All (fun _ w => ∀ r, w.pc = .store r → r = s.reqidxthread) s.workers

/-- The value that `stop` has joined and not yet read. -/
def pending (s : State) : ℕ :=
  match s.handler with
  | .ret _ (.counter n) => n
  | _ => 0

/-- Since `start` the joined workers have counted what `stop` has collected, unless a
`PTHREAD_CANCELED` is among it. -/
def Collected (s : State) : Prop := s.handler.doomed = false →
  s.base + s.returned.sum + s.pending = Threads.total Worker.yield s.workers

end State

section Counted

variable {s s' : State} {boot : Pc} {t : ℕ} {w w' : Worker}

/-- What a step of `tf0` does with the counter: write it, or leave it. -/
theorem tf0_count {st st' : Static} (h : tf0 st t w = some (st', w')) :
    (∃ r, w.pc = .store r ∧ st'.reqidxthread = r + 1 ∧ w'.incs = w.incs + 1 ∧ w'.pc = .count) ∨
      (st'.reqidxthread = st.reqidxthread ∧ w'.incs = w.incs ∧
        ∀ r, w'.pc = .store r → r = st.reqidxthread) := by
  cases hpc : w.pc <;> simp only [tf0, hpc] at h
  case test =>
    cases h
    refine .inr ⟨rfl, ?_⟩
    cases st.running <;> simp [Worker.incs, hpc]
  case lock =>
    split_ifs at h
    cases h
    exact .inr ⟨rfl, by simp [Worker.incs, hpc]⟩
  case store r =>
    cases h
    exact .inl ⟨r, rfl, rfl, by simp [Worker.incs, hpc], rfl⟩
  case sleep =>
    split_ifs at h
    cases h
    exact .inr ⟨rfl, by simp [Worker.incs, hpc]⟩
  case dead => cases h
  all_goals
    cases h
    exact .inr ⟨rfl, by simp [Worker.incs, hpc]⟩

theorem counted_tf0 (h : s.Counted) (hl : s.Locked) (hw : s.workers[t]? = some w) {st : Static}
    (hs : tf0 s.toStatic t w = some (st, w')) :
    ({ s with toStatic := st }.put t w').Counted := by
  have htot := total_set (f := Worker.incs) (w := w') hw
  obtain ⟨r, hpc, hreq, hinc, hpc'⟩ | ⟨hreq, hinc, hstore⟩ := tf0_count hs
  · have hr : r = s.reqidxthread := h.store t w hw r hpc
    refine ⟨?_, fun u v hv r' hr' => ?_⟩
    · show st.reqidxthread = total _ (s.workers.set t w')
      have := h.total
      omega
    · -- nobody else has read the counter
      obtain ⟨rfl, rfl⟩ | ⟨hne, hv⟩ := getElem?_set_some hv
      · rw [hpc'] at hr'
        cases hr'
      · have := hl.unique (a := .worker u) (b := .worker t) ⟨v, hv, by rw [hr']; rfl⟩
          ⟨w, hw, by rw [hpc]; rfl⟩
        exact absurd (Agent.worker.inj this) hne
  · refine ⟨?_, ?_⟩
    · show st.reqidxthread = total _ (s.workers.set t w')
      have := h.total
      omega
    · show All (fun _ w => ∀ r, w.pc = .store r → r = st.reqidxthread) (s.workers.set t w')
      rw [hreq]
      exact h.store.set hstore

theorem entry_reqidx (h : Entry boot s s') : s'.reqidxthread = s.reqidxthread := by
  cases h <;> rfl

theorem Touches.incs {ws ws' : List Worker} (h : Touches .beg ws ws') :
    total Worker.incs ws' = total Worker.incs ws := by
  cases h with
  | none => rfl
  | @flag t w w' hw hpc hacc =>
    have hinc : w'.incs = w.incs := by
      unfold Worker.incs
      rw [hpc, hacc]
    have := total_set (f := Worker.incs) (w := w') hw
    omega
  | spawn =>
    rw [total_concat]
    rfl

theorem counted_entry (h : s.Counted) (hs : Entry .beg s s') : s'.Counted := by
  have hreq := entry_reqidx hs
  refine ⟨?_, fun t w' hw' r hr => ?_⟩
  · rw [hreq, h.total, (entry_workers hs).incs]
  · rw [hreq]
    obtain hb | ⟨w, hw, he⟩ := (entry_workers hs).pc hw'
    · rw [hb] at hr
      cases hr
    · exact h.store t w hw r (he ▸ hr)

theorem counted_step {a : Act} (h : s.Counted) (hl : s.Locked) (hs : Step .beg s a s') :
    s'.Counted := by
  cases hs with
  | request hpc => exact ⟨h.total, h.store⟩
  | entry hs => exact counted_entry h hs
  | createFails hpc => exact ⟨h.total, h.store⟩
  | tf0 hw hs => exact counted_tf0 h hl hw hs
  | @cancel t w hw hc hp =>
    have hinc : w.incs = Worker.incs { w with pc := .dead .canceled } := by
      have hne : w.pc ≠ .count := fun e => by simp [e, Pc.cancellationPoint] at hp
      simp [Worker.incs, hne]
    refine ⟨?_, h.store.set fun r hr => by cases hr⟩
    have := total_set (f := Worker.incs) (w := { w with pc := .dead .canceled }) hw
    show s.reqidxthread = total _ (s.workers.set t _)
    have := h.total
    omega

/-! ## What `stop` returns -/

theorem tf0_acc {st st' : Static} (h : tf0 st t w = some (st', w')) (hj : w.joined = false) :
    w'.yield = w.yield := by
  unfold Worker.yield
  rw [(tf0_cases h).joined, hj]
  rfl

theorem pending_next {i : Fin NTHREADS} {body : Fin NTHREADS → Hpc}
    (hb : ∀ j, (s.goto (body j)).pending = 0) : (s.goto (next i body)).pending = 0 := by
  obtain ⟨j, -, he⟩ | ⟨-, he⟩ := next_cases i body <;> rw [he]
  · exact hb j
  · rfl

/-- Everything a worker has counted is in its counter when it has been joined. -/
theorem Slots.incs (h : Slots s) (hw : s.workers[t]? = some w) (hj : w.joined = true) :
    w.incs = w.yield := by
  have hd := (h.sound t w hw).joined hj
  have hne : w.pc ≠ .count := fun e => by simp [e, Pc.isDead] at hd
  simp [Worker.incs, Worker.yield, hj, hne]

/-- When all workers have been joined, the counter is what they have returned. -/
theorem State.Counted.joined (h : s.Counted) (hs : Slots s)
    (hall : ∀ w ∈ s.workers, w.joined = true) :
    s.reqidxthread = Threads.total Worker.yield s.workers :=
  h.total.trans <| total_congr fun w hw =>
    (List.getElem?_of_mem hw).elim fun _ ht => hs.incs ht (hall w hw)

/-- A step that keeps what has been joined and what has been read. -/
theorem State.Collected.move (h : s.Collected) (s' : State) (hd : s.handler.doomed = false)
    (hb : s'.base = s.base) (hr : s'.returned = s.returned) (hp : s.pending = 0)
    (hp' : s'.pending = 0)
    (hy : Threads.total Worker.yield s'.workers = Threads.total Worker.yield s.workers) :
    s'.Collected := by
  intro _
  rw [hb, hr, hp', hy, ← h hd, hp]

theorem yield_set (w' : Worker) (hw : s.workers[t]? = some w) (hy : w'.yield = w.yield) :
    Threads.total Worker.yield (s.workers.set t w') =
      Threads.total Worker.yield s.workers := by
  have := total_set (f := Worker.yield) (w := w') hw
  omega

theorem collected_entry (h : s.Collected) (hs : Slots s) (hc : s.Counted)
    (he : Entry .beg s s') : s'.Collected := by
  cases he with
  | lock hpc _ => exact h.move _ (hpc ▸ rfl) rfl rfl (by simp [State.pending, hpc]) rfl rfl
  | start hpc =>
    refine h.move _ (hpc ▸ rfl) rfl rfl (by simp [State.pending, hpc]) ?_ rfl
    cases s.running <;> rfl
  | startRun hpc => exact fun _ => hc.joined hs (hs.phaseAt hpc).2.joined
  | create hpc =>
    refine h.move _ (hpc ▸ rfl) rfl rfl (by simp [State.pending, hpc])
      (pending_next fun _ => rfl) ?_
    exact total_concat
  | stop hpc =>
    refine h.move _ (hpc ▸ rfl) rfl rfl (by simp [State.pending, hpc]) ?_ rfl
    cases s.running <;> rfl
  | stopRun hpc => exact h.move _ (hpc ▸ rfl) rfl rfl (by simp [State.pending, hpc]) rfl rfl
  | @join i t w r hpc hi hr =>
    obtain ⟨-, hw, hj⟩ := slot_eq_some_iff.mp hi
    have hp : s.pending = 0 := by simp [State.pending, hpc]
    have hyield : w.yield = 0 := by simp [Worker.yield, hj]
    have htot := total_set (f := Worker.yield) (w := { w with joined := true }) hw
    intro hd
    cases r with
    | canceled => cases hd
    | counter n =>
      rw [(hs.sound t w hw).counter n hr]
      show s.base + s.returned.sum + w.acc = Threads.total _ (s.workers.set t _)
      have := h (hpc ▸ rfl)
      have : Worker.yield { w with joined := true } = w.acc := rfl
      omega
  | @ret i n hpc =>
    have hp : s.pending = n := by simp [State.pending, hpc]
    have hp' : State.pending (((s.collect n).setSlot i none).goto (next i .join)) = 0 :=
      pending_next fun _ => rfl
    intro _
    rw [hp']
    show s.base + (s.returned ++ [n]).sum + 0 = Threads.total _ s.workers
    rw [← h (hpc ▸ rfl), hp, List.sum_append, List.sum_singleton]
    omega
  | setperiod hpc => exact h.move _ (hpc ▸ rfl) rfl rfl (by simp [State.pending, hpc]) rfl rfl
  | cancel hpc hi =>
    exact h.move _ (hpc ▸ rfl) rfl rfl (by simp [State.pending, hpc]) rfl
      (yield_set _ (slot_eq_some_iff.mp hi).2.1 rfl)
  | forget hpc hi =>
    exact h.move _ (hpc ▸ rfl) rfl rfl (by simp [State.pending, hpc]) rfl
      (yield_set _ (slot_eq_some_iff.mp hi).2.1 rfl)
  | forgetNull hpc hi =>
    exact h.move _ (hpc ▸ rfl) rfl rfl (by simp [State.pending, hpc]) rfl rfl
  | unlock hpc => exact h.move _ (hpc ▸ rfl) rfl rfl (by simp [State.pending, hpc]) rfl rfl
  | crash hpc => exact fun hd => by cases hd

theorem collected_step {a : Act} (h : s.Collected) (hs : Slots s) (hc : s.Counted)
    (ha : Step .beg s a s') : s'.Collected := by
  cases ha with
  | @request query stack hpc =>
    refine h.move _ (hpc ▸ rfl) rfl rfl (by simp [State.pending, hpc]) ?_ rfl
    unfold State.request
    cases command query stack <;> rfl
  | entry he => exact collected_entry h hs hc he
  | createFails hpc =>
    exact h.move _ (hpc ▸ rfl) rfl rfl (by simp [State.pending, hpc])
      (pending_next fun _ => rfl) rfl
  | @tf0 t w w' st hw hf =>
    have hj : w.joined = false := by
      by_contra hj
      have := (hs.sound t w hw).joined (by simpa using hj)
      simp [(tf0_cases hf).alive] at this
    exact fun hd => (h hd).trans (yield_set w' hw (tf0_acc hf hj)).symm
  | @cancel t w hw hc hp =>
    exact fun hd => (h hd).trans (yield_set { w with pc := .dead .canceled } hw rfl).symm

end Counted

/-! ## Runs -/

/-- **The lock works.** In a run in which every worker initialises the lock only while nobody is
inside, or while only the joining `stop` is and no worker can still get inside, at most one thread
is ever inside, the counter holds every increment that the workers have executed, and after `stop`
it has grown since `start` by the sum of the counters joined. -/
theorem lock_excludes {s : State} (h : Reach (· = State.init) (step .beg) InitSafe s) :
    (∀ a b, s.Inside a → s.Inside b → a = b) ∧
      s.reqidxthread = total Worker.incs s.workers ∧
      (s.running = false → s.handler = .idle →
        s.reqidxthread = s.base + s.returned.sum) := by
  have hquiet : State.init.Quiet := ⟨rfl, fun _ hw => by cases hw⟩
  have hlock : ∀ s, Reach (· = State.init) (step .beg) InitSafe s → s.Locked := fun s h =>
    h.invariant (fun _ e => e ▸ .inl (Guards.reset hquiet.not_inside fun _ hb => hb))
      fun _ _ _ hi ha hok => locked_step hi (step_cases ha) hok
  have hslots : ∀ s, Reach (· = State.init) (step .beg) InitSafe s → Slots s :=
    fun s h => reach_slots (.inl rfl) h
  have hcount : ∀ s, Reach (· = State.init) (step .beg) InitSafe s → s.Counted := fun s h =>
    Reach.invariant_under hlock (fun _ e => e ▸ ⟨rfl, all_nil⟩)
      (fun _ _ _ hl hi ha _ => counted_step hi hl (step_cases ha)) h
  have hcoll : s.Collected := Reach.invariant_under (fun s h => And.intro (hslots s h) (hcount s h))
    (fun _ e => e ▸ fun _ => rfl)
    (fun _ _ _ hj hi ha _ => collected_step hi hj.1 hj.2 (step_cases ha)) h
  refine ⟨fun a b => (hlock s h).unique, (hcount s h).total, fun hr hpc => ?_⟩
  have hjoined := (hslots s h).stopped hpc hr
  rw [(hcount s h).joined (hslots s h) hjoined, ← hcoll (hpc ▸ rfl)]
  simp [State.pending, hpc]

/-- A `start`, the start-up of the eight workers, one round of worker 0, and a `stop`. -/
def oneRound : List Act :=
  ask "fn=start" :: List.replicate 12 .entry ++
    (List.range 8).flatMap (fun t => List.replicate 3 (.tf0 t)) ++ List.replicate 8 (.tf0 0) ++
    ask "fn=stop" :: List.replicate 3 .entry ++
    (List.range 8).flatMap (fun t => List.replicate 4 (.tf0 t)) ++ List.replicate 17 .entry

theorem lock_excludes_stop : ∃ s : State,
    s.handler = .idle ∧ s.returned = [1, 0, 0, 0, 0, 0, 0, 0] ∧
    (∀ a b, s.Inside a → s.Inside b → a = b) ∧
    s.reqidxthread = total Worker.incs s.workers ∧ s.reqidxthread = s.base + s.returned.sum := by
  have hrun : ((exec (guarded (step .beg) InitSafe) State.init oneRound).map fun s =>
      (s.handler, s.running, s.returned)) = some (.idle, false, [1, 0, 0, 0, 0, 0, 0, 0]) := by
    decide +kernel
  obtain ⟨s, hs, he⟩ := reach_of_exec hrun
  simp only [Prod.mk.injEq] at he
  obtain ⟨h₁, h₂, h₃⟩ := lock_excludes hs
  exact ⟨s, he.1, he.2.2, h₁, h₂, h₃ he.2.1 he.1⟩

/-- Worker 0 starts while `start` is still creating threads, and takes the lock. -/
theorem lock_shared : ¬ ∀ s, Reach (· = State.init) (step .beg) Free s →
    ∀ a b, s.Inside a → s.Inside b → a = b := by
  intro hall
  have hrun : ((exec (guarded (step .beg) Free) State.init
      (ask "fn=start" :: List.replicate 4 .entry ++ List.replicate 5 (.tf0 0))).map fun s =>
        (s.handler, s.workers[0]?.map (·.pc))) = some (.create 1, some .print) := by
    decide +kernel
  obtain ⟨s, hs, he⟩ := reach_of_exec hrun
  simp only [Prod.mk.injEq] at he
  obtain ⟨w, hw, hpc⟩ := Option.map_eq_some_iff.mp he.2
  have := hall s hs .loop (.worker 0)
    (by simp [State.Inside, he.1, Hpc.inside]) ⟨w, hw, by rw [hpc]; rfl⟩
  cases this

end Csrv.Thread
