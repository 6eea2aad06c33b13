import Csrv.Thread.Module

/-!
# The thread table

What `tbuf`, `running` and the workers have to do with each other in every reachable state, under
every order of requests and steps.

`Slots`: a worker that has not been joined is named by a slot that `stop` has still to come to, or
one of these slots is empty. It follows that while nothing runs every worker has been joined. What
a failed `pthread_create` leaves in its slot does not matter for this.
-/

namespace Csrv.Thread

open Run Threads

/-! ## The invariant -/

/-- What a worker's fields have to do with each other. -/
structure Worker.Sound (running : Bool) (w : Worker) : Prop where
  counter : ∀ n, w.pc = .dead (.counter n) → n = w.acc
  canceled : w.pc = .dead .canceled → w.canceled = true
  joined : w.joined = true → w.pc.isDead = true
  leaving : w.joined = false → w.pc.leaving = true → running = false

namespace State

/-- The slots from `k` on name every worker that is still to be joined, or one of them is empty. -/
def Kept (s : State) (k : ℕ) : Prop :=
  All (fun t w => w.joined = false →
    ∃ j : Fin NTHREADS, k ≤ j.val ∧ (s.tbuf j = some t ∨ s.tbuf j = none)) s.workers

/-- The slots below `k` are empty. -/
def Emptied (s : State) (k : ℕ) : Prop := ∀ j : Fin NTHREADS, j.val < k → s.tbuf j = none

/-- The slots from `k` on are empty, those below name every worker that is still to be joined. -/
structure Filled (s : State) (k : ℕ) : Prop where
  above : ∀ j : Fin NTHREADS, k ≤ j.val → s.tbuf j = none
  named : All (fun t w => w.joined = false → ∃ j, s.tbuf j = some t) s.workers

/-- The loop of `stop` has handled the slots below `k`. -/
structure Swept (s : State) (k : ℕ) : Prop where
  emptied : s.Emptied k
  kept : s.Kept k

/-- The table at each place of `entry`. -/
def Phase (s : State) : Hpc → Prop
  | .startRun => s.running = false ∧ s.Swept NTHREADS
  | .create i => s.running = true ∧ s.Filled i.val
  | .stopRun => s.running = true ∧ s.Swept 0
  | .join i => s.running = false ∧ s.Swept i.val
  | .ret i _ => s.running = false ∧ s.Emptied i.val ∧ s.Kept (i.val + 1)
  | .crashed => True
  | _ => s.Swept (if s.running then 0 else NTHREADS)

end State

/-- The workers and the thread table. -/
structure Slots (s : State) : Prop where
  sound : All (fun _ w => w.Sound s.running) s.workers
  phase : s.Phase s.handler

theorem Slots.init : Slots State.init where
  sound := all_nil
  phase := ⟨fun _ _ => rfl, all_nil⟩

/-! ## Steps -/

section Steps

variable {s : State} {i : Fin NTHREADS} {t : ℕ} {w w' : Worker} {pc : Hpc}

/-- All workers are joined when no slot is left. -/
theorem State.Swept.joined (h : s.Swept NTHREADS) : ∀ w ∈ s.workers, w.joined = true := by
  intro w hw
  obtain ⟨t, ht⟩ := List.getElem?_of_mem hw
  by_contra hj
  obtain ⟨j, hle, -⟩ := h.kept t w ht (by simpa using hj)
  exact absurd j.isLt (by omega)

theorem State.Swept.congr {k : ℕ} (h : s.Swept k) (s' : State) (htbuf : s'.tbuf = s.tbuf)
    (hws : s'.workers = s.workers) : s'.Swept k := by
  refine ⟨?_, ?_⟩
  · unfold State.Emptied
    rw [htbuf]
    exact h.emptied
  · unfold State.Kept
    rw [htbuf, hws]
    exact h.kept

theorem State.Filled.kept {k : ℕ} (h : s.Filled k) : s.Kept 0 :=
  h.named.imp fun _ _ _ hn hj => (hn hj).imp fun _ hj => ⟨Nat.zero_le _, .inl hj⟩

/-- In the loop of `stop`, slot `i` has been handled. -/
theorem State.Swept.next (h : s.Swept (i.val + 1)) (hr : s.running = false) :
    (s.goto (next i .join)).Phase (next i .join) := by
  obtain ⟨j, hj, he⟩ | ⟨hi, he⟩ := next_cases i .join
  · rw [he]
    refine ⟨hr, ?_⟩
    rw [hj]
    exact ⟨h.emptied, h.kept⟩
  · rw [he]
    rw [hi] at h
    show State.Swept _ (if s.running then 0 else NTHREADS)
    rw [hr]
    exact ⟨h.emptied, h.kept⟩

/-- In the loop of `start`, slot `i` has been handled. -/
theorem State.Filled.next (h : s.Filled (i.val + 1)) (hr : s.running = true) :
    (s.goto (next i .create)).Phase (next i .create) := by
  obtain ⟨j, hj, he⟩ | ⟨-, he⟩ := next_cases i .create
  · rw [he]
    refine ⟨hr, ?_⟩
    rw [hj]
    exact ⟨h.above, h.named⟩
  · rw [he]
    show State.Swept _ (if s.running then 0 else NTHREADS)
    rw [hr]
    exact ⟨fun _ hj => absurd hj (Nat.not_lt_zero _), h.kept⟩

/-- A slot after slot `i` has been emptied. -/
theorem setSlot_none_eq_none {j : Fin NTHREADS} (h : j ≠ i → s.tbuf j = none) :
    (s.setSlot i none).tbuf j = none := by
  show Function.update s.tbuf i none j = none
  by_cases hji : j = i
  · rw [hji, Function.update_self]
  · rw [Function.update_of_ne hji]
    exact h hji

/-- `cancel` has emptied slot `i`. -/
theorem State.Swept.forget (h : s.Swept (if s.running then 0 else NTHREADS)) :
    ((s.setSlot i none).goto .unlock).Phase .unlock := by
  refine ⟨fun j hj => ?_, h.kept.imp fun t w _ hk hj => ?_⟩
  · exact setSlot_none_eq_none fun _ => h.emptied j hj
  · obtain ⟨j, hle, hj⟩ := hk hj
    refine ⟨j, hle, ?_⟩
    show Function.update s.tbuf i none j = _ ∨ Function.update s.tbuf i none j = _
    by_cases hji : j = i
    · rw [hji, Function.update_self]
      exact .inr rfl
    · rw [Function.update_of_ne hji]
      exact hj

theorem Slots.phaseAt (h : Slots s) (hpc : s.handler = pc) : s.Phase pc := hpc ▸ h.phase

/-- The event loop moves on and leaves the workers alone. -/
theorem Slots.move (h : Slots s) (s' : State) (hws : s'.workers = s.workers)
    (hrun : s'.running = true → s.running = true ∨ ∀ w ∈ s.workers, w.joined = true)
    (hp : s'.Phase s'.handler) : Slots s' where
  sound := by
    rw [hws]
    refine h.sound.imp fun t w hw hs => ⟨hs.counter, hs.canceled, hs.joined, fun hj hl => ?_⟩
    apply Bool.eq_false_iff.mpr
    intro hrt
    obtain hrt | hall := hrun hrt
    · exact absurd (hs.leaving hj hl) (by simp [hrt])
    · exact absurd (hall w (List.mem_of_getElem? hw)) (by simp [hj])
  phase := hp

/-- A worker takes a step of its own. -/
theorem Slots.work (h : Slots s) (hw : s.workers[t]? = some w) (s' : State)
    (htbuf : s'.tbuf = s.tbuf) (hrun : s'.running = s.running) (hpc : s'.handler = s.handler)
    (hws : s'.workers = s.workers.set t w') (hj : w'.joined = w.joined)
    (hs : w'.Sound s.running) : Slots s' := by
  have hkept : ∀ k, s.Kept k → s'.Kept k := by
    intro k hk
    unfold State.Kept
    rw [hws, htbuf]
    exact hk.set fun hj' => hk t w hw (hj ▸ hj')
  have hempt : ∀ k, s.Emptied k → s'.Emptied k := by
    intro k hk
    unfold State.Emptied
    rw [htbuf]
    exact hk
  have hswept : ∀ k, s.Swept k → s'.Swept k := fun k hk => ⟨hempt k hk.1, hkept k hk.2⟩
  have hfilled : ∀ k, s.Filled k → s'.Filled k := by
    intro k hk
    refine ⟨by rw [htbuf]; exact hk.above, ?_⟩
    rw [hws, htbuf]
    exact hk.named.set fun hj' => hk.named t w hw (hj ▸ hj')
  refine ⟨?_, ?_⟩
  · rw [hws, hrun]
    exact h.sound.set hs
  · rw [hpc]
    cases hh : s.handler <;> have hp := h.phaseAt hh <;> unfold State.Phase <;> rw [hrun]
    case startRun => exact ⟨hp.1, hswept _ hp.2⟩
    case create i => exact ⟨hp.1, hfilled _ hp.2⟩
    case stopRun => exact ⟨hp.1, hswept _ hp.2⟩
    case join i => exact ⟨hp.1, hswept _ hp.2⟩
    case ret i r => exact ⟨hp.1, hempt _ hp.2.1, hkept _ hp.2.2⟩
    case crashed => trivial
    all_goals exact hswept _ hp

/-- The swept table of a handler that is outside the loops and between two changes of `running`. -/
theorem Slots.swept (h : Slots s) (hs : s.handler = .idle ∨ (∃ c, s.handler = .lock c) ∨
    (∃ c, s.handler = .enter c) ∨ (∃ i, s.handler = .forget i) ∨ s.handler = .unlock) :
    s.Swept (if s.running then 0 else NTHREADS) := by
  obtain hh | ⟨c, hh⟩ | ⟨c, hh⟩ | ⟨i, hh⟩ | hh := hs <;> exact h.phaseAt hh

/-- In the loop of `start`, slot `i` gets what it will keep. -/
theorem State.Filled.set (h : s.Filled i.val) (id : Option ℕ) :
    (s.setSlot i id).Filled (i.val + 1) := by
  have hne : ∀ {j : Fin NTHREADS} {t : ℕ}, s.tbuf j = some t → j ≠ i := fun hj e => by
    simp [e, h.above i le_rfl] at hj
  refine ⟨fun j hj => ?_, h.named.imp fun t w _ hn hj => (hn hj).imp fun j hj => ?_⟩
  · have hji : j ≠ i := fun e => by rw [e] at hj; omega
    show Function.update s.tbuf i id j = none
    rw [Function.update_of_ne hji]
    exact h.above j (by omega)
  · exact (Function.update_of_ne (hne hj) _ _).trans hj

/-- `start` creates the worker of slot `i`. -/
theorem Slots.create (h : Slots s) {boot : Pc} (hb : boot = .beg ∨ boot = .test)
    (hpc : s.handler = .create i) : Slots
      (((s.spawn { pc := boot }).setSlot i (some s.workers.length)).goto (next i .create)) := by
  obtain ⟨hr, hfill⟩ := h.phaseAt hpc
  refine ⟨h.sound.concat ?_, ?_⟩
  · obtain rfl | rfl := hb <;> constructor <;> simp [Pc.leaving]
  · have hset := hfill.set (some s.workers.length)
    refine State.Filled.next (s := (s.spawn { pc := boot }).setSlot i (some s.workers.length))
      ⟨hset.above, hset.named.concat fun _ => ⟨i, Function.update_self _ _ _⟩⟩ hr

/-- It does not. -/
theorem Slots.createFails (h : Slots s) (hpc : s.handler = .create i) (id : Option ℕ) :
    Slots ((s.fail i id).goto (next i .create)) := by
  obtain ⟨hr, hfill⟩ := h.phaseAt hpc
  have hset := hfill.set id
  exact h.move _ rfl .inl (State.Filled.next (s := s.fail i id) ⟨hset.above, hset.named⟩ hr)

/-- `stop` joins the worker of slot `i`. -/
theorem Slots.join (h : Slots s) {r : Ret} (hpc : s.handler = .join i)
    (hi : s.slot i = some (t, w)) (hr : w.pc = .dead r) :
    Slots ((s.put t { w with joined := true }).goto (.ret i r)) := by
  obtain ⟨ht, hw, -⟩ := slot_eq_some_iff.mp hi
  have hsound := h.sound t w hw
  obtain ⟨hrun, hsw⟩ := h.phaseAt hpc
  refine ⟨h.sound.set ⟨hsound.counter, hsound.canceled, fun _ => by simp [hr, Pc.isDead],
    by simp⟩, hrun, hsw.emptied, ?_⟩
  intro u v hv hj
  obtain ⟨rfl, rfl⟩ | ⟨hne, hv⟩ := getElem?_set_some hv
  · cases hj
  · obtain ⟨j, hle, hslot⟩ := hsw.kept u v hv hj
    have hji : j ≠ i := by
      rintro rfl
      simp [ht, hne.symm] at hslot
    exact ⟨j, by have := Fin.val_ne_of_ne hji; omega, hslot⟩

/-- `stop` reads what it has joined and empties slot `i`. -/
theorem Slots.ret (h : Slots s) {n : ℕ} (hpc : s.handler = .ret i (.counter n)) :
    Slots (((s.collect n).setSlot i none).goto (next i .join)) := by
  obtain ⟨hr, hempt, hkept⟩ := h.phaseAt hpc
  refine h.move _ rfl .inl ?_
  refine State.Swept.next (s := (s.collect n).setSlot i none) ⟨fun j hj => ?_, ?_⟩ hr
  · refine setSlot_none_eq_none fun hji => ?_
    have := Fin.val_ne_of_ne hji
    exact hempt j (by omega)
  · refine hkept.imp fun t w _ hk hj => (hk hj).imp fun j => ?_
    rintro ⟨hle, hj⟩
    have hji : j ≠ i := fun e => by rw [e] at hle; omega
    refine ⟨hle, ?_⟩
    show Function.update s.tbuf i none j = _ ∨ Function.update s.tbuf i none j = _
    rw [Function.update_of_ne hji]
    exact hj

/-- **A step of `entry`.** -/
theorem Slots.entry (h : Slots s) {boot : Pc} (hb : boot = .beg ∨ boot = .test) {s' : State}
    (hs : Entry boot s s') : Slots s' := by
  cases hs with
  | lock hpc hl => exact h.move _ rfl .inl ((h.swept (.inr (.inl ⟨_, hpc⟩))).congr _ rfl rfl)
  | start hpc =>
    have hsw := h.swept (.inr (.inr (.inl ⟨_, hpc⟩)))
    refine h.move _ rfl .inl ?_
    cases hr : s.running with
    | false =>
      rw [hr] at hsw
      exact ⟨hr, hsw.congr _ rfl rfl⟩
    | true => exact hsw.congr _ rfl rfl
  | startRun hpc =>
    obtain ⟨-, hsw⟩ := h.phaseAt hpc
    refine h.move _ rfl (fun _ => .inr hsw.joined) ⟨rfl, ?_, ?_⟩
    · exact fun j _ => hsw.emptied j j.isLt
    · exact fun t w hw hj => absurd (hsw.joined w (List.mem_of_getElem? hw)) (by simp [hj])
  | create hpc => exact h.create hb hpc
  | stop hpc =>
    have hsw := h.swept (.inr (.inr (.inl ⟨_, hpc⟩)))
    refine h.move _ rfl .inl ?_
    cases hr : s.running with
    | false => exact hsw.congr _ rfl rfl
    | true =>
      rw [hr] at hsw
      exact ⟨hr, hsw.congr _ rfl rfl⟩
  | stopRun hpc =>
    obtain ⟨-, hsw⟩ := h.phaseAt hpc
    exact h.move _ rfl (by simp) ⟨rfl, hsw.emptied, hsw.kept⟩
  | join hpc hi hr => exact h.join hpc hi hr
  | ret hpc => exact h.ret hpc
  | setperiod hpc =>
    exact h.move _ rfl .inl ((h.swept (.inr (.inr (.inl ⟨_, hpc⟩)))).congr _ rfl rfl)
  | @cancel i t w hpc hi =>
    obtain ⟨ht, hw, hj⟩ := slot_eq_some_iff.mp hi
    have hsw := h.swept (.inr (.inr (.inl ⟨_, hpc⟩)))
    have hsound := h.sound t w hw
    refine ⟨h.sound.set ⟨hsound.counter, fun _ => rfl, hsound.joined, hsound.leaving⟩,
      hsw.emptied, ?_⟩
    exact hsw.kept.set (hsw.kept t w hw)
  | @forget i t w hpc hi =>
    obtain ⟨ht, hw, hj⟩ := slot_eq_some_iff.mp hi
    have hsw := h.swept (.inr (.inr (.inr (.inl ⟨_, hpc⟩))))
    have hsound := h.sound t w hw
    refine ⟨h.sound.set ⟨hsound.counter, hsound.canceled, hsound.joined, hsound.leaving⟩, ?_⟩
    refine State.Swept.forget (s := s.put t _) ⟨hsw.emptied, ?_⟩
    exact hsw.kept.set (hsw.kept t w hw)
  | @forgetNull i hpc hi =>
    exact h.move _ rfl .inl (h.swept (.inr (.inr (.inr (.inl ⟨_, hpc⟩))))).forget
  | unlock hpc =>
    exact h.move _ rfl .inl ((h.swept (.inr (.inr (.inr (.inr hpc))))).congr _ rfl rfl)
  | crash hpc => exact h.move _ rfl .inl trivial

theorem Slots.request (h : Slots s) (hpc : s.handler = .idle) {query : Bytes}
    {stack : Fin 32 → UInt8} : Slots (s.request query stack) := by
  have hsw := h.swept (.inl hpc)
  refine h.move _ rfl .inl ?_
  unfold State.request
  cases command query stack <;> exact hsw.congr _ rfl rfl

theorem Slots.dtor (h : Slots s) (hpc : s.handler = .idle) : Slots s.dtor := by
  refine h.move _ rfl .inl ?_
  rw [show s.dtor.handler = .idle from hpc]
  exact (h.swept (.inl hpc)).congr _ rfl rfl

/-- When nothing runs and `entry` is not in use, every worker has been joined. -/
theorem Slots.stopped (h : Slots s) (hpc : s.handler = .idle) (hr : s.running = false) :
    ∀ w ∈ s.workers, w.joined = true := by
  have hsw := h.swept (.inl hpc)
  rw [hr] at hsw
  exact hsw.joined

theorem Slots.step (h : Slots s) {boot : Pc} (hb : boot = .beg ∨ boot = .test) {s' : State}
    {a : Act} (hs : Step boot s a s') : Slots s' := by
  cases hs with
  | request hpc => exact h.request hpc
  | entry hs => exact h.entry hb hs
  | createFails hpc => exact h.createFails hpc _
  | @tf0 t w w' st hw hs =>
    have hs := tf0_cases hs
    have hsound := h.sound t w hw
    refine h.work hw _ hs.tbuf hs.running rfl rfl hs.joined
      ⟨fun n e => ?_, fun e => ?_, fun e => ?_, fun hj hl => ?_⟩
    · simpa using hs.dead _ e
    · simpa using hs.dead _ e
    · rw [hs.joined] at e
      exact absurd (hsound.joined e) (by simp [hs.alive])
    · rw [hs.joined] at hj
      exact (hs.leaving hl).elim (hsound.leaving hj) id
  | @cancel t w hw hc hp =>
    exact h.work hw _ rfl rfl rfl rfl rfl
      ⟨by simp, fun _ => hc, fun _ => rfl, fun _ e => by simp [Pc.leaving] at e⟩

end Steps

theorem reach_slots {boot : Pc} (hb : boot = .beg ∨ boot = .test) {ok : State → Act → Prop}
    {s : State} (h : Reach (· = State.init) (step boot) ok s) : Slots s :=
  h.invariant (fun _ e => e ▸ Slots.init) fun _ _ _ hi hs _ => hi.step hb (step_cases hs)

/-! ## Runs -/

theorem reach_of_exec {ok : State → Act → Prop} [∀ s a, Decidable (ok s a)] {acts : List Act}
    {α : Type} {f : State → α} {a : α}
    (h : (exec (guarded (step boot) ok) State.init acts).map f = some a) :
    ∃ s, Reach (· = State.init) (step boot) ok s ∧ f s = a :=
  Reach.exec_map (.init rfl) h

/-- A request with this query, on a stack of zeros. -/
def ask (query : String) : Act := .request (ascii query) fun _ => 0

end Csrv.Thread
