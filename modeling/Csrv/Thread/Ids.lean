import Csrv.Thread.Slots

/-!
# Thread numbers

The thread numbers that `entry` passes to `pthread_join` and `pthread_cancel`.

1. `State.own`: the number that `pthread_create` has stored in a slot. `Named`: it is that of a
   worker which is neither joined, cancelled nor forgotten, and no other slot has it.
2. `ids_valid`: a run uses thread numbers only while they are valid if no `cancel` meets a slot that
   is empty or was left by a failed `pthread_create`, and no `stop` meets one while the workers run.
-/

namespace Csrv.Thread

open Run Threads

namespace State

/-- What a `pthread_create` that succeeded has stored in slot `i`. -/
def own (s : State) (i : Fin NTHREADS) : Option ℕ := if s.failed i then none else s.tbuf i

/-- A command that finds in the slots it uses what `start` has stored there. -/
def Meets (s : State) : Option Cmd → Prop
  | some (.cancel qtid) => s.own qtid ≠ none
  | some .stop => s.running = true → ∀ i, s.own i ≠ none
  | _ => True

instance (s : State) : (c : Option Cmd) → Decidable (s.Meets c)
  | some (.cancel qtid) => inferInstanceAs (Decidable (s.own qtid ≠ none))
  | some .stop => inferInstanceAs (Decidable (s.running = true → ∀ i, s.own i ≠ none))
  | some .start => inferInstanceAs (Decidable True)
  | some (.setperiod _) => inferInstanceAs (Decidable True)
  | none => inferInstanceAs (Decidable True)

/-- The slots that the command in progress still needs are filled. -/
def Ready (s : State) : Prop :=
  match s.handler with
  | .lock c => s.Meets (some c)
  | .enter c => s.Meets (some c)
  | .stopRun => ∀ i, s.own i ≠ none
  | .join i => ∀ j, i ≤ j → s.own j ≠ none
  | .ret i _ => ∀ j, i < j → s.own j ≠ none
  | .forget i => s.own i ≠ none
  | _ => True

end State

/-- The condition on the requests of a run. -/
def Careful (s : State) : Act → Prop
  | .request query stack => s.Meets (command query stack)
  | _ => True

instance (s : State) : (a : Act) → Decidable (Careful s a)
  | .request query stack => inferInstanceAs (Decidable (s.Meets (command query stack)))
  | .entry => inferInstanceAs (Decidable True)
  | .createFails _ => inferInstanceAs (Decidable True)
  | .tf0 _ => inferInstanceAs (Decidable True)
  | .cancel _ => inferInstanceAs (Decidable True)

/-! ## What a slot names -/

/-- The thread numbers in the table. The flags say how far the command in progress has come with
its slot. -/
structure Named (s : State) : Prop where
  held : ∀ i t, s.own i = some t → ∃ w, s.workers[t]? = some w ∧ w.forgotten = false ∧
    (w.joined = true → ∃ r, s.handler = .ret i r) ∧ (w.canceled = true → s.handler = .forget i)
  inj : ∀ i j t, s.own i = some t → s.own j = some t → i = j
  ret : ∀ i r, s.handler = .ret i r → ∃ t w n, s.tbuf i = some t ∧ s.workers[t]? = some w ∧
    w.pc = .dead (.counter n) ∧ r = .counter n

theorem Named.init : Named State.init where
  held _ _ h := by cases h
  inj _ _ _ h := by cases h
  ret _ _ h := by cases h

section Named

variable {s s' : State} {boot : Pc} {i : Fin NTHREADS} {t : ℕ} {w w' : Worker} {pc : Hpc}

theorem own_eq_some_iff : s.own i = some t ↔ s.failed i = false ∧ s.tbuf i = some t := by
  unfold State.own
  cases s.failed i <;> simp

theorem own_congr (htbuf : s'.tbuf = s.tbuf) (hfailed : s'.failed = s.failed) :
    s'.own = s.own := by
  funext i
  unfold State.own
  rw [htbuf, hfailed]

/-- Slot `i` holds something else than before. -/
theorem own_set {id : Option ℕ} {j : Fin NTHREADS} (hj : j ≠ i)
    (htbuf : s'.tbuf = Function.update s.tbuf i id)
    (hfailed : s'.failed j = s.failed j) : s'.own j = s.own j := by
  unfold State.own
  rw [hfailed, htbuf, Function.update_of_ne hj]

/-- Outside `ret` and `forget` a slot names a worker that is still to be joined. -/
theorem Named.live (h : Named s) (hr : ∀ i r, s.handler ≠ .ret i r)
    (hf : ∀ i, s.handler ≠ .forget i) (ht : s.own i = some t) :
    ∃ w, s.workers[t]? = some w ∧ w.forgotten = false ∧ w.joined = false ∧ w.canceled = false := by
  obtain ⟨w, hw, hfo, hj, hc⟩ := h.held i t ht
  refine ⟨w, hw, hfo, ?_, ?_⟩
  · exact Bool.eq_false_iff.mpr fun e => (hj e).elim fun r hr' => hr i r hr'
  · exact Bool.eq_false_iff.mpr fun e => hf i (hc e)

/-- The event loop moves on, and no slot gets a number. -/
theorem Named.move (h : Named s) (hr : ∀ i r, s.handler ≠ .ret i r)
    (hf : ∀ i, s.handler ≠ .forget i) (s' : State)
    (hown : ∀ i t, s'.own i = some t → s.own i = some t) (hws : s'.workers = s.workers)
    (hr' : ∀ i r, s'.handler ≠ .ret i r) : Named s' where
  held i t ht := by
    obtain ⟨w, hw, hfo, hj, hc⟩ := h.live hr hf (hown i t ht)
    rw [hws]
    exact ⟨w, hw, hfo, by simp [hj], by simp [hc]⟩
  inj i j t hi hj := h.inj i j t (hown i t hi) (hown j t hj)
  ret i r hpc := absurd hpc (hr' i r)

/-- A worker, not yet dead, takes a step of its own. -/
theorem Named.work (h : Named s) (hw : s.workers[t]? = some w) (hd : w.pc.isDead = false)
    (s' : State) (htbuf : s'.tbuf = s.tbuf) (hfailed : s'.failed = s.failed)
    (hpc : s'.handler = s.handler) (hws : s'.workers = s.workers.set t w')
    (hj : w'.joined = w.joined) (hfo : w'.forgotten = w.forgotten)
    (hc : w'.canceled = w.canceled) : Named s' := by
  have hown := own_congr htbuf hfailed
  refine ⟨fun i u hu => ?_, fun i j u => ?_, fun i r hr => ?_⟩
  · rw [hown] at hu
    obtain ⟨v, hv, hvf, hvj, hvc⟩ := h.held i u hu
    rw [hws, hpc]
    by_cases hut : u = t
    · subst hut
      cases hw.symm.trans hv
      refine ⟨w', by rw [List.getElem?_set_self', hw]; rfl, hfo ▸ hvf, ?_, ?_⟩
      · rw [hj]
        exact hvj
      · rw [hc]
        exact hvc
    · exact ⟨v, by rw [List.getElem?_set_ne (Ne.symm hut), hv], hvf, hvj, hvc⟩
  · rw [hown]
    exact h.inj i j u
  · obtain ⟨u, v, n, hu, hv, hvd, hr⟩ := h.ret i r (hpc.symm.trans hr)
    have hne : u ≠ t := by
      rintro rfl
      cases hw.symm.trans hv
      simp [hvd, Pc.isDead] at hd
    exact ⟨u, v, n, htbuf ▸ hu, by rw [hws, List.getElem?_set_ne hne.symm, hv], hvd, hr⟩

/-- The event loop sets a flag of the worker of slot `i`. -/
theorem Named.flag (h : Named s) (w' : Worker) (hr : ∀ i r, s.handler ≠ .ret i r)
    (hf : ∀ i, s.handler ≠ .forget i) (ht : s.own i = some t) (hw : s.workers[t]? = some w)
    (hfo : w'.forgotten = w.forgotten) (hj : w'.joined = true → ∃ r, pc = .ret i r)
    (hc : w'.canceled = true → pc = .forget i)
    (hret : ∀ j r, pc = .ret j r → j = i ∧ ∃ n, w'.pc = .dead (.counter n) ∧ r = .counter n) :
    Named ((s.put t w').goto pc) := by
  have hself : (s.workers.set t w')[t]? = some w' := by rw [List.getElem?_set_self', hw]; rfl
  refine ⟨fun j u hu => ?_, h.inj, fun j r hpc => ?_⟩
  · show ∃ v, (s.workers.set t w')[u]? = some v ∧ _
    obtain ⟨v, hv, hvf, hvj, hvc⟩ := h.live hr hf hu
    by_cases hut : u = t
    · subst hut
      cases h.inj i j u ht hu
      cases hw.symm.trans hv
      exact ⟨w', hself, hfo ▸ hvf, hj, hc⟩
    · exact ⟨v, by rw [List.getElem?_set_ne (Ne.symm hut), hv], hvf, by simp [hvj], by simp [hvc]⟩
  · obtain ⟨rfl, n, hd, hr⟩ := hret j r hpc
    exact ⟨t, w', n, (own_eq_some_iff.mp ht).2, hself, hd, hr⟩

/-- Slot `i`, at which the event loop is, becomes `NULL`. -/
theorem Named.clear (h : Named s) (hi : s.handler = .forget i ∨ ∃ r, s.handler = .ret i r)
    (s' : State) (htbuf : s'.tbuf = Function.update s.tbuf i none) (hfailed : s'.failed = s.failed)
    (hws : ∀ j t, j ≠ i → s.own j = some t → s'.workers[t]? = s.workers[t]?)
    (hr' : ∀ i r, s'.handler ≠ .ret i r) : Named s' := by
  have hslot : ∀ {j t}, s'.own j = some t → j ≠ i ∧ s.own j = some t := by
    intro j t ht
    have hj : j ≠ i := by
      rintro rfl
      have := (own_eq_some_iff.mp ht).2
      rw [htbuf, Function.update_self] at this
      cases this
    rw [own_set hj htbuf (congrFun hfailed j)] at ht
    exact ⟨hj, ht⟩
  refine ⟨fun j t ht => ?_, fun j k t hj hk => h.inj j k t (hslot hj).2 (hslot hk).2,
    fun j r hpc => absurd hpc (hr' j r)⟩
  obtain ⟨hne, ht⟩ := hslot ht
  obtain ⟨w, hw, hfo, hj, hc⟩ := h.held j t ht
  refine ⟨w, (hws j t hne ht).trans hw, hfo, fun e => ?_, fun e => ?_⟩
  · obtain ⟨r, e⟩ := hj e
    obtain hi | ⟨r', hi⟩ := hi
    · cases hi.symm.trans e
    · cases hi.symm.trans e
      exact absurd rfl hne
  · obtain hi | ⟨r', hi⟩ := hi
    · cases hi.symm.trans (hc e)
      exact absurd rfl hne
    · cases hi.symm.trans (hc e)

/-- `start` creates the worker of slot `i`. -/
theorem Named.create (h : Named s) (hpc : s.handler = .create i) (hr' : ∀ j r, pc ≠ .ret j r) :
    Named (((s.spawn { pc := boot }).setSlot i (some s.workers.length)).goto pc) := by
  have hold : ∀ {j t}, s.own j = some t → t < s.workers.length := fun {j t} ht =>
    (h.held j t ht).elim fun w hw => (List.getElem?_eq_some_iff.mp hw.1).1
  have hslot : ∀ {j t}, State.own
      (((s.spawn { pc := boot }).setSlot i (some s.workers.length)).goto pc) j = some t →
      (j = i ∧ t = s.workers.length) ∨ s.own j = some t := by
    intro j t ht
    by_cases hj : j = i
    · subst hj
      have := (own_eq_some_iff.mp ht).2
      change Function.update s.tbuf j (some s.workers.length) j = some t at this
      rw [Function.update_self] at this
      exact .inl ⟨rfl, (Option.some.inj this).symm⟩
    · have hsame : State.own
          (((s.spawn { pc := boot }).setSlot i (some s.workers.length)).goto pc) j = s.own j :=
        own_set hj rfl rfl
      exact .inr (hsame.symm.trans ht)
  refine ⟨fun j t ht => ?_, fun j k t hj hk => ?_, fun j r hpc => absurd hpc (hr' j r)⟩
  · show ∃ w, (s.workers ++ [_])[t]? = some w ∧ _
    obtain ⟨rfl, rfl⟩ | ht := hslot ht
    · exact ⟨_, List.getElem?_concat_length, rfl, by simp, by simp⟩
    · obtain ⟨w, hw, hfo, hj, hc⟩ := h.live (by simp [hpc]) (by simp [hpc]) ht
      exact ⟨w, by rw [List.getElem?_append_left (hold ht), hw], hfo, by simp [hj], by simp [hc]⟩
  · obtain ⟨hji, hjt⟩ | hjs := hslot hj <;> obtain ⟨hki, hkt⟩ | hks := hslot hk
    · exact hji.trans hki.symm
    · exact absurd (hold hks) (by omega)
    · exact absurd (hold hjs) (by omega)
    · exact h.inj j k t hjs hks

theorem next_ne_ret {body : Fin NTHREADS → Hpc} (hb : ∀ i j r, body i ≠ .ret j r) (j : Fin NTHREADS)
    (r : Ret) : next i body ≠ .ret j r := by
  obtain ⟨k, -, he⟩ | ⟨-, he⟩ := next_cases i body <;> rw [he]
  · exact hb k j r
  · simp

/-- A thread that the handler uses is one that `start` has stored. -/
theorem own_of_slot (hi : s.own i ≠ none) (hs : s.slot i = some (t, w)) :
    s.own i = some t ∧ s.workers[t]? = some w ∧ w.joined = false := by
  obtain ⟨u, hu⟩ := Option.ne_none_iff_exists'.mp hi
  obtain ⟨ht, hw, hj⟩ := slot_eq_some_iff.mp hs
  cases (own_eq_some_iff.mp hu).2.symm.trans ht
  exact ⟨hu, hw, hj⟩

/-- **A step of `entry`** that finds its slots filled. -/
theorem Named.entry (h : Named s) (hs : Slots s) (hready : s.Ready) (he : Entry boot s s') :
    Named s' := by
  unfold State.Ready at hready
  cases he with
  | lock hpc _ =>
    exact h.move (by simp [hpc]) (by simp [hpc]) _ (fun _ _ => id) rfl (by simp)
  | start hpc =>
    refine h.move (by simp [hpc]) (by simp [hpc]) _ (fun _ _ => id) rfl fun j r => ?_
    show (if s.running then Hpc.unlock else .startRun) ≠ _
    split_ifs <;> simp
  | startRun hpc =>
    -- nothing is left in the table
    have hnone : ∀ i, s.tbuf i = none := fun i => (hs.phaseAt hpc).2.emptied i i.isLt
    refine h.move (by simp [hpc]) (by simp [hpc]) _ (fun i t ht => ?_) rfl (by simp)
    have := (own_eq_some_iff.mp ht).2
    cases (hnone i).symm.trans this
  | create hpc => exact h.create hpc (next_ne_ret (by simp))
  | stop hpc =>
    refine h.move (by simp [hpc]) (by simp [hpc]) _ (fun _ _ => id) rfl fun j r => ?_
    show (if s.running then Hpc.stopRun else .unlock) ≠ _
    split_ifs <;> simp
  | stopRun hpc => exact h.move (by simp [hpc]) (by simp [hpc]) _ (fun _ _ => id) rfl (by simp)
  | @join i t w r hpc hi hd =>
    rw [hpc] at hready
    obtain ⟨ht, hw, -⟩ := own_of_slot (hready i le_rfl) hi
    obtain ⟨v, hv, -, -, hc⟩ := h.live (by simp [hpc]) (by simp [hpc]) ht
    cases hw.symm.trans hv
    -- a cancelled worker is not in the table
    obtain ⟨n, rfl⟩ : ∃ n, r = .counter n := by
      cases r with
      | counter n => exact ⟨n, rfl⟩
      | canceled => exact absurd ((hs.sound t w hw).canceled hd) (by simp [hc])
    refine h.flag _ (by simp [hpc]) (by simp [hpc]) ht hw rfl (fun _ => ⟨_, rfl⟩) (by simp [hc])
      fun j r hret => ?_
    cases hret
    exact ⟨rfl, n, hd, rfl⟩
  | @ret i n hpc =>
    exact h.clear (.inr ⟨_, hpc⟩) _ rfl rfl (fun _ _ _ _ => rfl) (next_ne_ret (by simp))
  | setperiod hpc => exact h.move (by simp [hpc]) (by simp [hpc]) _ (fun _ _ => id) rfl (by simp)
  | @cancel i t w hpc hi =>
    rw [hpc] at hready
    obtain ⟨ht, hw, hj⟩ := own_of_slot hready hi
    exact h.flag _ (by simp [hpc]) (by simp [hpc]) ht hw rfl (by simp [hj]) (fun _ => rfl) (by simp)
  | @forget i t w hpc hi =>
    rw [hpc] at hready
    obtain ⟨ht, -, -⟩ := own_of_slot hready hi
    refine h.clear (.inl hpc) _ rfl rfl (fun j u hne hu => ?_) (by simp [State.goto])
    have hut : t ≠ u := fun e => hne (h.inj j i u hu (e ▸ ht))
    exact List.getElem?_set_ne hut
  | forgetNull hpc hi =>
    exact h.clear (.inl hpc) _ rfl rfl (fun _ _ _ _ => rfl) (by simp [State.goto])
  | unlock hpc => exact h.move (by simp [hpc]) (by simp [hpc]) _ (fun _ _ => id) rfl (by simp)
  | crash hpc =>
    have hne : ∀ j r, s.crash.handler ≠ .ret j r := fun j r e => by cases e
    obtain ⟨i, hpc | hpc, -⟩ | ⟨i, hpc⟩ := hpc
    · exact h.move (by simp [hpc]) (by simp [hpc]) _ (fun _ _ => id) rfl hne
    · exact h.move (by simp [hpc]) (by simp [hpc]) _ (fun _ _ => id) rfl hne
    · obtain ⟨t, w, n, -, -, -, hr⟩ := h.ret i _ hpc
      cases hr

theorem Named.step {a : Act} (h : Named s) (hs : Slots s) (hready : s.Ready)
    (ha : Step boot s a s') : Named s' := by
  cases ha with
  | @request query stack hpc =>
    refine h.move (by simp [hpc]) (by simp [hpc]) _ (fun _ _ => id) rfl fun i r => ?_
    unfold State.request
    cases command query stack <;> exact fun e => by cases e
  | entry he => exact h.entry hs hready he
  | @createFails i id hpc =>
    refine h.move (by simp [hpc]) (by simp [hpc]) _ (fun j t ht => ?_) rfl (next_ne_ret (by simp))
    have hj : j ≠ i := by
      rintro rfl
      have := (own_eq_some_iff.mp ht).1
      change Function.update s.failed j true j = false at this
      rw [Function.update_self] at this
      cases this
    exact (own_set hj rfl (Function.update_of_ne hj _ _)).symm.trans ht
  | tf0 hw hf =>
    have hf := tf0_cases hf
    exact h.work hw hf.alive _ hf.tbuf rfl rfl rfl hf.joined hf.forgotten hf.canceled
  | @cancel t w hw hc hp =>
    have hd : w.pc.isDead = false := by
      revert hp
      cases w.pc <;> simp [Pc.cancellationPoint, Pc.isDead]
    exact h.work hw hd _ rfl rfl rfl rfl rfl rfl rfl

end Named

/-! ## What a command needs -/

section Ready

variable {s s' : State} {boot : Pc}

theorem State.Ready.congr (h : s.Ready) (s' : State) (hpc : s'.handler = s.handler)
    (htbuf : s'.tbuf = s.tbuf) (hfailed : s'.failed = s.failed) (hrun : s'.running = s.running) :
    s'.Ready := by
  have hown := own_congr htbuf hfailed
  have hmeets : s'.Meets = s.Meets := by
    funext c
    unfold State.Meets
    rw [hown, hrun]
  unfold State.Ready at h ⊢
  rw [hpc, hown, hmeets]
  exact h

theorem ready_next {i : Fin NTHREADS} {body : Fin NTHREADS → Hpc}
    (hb : ∀ j : Fin NTHREADS, j.val = i.val + 1 → (s.goto (body j)).Ready) :
    (s.goto (next i body)).Ready := by
  obtain ⟨j, hj, he⟩ | ⟨-, he⟩ := next_cases i body <;> rw [he]
  · exact hb j hj
  · trivial

theorem ready_entry (h : s.Ready) (hs : Entry boot s s') : s'.Ready := by
  unfold State.Ready at h
  cases hs with
  | lock hpc _ =>
    rw [hpc] at h
    exact h
  | start hpc =>
    cases hr : s.running
    · trivial
    · trivial
  | startRun hpc => trivial
  | create hpc => exact ready_next fun _ _ => trivial
  | stop hpc =>
    rw [hpc] at h
    cases hr : s.running
    · trivial
    · exact h hr
  | stopRun hpc =>
    rw [hpc] at h
    exact fun j _ => h j
  | join hpc _ _ =>
    rw [hpc] at h
    exact fun j hj => h j hj.le
  | @ret i n hpc =>
    rw [hpc] at h
    apply ready_next
    intro j hj k hk
    have hij : i < k := Fin.lt_def.mpr (by have := Fin.val_le_of_le hk; omega)
    have hown : State.own (((s.collect n).setSlot i none).goto (.join j)) k = s.own k :=
      own_set hij.ne' rfl rfl
    rw [hown]
    exact h k hij
  | setperiod hpc => trivial
  | cancel hpc _ =>
    rw [hpc] at h
    exact h
  | forget hpc _ => trivial
  | forgetNull hpc _ => trivial
  | unlock hpc => trivial
  | crash hpc => trivial

theorem ready_step {a : Act} (h : s.Ready) (hs : Step boot s a s') (hok : Careful s a) :
    s'.Ready := by
  cases hs with
  | @request query stack hpc =>
    unfold State.request
    cases hc : command query stack with
    | none => trivial
    | some c =>
      change s.Meets (command query stack) at hok
      rw [hc] at hok
      exact hok
  | entry hs => exact ready_entry h hs
  | createFails hpc => exact ready_next fun _ _ => trivial
  | @tf0 t w w' st hw hs =>
    have hs := tf0_cases hs
    exact h.congr _ rfl hs.tbuf rfl hs.running
  | cancel hw hc hp => exact h

end Ready

/-! ## Runs -/

/-- A thread that `start` has created and that is neither joined nor forgotten. -/
def State.Valid (s : State) (t : ℕ) : Prop :=
  ∃ w, s.workers[t]? = some w ∧ w.joined = false ∧ w.forgotten = false

/-- What `entry` is about to pass to `pthread_join` and `pthread_cancel` is valid, and the pointer
that `stop` is about to read and free is the one that the worker of the slot has returned. -/
structure IdsValid (s : State) : Prop where
  join : ∀ i, s.handler = .join i → ∃ t, s.tbuf i = some t ∧ s.Valid t
  cancel : ∀ i, s.handler = .enter (.cancel i) → ∃ t, s.tbuf i = some t ∧ s.Valid t
  ret : ∀ i r, s.handler = .ret i r → ∃ t w n, s.tbuf i = some t ∧ s.workers[t]? = some w ∧
    w.pc = .dead (.counter n) ∧ r = .counter n

/-- **Valid thread numbers.** In a run in which every `cancel` meets a slot that `start` has filled,
and every `stop` finds the whole table so or nothing running, `pthread_join` and `pthread_cancel`
are applied to the numbers of workers that are neither joined nor forgotten, and the pointers that
`stop` reads and frees come from the workers' `tf0`. -/
theorem ids_valid {s : State} (h : Reach (· = State.init) (step .beg) Careful s) : IdsValid s := by
  have hready : ∀ s, Reach (· = State.init) (step .beg) Careful s → s.Ready := fun s h =>
    h.invariant (fun _ e => e ▸ trivial) fun _ _ _ hi hs hok => ready_step hi (step_cases hs) hok
  have hn : Named s := Reach.invariant_under
    (fun s h => And.intro (reach_slots (.inl rfl) h) (hready s h)) (fun _ e => e ▸ Named.init)
    (fun _ _ _ hj hi hs _ => hi.step hj.1 hj.2 (step_cases hs)) h
  have hr := hready s h
  unfold State.Ready at hr
  have hvalid : ∀ i, (∀ i r, s.handler ≠ .ret i r) → (∀ i, s.handler ≠ .forget i) →
      s.own i ≠ none → ∃ t, s.tbuf i = some t ∧ s.Valid t := by
    intro i hret hf hne
    obtain ⟨t, ht⟩ := Option.ne_none_iff_exists'.mp hne
    obtain ⟨w, hw, hfo, hj, -⟩ := hn.live hret hf ht
    exact ⟨t, (own_eq_some_iff.mp ht).2, w, hw, hj, hfo⟩
  refine ⟨fun i hpc => ?_, fun i hpc => ?_, hn.ret⟩
  · rw [hpc] at hr
    exact hvalid i (by simp [hpc]) (by simp [hpc]) (hr i le_rfl)
  · rw [hpc] at hr
    exact hvalid i (by simp [hpc]) (by simp [hpc]) hr

/-- The event loop at the first join of the `stop` that follows a `start`. -/
theorem ids_valid_join : ∃ s, s.handler = .join 0 ∧ IdsValid s := by
  have hrun : ((exec (guarded (step .beg) Careful) State.init
      (ask "fn=start" :: List.replicate 12 .entry ++ ask "fn=stop" :: List.replicate 3 .entry)).map
        (·.handler)) = some (.join 0) := by
    decide +kernel
  obtain ⟨s, hs, hpc⟩ := reach_of_exec hrun
  exact ⟨s, hpc, ids_valid hs⟩

/-- A first request `fn=cancel&tid=0` passes `NULL` to `pthread_cancel`. -/
theorem cancel_null : ¬ ∀ s, Reach (· = State.init) (step .beg) Free s → IdsValid s := by
  intro hall
  have hrun : ((exec (guarded (step .beg) Free) State.init [ask "fn=cancel&tid=0", .entry]).map
      fun s => (s.handler, s.tbuf 0)) = some (.enter (.cancel 0), none) := by
    decide +kernel
  obtain ⟨s, hs, he⟩ := reach_of_exec hrun
  simp only [Prod.mk.injEq] at he
  obtain ⟨t, ht, -⟩ := (hall s hs).cancel 0 he.1
  rw [he.2] at ht
  cases ht

end Csrv.Thread
