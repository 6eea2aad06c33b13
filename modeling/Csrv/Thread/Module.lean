import Csrv.Lib.Run
import Csrv.Lib.Threads
import Csrv.Mongoose.Url
import Mathlib.Data.Fintype.Basic
import Mathlib.Logic.Function.Basic

/-!
# The thread module

`thread/src/a.c`: the request handler `entry`, which starts, stops and cancels workers, and the
workers' function `tf0`, over the static variables of the module.

Every read or write of a static variable, every operation on `lock` and every call that creates,
joins or cancels a thread is one step; a step belongs to the event loop or to one worker.
`reqidxthread++` is a load and a store. A pending cancellation takes effect at a cancellation
point: it must at `usleep`, it may at `printf`. `malloc` succeeds; `pthread_create` may fail and
then leaves anything in its slot: `NULL`, the number of another thread or of none. A `pthread_t` is
the number of the thread.

The pages that `entry` writes and the string `data` that is handed to a worker are left out.
-/

namespace Csrv.Thread

open Csrv.Mongoose Threads

abbrev NTHREADS : ℕ := 8

/-! ## The request -/

/-- The four commands, with the slot for `cancel` and the period in microseconds. -/
inductive Cmd
  | start
  | stop
  | setperiod (qperiod : ℤ)
  | cancel (qtid : Fin NTHREADS)
  deriving DecidableEq

theorem toNat_lt {qtid : ℤ} (h : 0 ≤ qtid ∧ qtid < NTHREADS) : qtid.toNat < NTHREADS := by omega

/-- The command of a query; `none` if the page is all that is served. `stack` are the stale bytes
of the buffer. -/
def command (query : Bytes) (stack : Fin 32 → UInt8) : Option Cmd :=
  let (_, buf) := mgHttpGetVar query (ascii "fn") (List.ofFn stack)
  if cstr buf = ascii "start" then some .start
  else if cstr buf = ascii "stop" then some .stop
  else if cstr buf = ascii "setperiod" then
    let (_, buf) := mgHttpGetVar query (ascii "period") buf
    if cstr buf ≠ ascii "period" then some (.setperiod (atoi (cstr buf))) else none
  else if cstr buf = ascii "cancel" then
    let (_, buf) := mgHttpGetVar query (ascii "tid") buf
    if cstr buf ≠ ascii "tid" then
      let qtid := atoi (cstr buf)
      if h : 0 ≤ qtid ∧ qtid < NTHREADS then some (.cancel ⟨qtid.toNat, toNat_lt h⟩) else none
    else none
  else none

/-! ## State -/

/-- What `pthread_join` stores: a counter that `tf0` has allocated, or `PTHREAD_CANCELED`. -/
inductive Ret
  | counter (acc : ℕ)
  | canceled
  deriving DecidableEq

/-- Where a worker is in `tf0`. -/
inductive Pc
  | beg
  | init
  | find
  | test
  | lock
  | print
  | load
  | store (reqidx : ℕ)
  | count
  | unlock
  | sleep
  | free
  | printEnd
  | exit
  | dead (ret : Ret)
  deriving DecidableEq

/-- The calls of `printf` and `usleep`. -/
def Pc.cancellationPoint : Pc → Bool
  | .beg | .print | .sleep | .printEnd => true
  | _ => false

/-- Between `pthread_mutex_lock` and `pthread_mutex_unlock`. -/
def Pc.inside : Pc → Bool
  | .print | .load | .store _ | .count | .unlock => true
  | _ => false

/-- After the loop, but for a cancelled worker. -/
def Pc.leaving : Pc → Bool
  | .free | .printEnd | .exit | .dead (.counter _) => true
  | _ => false

def Pc.isDead : Pc → Bool
  | .dead _ => true
  | _ => false

/-- A thread that `start` has created. `joined` and `forgotten` record what `entry` has done with
its number: `pthread_join`, or the `NULL` that `cancel` writes over it. -/
structure Worker where
  pc : Pc
  acc : ℕ := 0
  tidx : ℕ := 0
  canceled : Bool := false
  joined : Bool := false
  forgotten : Bool := false
  deriving DecidableEq

/-- The event loop, or a worker. -/
inductive Agent
  | loop
  | worker (t : ℕ)
  deriving DecidableEq

/-- Where the event loop is in `entry`: before the lock, behind it, in the loops of `start` and
`stop` at slot `i`, and at the unlock. -/
inductive Hpc
  | idle
  | lock (c : Cmd)
  | enter (c : Cmd)
  | startRun
  | create (i : Fin NTHREADS)
  | stopRun
  | join (i : Fin NTHREADS)
  | ret (i : Fin NTHREADS) (r : Ret)
  | forget (i : Fin NTHREADS)
  | unlock
  | crashed
  deriving DecidableEq

/-- Between `pthread_mutex_lock` and `pthread_mutex_unlock`. -/
def Hpc.inside : Hpc → Bool
  | .idle | .lock _ | .crashed => false
  | _ => true

/-- In the joins of `stop`, or at the unlock. -/
def Hpc.closing : Hpc → Bool
  | .join _ | .ret _ _ | .unlock => true
  | _ => false

/-- The static variables. -/
structure Static where
  reqidxthread : ℕ := 0
  running : Bool := false
  lock : Option Agent := none
  period : ℕ := 1000000
  tbuf : Fin NTHREADS → Option ℕ := fun _ => none

/-- `base` is the value of `reqidxthread` when `start` last set `running`, `returned` the counters
that `stop` has joined since, and `failed` the slots whose `pthread_create` has failed since. -/
structure State extends Static where
  workers : List Worker := []
  handler : Hpc := .idle
  base : ℕ := 0
  returned : List ℕ := []
  failed : Fin NTHREADS → Bool := fun _ => false

/-- The module when the loader has mapped it and run `ctor`. -/
def State.init : State := {}

def State.dtor (s : State) : State := { s with reqidxthread := 0 }

/-! ## `tf0` -/

/-- The search of `tf0` for its own number. -/
def tbufIndex (tbuf : Fin NTHREADS → Option ℕ) (t : ℕ) : ℕ :=
  (List.finRange NTHREADS).findIdx fun tidx => tbuf tidx == some t

/-- A step of worker `t`; `none` while it waits for the lock, while it must be cancelled and when
it has ended. -/
def tf0 (s : Static) (t : ℕ) (w : Worker) : Option (Static × Worker) :=
  match w.pc with
  | .beg => some (s, { w with pc := .init })
  | .init => some ({ s with lock := none }, { w with pc := .find })
  | .find => some (s, { w with pc := .test, tidx := tbufIndex s.tbuf t })
  | .test => some (s, { w with pc := if s.running then .lock else .free })
  | .lock =>
    if s.lock = none then some ({ s with lock := some (.worker t) }, { w with pc := .print })
    else none
  | .print => some (s, { w with pc := .load })
  | .load => some (s, { w with pc := .store s.reqidxthread })
  | .store r => some ({ s with reqidxthread := r + 1 }, { w with pc := .count })
  | .count => some (s, { w with pc := .unlock, acc := w.acc + 1 })
  | .unlock => some ({ s with lock := none }, { w with pc := .sleep })
  | .sleep => if w.canceled then none else some (s, { w with pc := .test })
  | .free => some (s, { w with pc := .printEnd })
  | .printEnd => some (s, { w with pc := .exit })
  | .exit => some (s, { w with pc := .dead (.counter w.acc) })
  | .dead _ => none

/-! ## `entry` -/

/-- The loop head of `start` and `stop` after slot `i`. -/
def next (i : Fin NTHREADS) (body : Fin NTHREADS → Hpc) : Hpc :=
  if h : i.val + 1 < NTHREADS then body ⟨i.val + 1, h⟩ else .unlock

namespace State

def goto (s : State) (pc : Hpc) : State := { s with handler := pc }

/-- The call of `entry` for a request. -/
def request (s : State) (query : Bytes) (stack : Fin 32 → UInt8) : State :=
  s.goto (((command query stack).map Hpc.lock).getD .idle)

/-- The process dies. -/
def crash (s : State) : State := s.goto .crashed

/-- Worker `t` changes to `w`. -/
def put (s : State) (t : ℕ) (w : Worker) : State := { s with workers := s.workers.set t w }

def spawn (s : State) (w : Worker) : State := { s with workers := s.workers ++ [w] }

def collect (s : State) (n : ℕ) : State := { s with returned := s.returned ++ [n] }

def setSlot (s : State) (i : Fin NTHREADS) (id : Option ℕ) : State :=
  { s with tbuf := Function.update s.tbuf i id }

/-- `pthread_create` fails for slot `i` and leaves `id` in it. -/
def fail (s : State) (i : Fin NTHREADS) (id : Option ℕ) : State :=
  { s.setSlot i id with failed := Function.update s.failed i true }

/-- The thread that slot `i` names, unless it has been joined. -/
def slot (s : State) (i : Fin NTHREADS) : Option (ℕ × Worker) :=
  (s.tbuf i).bind fun t => (s.workers[t]?).bind fun w => if w.joined then none else some (t, w)

end State

/-- A step of `entry`; `none` while it is blocked. New workers start at `boot`. -/
def entry (boot : Pc) (s : State) : Option State :=
  match s.handler with
  | .idle => none
  | .lock c =>
    if s.lock = none then some { s with lock := some .loop, handler := .enter c } else none
  | .enter .start => some (s.goto (if s.running then .unlock else .startRun))
  | .startRun =>
    some { s with
      running := true, base := s.reqidxthread, returned := [], failed := fun _ => false,
      handler := .create 0 }
  | .create i =>
    some (((s.spawn { pc := boot }).setSlot i (some s.workers.length)).goto (next i .create))
  | .enter .stop => some (s.goto (if s.running then .stopRun else .unlock))
  | .stopRun => some { s with running := false, handler := .join 0 }
  | .join i =>
    match s.slot i with
    | none => some s.crash
    | some (t, w) =>
      match w.pc with
      | .dead r => some ((s.put t { w with joined := true }).goto (.ret i r))
      | _ => none
  | .ret i (.counter n) =>
    some (((s.collect n).setSlot i none).goto (next i .join))
  | .ret _ .canceled => some s.crash
  | .enter (.setperiod qperiod) =>
    some { s with period := (qperiod % 2 ^ 32).toNat, handler := .unlock }
  | .enter (.cancel i) =>
    match s.slot i with
    | none => some s.crash
    | some (t, w) => some ((s.put t { w with canceled := true }).goto (.forget i))
  | .forget i =>
    match s.slot i with
    | none => some ((s.setSlot i none).goto .unlock)
    | some (t, w) => some (((s.put t { w with forgotten := true }).setSlot i none).goto .unlock)
  | .unlock => some { s with lock := none, handler := .idle }
  | .crashed => none

/-! ## Steps -/

inductive Act
  | request (query : Bytes) (stack : Fin 32 → UInt8)
  | entry
  | createFails (id : Option ℕ)
  | tf0 (t : ℕ)
  | cancel (t : ℕ)

def step (boot : Pc) (s : State) (a : Act) : Option State :=
  if s.handler = .crashed then none
  else
    match a with
    | .request query stack =>
      if s.handler = .idle then some (s.request query stack) else none
    | .entry => entry boot s
    | .createFails id =>
      match s.handler with
      | .create i => some ((s.fail i id).goto (next i .create))
      | _ => none
    | .tf0 t => do
      let w ← s.workers[t]?
      let (st, w) ← tf0 s.toStatic t w
      some ({ s with toStatic := st }.put t w)
    | .cancel t => do
      let w ← s.workers[t]?
      if w.canceled && w.pc.cancellationPoint then some (s.put t { w with pc := .dead .canceled })
      else none

/-! ## What a step does -/

theorem slot_eq_some_iff {s : State} {i : Fin NTHREADS} {t : ℕ} {w : Worker} :
    s.slot i = some (t, w) ↔ s.tbuf i = some t ∧ s.workers[t]? = some w ∧ w.joined = false := by
  unfold State.slot
  simp only [Option.bind_eq_some_iff]
  constructor
  · rintro ⟨u, hu, v, hv, h⟩
    split_ifs at h with hj
    cases h
    exact ⟨hu, hv, by simpa using hj⟩
  · rintro ⟨ht, hw, hj⟩
    exact ⟨t, ht, w, hw, by simp [hj]⟩

/-- The steps of `entry`, one for each place. -/
inductive Entry (boot : Pc) (s : State) : State → Prop
  | lock {c : Cmd} (hpc : s.handler = .lock c) (hl : s.lock = none) :
      Entry boot s { s with lock := some .loop, handler := .enter c }
  | start (hpc : s.handler = .enter .start) :
      Entry boot s (s.goto (if s.running then .unlock else .startRun))
  | startRun (hpc : s.handler = .startRun) :
      Entry boot s { s with
        running := true, base := s.reqidxthread, returned := [], failed := fun _ => false,
        handler := .create 0 }
  | create {i : Fin NTHREADS} (hpc : s.handler = .create i) :
      Entry boot s
        (((s.spawn { pc := boot }).setSlot i (some s.workers.length)).goto (next i .create))
  | stop (hpc : s.handler = .enter .stop) :
      Entry boot s (s.goto (if s.running then .stopRun else .unlock))
  | stopRun (hpc : s.handler = .stopRun) :
      Entry boot s { s with running := false, handler := .join 0 }
  | join {i : Fin NTHREADS} {t : ℕ} {w : Worker} {r : Ret} (hpc : s.handler = .join i)
      (hs : s.slot i = some (t, w)) (hr : w.pc = .dead r) :
      Entry boot s ((s.put t { w with joined := true }).goto (.ret i r))
  | ret {i : Fin NTHREADS} {n : ℕ} (hpc : s.handler = .ret i (.counter n)) :
      Entry boot s (((s.collect n).setSlot i none).goto (next i .join))
  | setperiod {q : ℤ} (hpc : s.handler = .enter (.setperiod q)) :
      Entry boot s { s with period := (q % 2 ^ 32).toNat, handler := .unlock }
  | cancel {i : Fin NTHREADS} {t : ℕ} {w : Worker} (hpc : s.handler = .enter (.cancel i))
      (hs : s.slot i = some (t, w)) :
      Entry boot s ((s.put t { w with canceled := true }).goto (.forget i))
  | forget {i : Fin NTHREADS} {t : ℕ} {w : Worker} (hpc : s.handler = .forget i)
      (hs : s.slot i = some (t, w)) :
      Entry boot s (((s.put t { w with forgotten := true }).setSlot i none).goto .unlock)
  | forgetNull {i : Fin NTHREADS} (hpc : s.handler = .forget i) (hs : s.slot i = none) :
      Entry boot s ((s.setSlot i none).goto .unlock)
  | unlock (hpc : s.handler = .unlock) : Entry boot s { s with lock := none, handler := .idle }
  /-- A `NULL` or used-up thread number, or `PTHREAD_CANCELED` read as a pointer. -/
  | crash (hpc : (∃ i, (s.handler = .join i ∨ s.handler = .enter (.cancel i)) ∧ s.slot i = none) ∨
      ∃ i, s.handler = .ret i .canceled) : Entry boot s s.crash

theorem entry_cases {boot : Pc} {s s' : State} (h : entry boot s = some s') : Entry boot s s' := by
  unfold entry at h
  cases hpc : s.handler with
  | idle => simp [hpc] at h
  | lock c =>
    simp only [hpc] at h
    split_ifs at h with hl
    cases h
    exact .lock hpc hl
  | enter c =>
    cases c with
    | start =>
      simp only [hpc] at h
      cases h
      exact .start hpc
    | stop =>
      simp only [hpc] at h
      cases h
      exact .stop hpc
    | setperiod q =>
      simp only [hpc] at h
      cases h
      exact .setperiod hpc
    | cancel i =>
      simp only [hpc] at h
      split at h <;> cases h
      · exact .crash (.inl ⟨i, .inr hpc, ‹_›⟩)
      · exact .cancel hpc ‹_›
  | startRun =>
    simp only [hpc] at h
    cases h
    exact .startRun hpc
  | create i =>
    simp only [hpc] at h
    cases h
    exact .create hpc
  | stopRun =>
    simp only [hpc] at h
    cases h
    exact .stopRun hpc
  | join i =>
    simp only [hpc] at h
    split at h
    · cases h
      exact .crash (.inl ⟨i, .inl hpc, ‹_›⟩)
    · split at h <;> cases h
      exact .join hpc ‹_› ‹_›
  | ret i r =>
    cases r with
    | counter n =>
      simp only [hpc] at h
      cases h
      exact .ret hpc
    | canceled =>
      simp only [hpc] at h
      cases h
      exact .crash (.inr ⟨i, hpc⟩)
  | forget i =>
    simp only [hpc] at h
    split at h <;> cases h
    · exact .forgetNull hpc ‹_›
    · exact .forget hpc ‹_›
  | unlock =>
    simp only [hpc] at h
    cases h
    exact .unlock hpc
  | crashed => simp [hpc] at h

/-- What `entry` does with the workers: nothing, a flag of one of them, or a new one. -/
inductive Touches (boot : Pc) (ws : List Worker) : List Worker → Prop
  | none : Touches boot ws ws
  | flag {t : ℕ} {w w' : Worker} (hw : ws[t]? = some w) (hpc : w'.pc = w.pc)
      (hacc : w'.acc = w.acc) : Touches boot ws (ws.set t w')
  | spawn : Touches boot ws (ws ++ [{ pc := boot }])

theorem entry_workers {boot : Pc} {s s' : State} (h : Entry boot s s') :
    Touches boot s.workers s'.workers := by
  cases h with
  | create hpc => exact .spawn
  | join hpc hs hr => exact .flag (slot_eq_some_iff.mp hs).2.1 rfl rfl
  | cancel hpc hs => exact .flag (slot_eq_some_iff.mp hs).2.1 rfl rfl
  | forget hpc hs => exact .flag (slot_eq_some_iff.mp hs).2.1 rfl rfl
  | _ => exact .none

/-- What a step of `tf0` leaves alone, and where it can lead. -/
structure Tf0 (s : Static) (w : Worker) (s' : Static) (w' : Worker) : Prop where
  running : s'.running = s.running
  tbuf : s'.tbuf = s.tbuf
  canceled : w'.canceled = w.canceled
  joined : w'.joined = w.joined
  forgotten : w'.forgotten = w.forgotten
  alive : w.pc.isDead = false
  lock : w'.pc = .lock → s.running = true
  leaving : w'.pc.leaving = true → w.pc.leaving = true ∨ s.running = false
  dead : ∀ r, w'.pc = .dead r → r = .counter w'.acc

theorem tf0_cases {s s' : Static} {t : ℕ} {w w' : Worker} (h : tf0 s t w = some (s', w')) :
    Tf0 s w s' w' := by
  cases hpc : w.pc <;> simp only [tf0, hpc] at h
  case test =>
    cases h
    cases hr : s.running <;> constructor <;> simp [hpc, hr, Pc.leaving, Pc.isDead]
  case lock =>
    split_ifs at h
    cases h
    constructor <;> simp [hpc, Pc.leaving, Pc.isDead]
  case sleep =>
    split_ifs at h
    cases h
    constructor <;> simp [hpc, Pc.leaving, Pc.isDead]
  case dead => cases h
  all_goals
    cases h
    constructor <;> simp [hpc, Pc.leaving, Pc.isDead]

/-- The steps of the module. -/
inductive Step (boot : Pc) (s : State) : Act → State → Prop
  | request {query : Bytes} {stack : Fin 32 → UInt8} (hpc : s.handler = .idle) :
      Step boot s (.request query stack) (s.request query stack)
  | entry {s' : State} (h : Entry boot s s') : Step boot s .entry s'
  | createFails {i : Fin NTHREADS} {id : Option ℕ} (hpc : s.handler = .create i) :
      Step boot s (.createFails id) ((s.fail i id).goto (next i .create))
  | tf0 {t : ℕ} {w w' : Worker} {st : Static} (hw : s.workers[t]? = some w)
      (h : tf0 s.toStatic t w = some (st, w')) :
      Step boot s (.tf0 t) ({ s with toStatic := st }.put t w')
  | cancel {t : ℕ} {w : Worker} (hw : s.workers[t]? = some w) (hc : w.canceled = true)
      (hp : w.pc.cancellationPoint = true) :
      Step boot s (.cancel t) (s.put t { w with pc := .dead .canceled })

theorem step_cases {boot : Pc} {s s' : State} {a : Act} (h : step boot s a = some s') :
    Step boot s a s' := by
  unfold step at h
  by_cases hc : s.handler = .crashed
  · rw [if_pos hc] at h
    cases h
  rw [if_neg hc] at h
  cases a with
  | request query stack =>
    dsimp only at h
    split_ifs at h with hpc
    cases h
    exact .request hpc
  | entry => exact .entry (entry_cases h)
  | createFails id =>
    dsimp only at h
    split at h
    · cases h
      exact .createFails ‹_›
    · cases h
  | tf0 t =>
    obtain ⟨w, hw, h⟩ := Option.bind_eq_some_iff.mp h
    obtain ⟨⟨st, w'⟩, hf, h⟩ := Option.bind_eq_some_iff.mp h
    cases h
    exact .tf0 hw hf
  | cancel t =>
    obtain ⟨w, hw, h⟩ := Option.bind_eq_some_iff.mp h
    split_ifs at h with hc
    cases h
    rw [Bool.and_eq_true] at hc
    exact .cancel hw hc.1 hc.2

/-- `next` goes to the loop's body or behind the loop. -/
theorem next_cases (i : Fin NTHREADS) (body : Fin NTHREADS → Hpc) :
    (∃ j : Fin NTHREADS, j.val = i.val + 1 ∧ next i body = body j) ∨
      i.val + 1 = NTHREADS ∧ next i body = .unlock := by
  unfold next
  split_ifs with h
  · exact .inl ⟨⟨i.val + 1, h⟩, rfl, rfl⟩
  · exact .inr ⟨by omega, rfl⟩

end Csrv.Thread
