import Csrv.Lib.Run
import Mathlib.Algebra.Order.Ring.Int

/-!
# The load client

`rps/index.js`: START issues a request, and each answer issues the next one as long as the client
is running. The browser runs one handler at a time; in between, clicks and answers come in any
order. The state keeps the requests without an answer; the display is left out.

`one_in_flight_iff`: in a run in which no START finds the client stopped with a request still
pending, one request is pending while the client runs and at most one otherwise.
-/

namespace Csrv.Www.Rps

open Run

structure Stat where
  t0 : ℤ
  idx : ℕ
  idxs : ℕ

structure Client where
  running : Bool
  graphupdateperiodms : ℤ
  stat : Stat
  issued : ℕ
  /-- The requests that have been issued and not been answered. -/
  pending : List ℕ

namespace Client

/-- `exec`. -/
def exec (c : Client) : Client :=
  { c with issued := c.issued + 1, pending := c.pending ++ [c.issued] }

def start (c : Client) : Client :=
  if !c.running then
    let c := { c with stat := { c.stat with idx := 0 } }
    let c := { c with running := true }
    c.exec
  else c

def stop (c : Client) : Client := if c.running then { c with running := false } else c

/-- `hdlAjaxSuccess` at time `t`. -/
def hdlAjaxSuccess (t : ℤ) (c : Client) : Client :=
  let stat := { c.stat with idx := c.stat.idx + 1, idxs := c.stat.idxs + 1 }
  let tdiff := t - stat.t0
  let stat := if tdiff > c.graphupdateperiodms then { stat with t0 := t, idxs := 0 } else stat
  let c := { c with stat }
  if c.running then c.exec else c

def hdlAjaxError (t : ℤ) (c : Client) : Client := c.hdlAjaxSuccess t

/-- The end of the script: a page that was left running starts again. -/
def ready (c : Client) : Client := if c.running then { c with running := false }.start else c

end Client

/-- What happens to the page. -/
inductive Act
  | start
  | stop
  | answer (i : ℕ) (ok : Bool) (t : ℤ)

def step (c : Client) : Act → Option Client
  | .start => some c.start
  | .stop => some c.stop
  | .answer i ok t =>
    if i ∈ c.pending then
      let c := { c with pending := c.pending.erase i }
      some (if ok then c.hdlAjaxSuccess t else c.hdlAjaxError t)
    else none

/-- The page when its script has run, with the configuration of the address bar. -/
def Ready (c : Client) : Prop :=
  ∃ running period t0, c = Client.ready ⟨running, period, ⟨t0, 0, 0⟩, 0, []⟩

/-- One request in flight while the client runs, at most one otherwise. -/
def OneInFlight (c : Client) : Prop :=
  c.pending.length ≤ 1 ∧ (c.running = true → c.pending.length = 1)

instance (c : Client) : Decidable (OneInFlight c) := inferInstanceAs (Decidable (_ ∧ _))

/-- A START that takes effect comes when nothing is pending any more. -/
def Drained (c : Client) : Act → Prop
  | .start => c.running = false → c.pending = []
  | _ => True

section Steps

variable {c c' : Client} {a : Act}

@[simp] theorem exec_pending : c.exec.pending = c.pending ++ [c.issued] := rfl

@[simp] theorem exec_running : c.exec.running = c.running := rfl

/-- What an answer does. -/
theorem hdlAjaxSuccess_cases (t : ℤ) : (c.hdlAjaxSuccess t).running = c.running ∧
    (c.hdlAjaxSuccess t).pending =
      if c.running then c.pending ++ [c.issued] else c.pending := by
  unfold Client.hdlAjaxSuccess
  cases c.running with
  | false => simp
  | true => simp

/-- What a step does to the requests in flight. -/
theorem step_cases (h : step c a = some c') :
    (a = .start ∧ c.running = false ∧ c'.running = true ∧ c'.pending = c.pending ++ [c.issued]) ∨
      (a = .start ∧ c.running = true ∧ c' = c) ∨
      (a = .stop ∧ c'.running = false ∧ c'.pending = c.pending) ∨
      ∃ i ok t, a = .answer i ok t ∧ i ∈ c.pending ∧ c'.running = c.running ∧
        c'.pending = if c.running then c.pending.erase i ++ [c.issued] else c.pending.erase i := by
  cases a with
  | start =>
    obtain rfl := Option.some.inj h
    unfold Client.start
    cases hr : c.running with
    | false => exact .inl ⟨rfl, rfl, rfl, rfl⟩
    | true => exact .inr (.inl ⟨rfl, rfl, rfl⟩)
  | stop =>
    obtain rfl := Option.some.inj h
    refine .inr (.inr (.inl ⟨rfl, ?_⟩))
    unfold Client.stop
    split_ifs with hr
    · exact ⟨rfl, rfl⟩
    · exact ⟨by simpa using hr, rfl⟩
  | answer i ok t =>
    simp only [step] at h
    by_cases hi : i ∈ c.pending
    · rw [if_pos hi] at h
      obtain rfl := Option.some.inj h
      refine .inr (.inr (.inr ⟨i, ok, t, rfl, hi, ?_⟩))
      cases ok with
      | true => exact hdlAjaxSuccess_cases t
      | false => exact hdlAjaxSuccess_cases t
    · rw [if_neg hi] at h
      cases h

/-- **Step.** -/
theorem OneInFlight.step_iff (hc : OneInFlight c) (h : step c a = some c') :
    OneInFlight c' ↔ Drained c a := by
  unfold OneInFlight at hc ⊢
  rcases step_cases h with ⟨rfl, hr, hr', hp⟩ | ⟨rfl, hr, rfl⟩ | ⟨rfl, hr', hp⟩ |
    ⟨i, ok, t, rfl, hi, hr', hp⟩
  · rw [hp, hr', List.length_append, List.length_singleton]
    constructor
    · intro hle _
      exact List.length_eq_zero_iff.mp (by omega)
    · intro hd
      simp [hd hr]
  · refine iff_of_true hc fun hf => ?_
    rw [hr] at hf
    cases hf
  · refine iff_of_true ⟨hp ▸ hc.1, fun hr => ?_⟩ trivial
    rw [hr'] at hr
    cases hr
  · -- the answered request was the only one
    have hlen : (c.pending.erase i).length = 0 := by
      rw [List.length_erase_of_mem hi]
      omega
    refine iff_of_true ?_ trivial
    rw [hp, hr']
    cases c.running with
    | false => simp [hlen]
    | true => simp [hlen]

theorem Ready.oneInFlight (h : Ready c) : OneInFlight c := by
  obtain ⟨running, period, t0, rfl⟩ := h
  cases running with
  | false => exact ⟨Nat.zero_le _, fun h => absurd h (by simp [Client.ready])⟩
  | true => exact ⟨le_rfl, fun _ => rfl⟩

end Steps

/-- **One request in flight.** As long as every START that takes effect has come with nothing
pending, one request is pending while the client runs and at most one otherwise; and the next step
keeps that exactly if it is no START with a request still pending. -/
theorem one_in_flight_iff {c : Client} (h : Reach Ready step Drained c) :
    OneInFlight c ∧ ∀ a c', step c a = some c' → (OneInFlight c' ↔ Drained c a) := by
  have hc : OneInFlight c := h.invariant (fun _ hr => hr.oneInFlight)
    fun _ _ _ hi hs hok => (hi.step_iff hs).mpr hok
  exact ⟨hc, fun a c' hs => hc.step_iff hs⟩

/-- The page as it is loaded without a configuration. -/
def freshPage : Client := Client.ready ⟨false, 1000, ⟨0, 0, 0⟩, 0, []⟩

theorem freshPage_ready : Ready freshPage := ⟨false, 1000, 0, rfl⟩

/-- START and one answer: the second request is in flight. -/
theorem one_in_flight_start : ∃ c, c.pending = [1] ∧ OneInFlight c := by
  have h : Reach Ready step Drained _ :=
    .step (.step (.init freshPage_ready) (a := .start) rfl fun _ => rfl)
      (a := .answer 0 true 7) rfl trivial
  exact ⟨_, rfl, (one_in_flight_iff h).1⟩

/-- START, STOP and START again, with the first request still pending. -/
theorem two_in_flight : ¬ ∀ c, Reach Ready step Free c → OneInFlight c := by
  intro hall
  have h : Reach Ready step Free _ :=
    .step (.step (.step (.init freshPage_ready) (a := .start) rfl trivial)
      (a := .stop) rfl trivial) (a := .start) rfl trivial
  exact absurd (hall _ h) (by decide)

end Csrv.Www.Rps
