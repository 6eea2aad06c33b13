import Csrv.App.Instances
import Csrv.Thread.Slots

/-!
# Unloading a module under its threads

The server and the thread module together: `exlib` and the unload passes of `appmain` produce their
calls of the loader and of `entry` one by one, in between the workers of the module take steps, and
`entry` of the thread module runs to its end before the next call.

`unload_stopped_iff`: in every run, at the `dlclose` that drops the last reference to the thread
module, no worker is still in `tf0` exactly when `running` is 0 or every worker not yet joined has
been cancelled and has ended.
-/

namespace Csrv.App

open Csrv.Map Csrv.Mongoose Run

/-- `queue` are the calls that the event loop still has to make for the request in progress, or for
the shutdown; `query` and `stack` belong to that request. -/
structure Sys where
  srv : Server
  loader : Loader
  thr : Thread.State
  queue : List Event
  query : Bytes
  stack : Fin 32 → UInt8
  up : Bool

namespace Sys

/-- The server when it starts to run, with the loads of `lodlibs` ahead. -/
def boot (ds : List DirEntry) : Option Sys :=
  (appmainStart (some ds)).map fun o =>
    ⟨o.1, Loader.init, Thread.State.init, o.2, [], fun _ => 0, true⟩

def Start (s : Sys) : Prop := ∃ ds, boot ds = some s

/-- What a call of the event loop does to the thread module, whose handle is `mod`: loading maps
it afresh, unloading runs `dtor`, or kills the process if a worker is still in its code. -/
def perform (mod : ℕ) (s : Sys) : Event → Thread.State
  | .dlopen _ h => if h = mod ∧ h ≠ 0 ∧ s.loader.refs mod = 0 then Thread.State.init else s.thr
  | .dlclose _ h =>
    if h = mod ∧ s.loader.refs mod = 1 then
      if s.thr.workers.all (·.pc.isDead) then s.thr.dtor else s.thr.crash
    else s.thr
  | .call sym => if sym.origin = mod then s.thr.request s.query s.stack else s.thr
  | _ => s.thr

end Sys

inductive SysAct
  | request (r : Request) (stack : Fin 32 → UInt8)
  | shutdown
  | call
  | thread (a : Thread.Act)

/-- The event loop waits for a request. -/
def Sys.Waiting (s : Sys) : Prop := s.up = true ∧ s.queue = [] ∧ s.thr.handler = .idle

instance (s : Sys) : Decidable s.Waiting := inferInstanceAs (Decidable (_ ∧ _))

def Sys.step (al : Malloc) (mod : ℕ) (s : Sys) : SysAct → Option Sys
  | .request r stack =>
    if s.Waiting then
      (exlib al s.srv r).map fun o => { s with srv := o.1, queue := o.2.1, query := r.query, stack }
    else none
  | .shutdown =>
    if s.Waiting then (appmainUnload s.srv).map fun ev => { s with queue := ev, up := false }
    else none
  | .call =>
    match s.queue with
    | [] => none
    | e :: queue =>
      if s.thr.handler = .idle then
        some { s with loader := s.loader.step e, thr := s.perform mod e, queue }
      else none
  | .thread (.request _ _) => none
  | .thread a => (Thread.step .beg s.thr a).map fun thr => { s with thr }

/-- The event loop is about to drop the last reference to the module. -/
def Sys.LastClose (mod : ℕ) (s : Sys) : Prop :=
  s.thr.handler = .idle ∧ s.loader.refs mod = 1 ∧ ∃ c rest, s.queue = .dlclose c mod :: rest

/-! ## Runs -/

section Runs

variable {mod : ℕ} {s : Sys}

theorem perform_slots (h : Thread.Slots s.thr) (hpc : s.thr.handler = .idle) (e : Event) :
    Thread.Slots (s.perform mod e) := by
  unfold Sys.perform
  split
  · split_ifs
    · exact Thread.Slots.init
    · exact h
  · split_ifs
    · exact h.dtor hpc
    · exact h.move _ rfl .inl trivial
    · exact h
  · split_ifs
    · exact h.request hpc
    · exact h
  · exact h

theorem step_slots {al : Malloc} {a : SysAct} {s' : Sys} (h : Thread.Slots s.thr)
    (hs : s.step al mod a = some s') : Thread.Slots s'.thr := by
  unfold Sys.step at hs
  split at hs
  · split_ifs at hs
    obtain ⟨o, -, rfl⟩ := Option.map_eq_some_iff.mp hs
    exact h
  · split_ifs at hs
    obtain ⟨o, -, rfl⟩ := Option.map_eq_some_iff.mp hs
    exact h
  · split at hs
    · cases hs
    · split_ifs at hs with hpc
      cases hs
      exact perform_slots h hpc _
  · cases hs
  · obtain ⟨thr, hthr, rfl⟩ := Option.map_eq_some_iff.mp hs
    exact h.step (.inl rfl) (Thread.step_cases hthr)

theorem reach_sys_slots {al : Malloc} {ok : Sys → SysAct → Prop}
    (h : Reach Sys.Start (Sys.step al mod) ok s) : Thread.Slots s.thr := by
  refine h.invariant (I := fun s => Thread.Slots s.thr) ?_ fun _ _ _ hi hs _ => step_slots hi hs
  rintro s ⟨ds, hs⟩
  obtain ⟨o, -, rfl⟩ := Option.map_eq_some_iff.mp hs
  exact Thread.Slots.init

end Runs

/-- **Unloading.** In every run of requests, worker steps and shutdown, at the `dlclose` that drops
the last reference to the thread module every worker has left `tf0` exactly when `running` is 0 or
every worker that has not been joined has been cancelled and has ended. -/
theorem unload_stopped_iff {al : Malloc} {mod : ℕ} {s : Sys}
    (h : Reach Sys.Start (Sys.step al mod) Free s) (hl : s.LastClose mod) :
    (∀ w ∈ s.thr.workers, w.pc.isDead = true) ↔
      s.thr.running = false ∨
        ∀ w ∈ s.thr.workers, w.joined = false → w.pc = .dead .canceled := by
  have hs := reach_sys_slots h
  have hsound : ∀ w ∈ s.thr.workers, w.Sound s.thr.running := fun w hw =>
    (List.getElem?_of_mem hw).elim fun t ht => hs.sound t w ht
  constructor
  · intro hdead
    by_cases hr : s.thr.running = false
    · exact .inl hr
    · -- a worker that has returned saw `running` cleared, and only `stop` clears it
      refine .inr fun w hw hj => ?_
      have hd := hdead w hw
      have hret : w.pc.leaving = false :=
        Bool.eq_false_iff.mpr fun hlv => hr ((hsound w hw).leaving hj hlv)
      revert hd hret
      rcases hpc : w.pc with _ | _ | _ | _ | _ | _ | _ | _ | _ | _ | _ | _ | _ | _ | (_ | _) <;>
        simp [Thread.Pc.isDead, Thread.Pc.leaving]
  · rintro (hr | hc) w hw
    · exact (hsound w hw).joined (hs.stopped hl.1 hr w hw)
    · cases hj : w.joined with
      | true => exact (hsound w hw).joined hj
      | false =>
        rw [hc w hw hj]
        rfl

/-- A request for `/thread` with this query, with the module at 4096 and its `entry` at 4352. -/
def threadGet (query : String) : SysAct :=
  .request ⟨ascii "./www/thread", ascii query, fun _ => 0, true, 4096, some 4352, true, some 0⟩
    fun _ => 0

/-- What a run from boot ends with is what a reachable state has. -/
theorem reach_of_run {α : Type} {f : Sys → α} {a : α} {acts : List SysAct}
    (h : ((Sys.boot []).bind fun s₀ =>
      (exec (guarded (Sys.step .bump 4096) Free) s₀ acts).map f) = some a) :
    ∃ s, Reach Sys.Start (Sys.step .bump 4096) Free s ∧ f s = a := by
  obtain ⟨s₀, h₀, hrun⟩ := Option.bind_eq_some_iff.mp h
  exact Reach.exec_map (.init ⟨[], h₀⟩) hrun

/-- A `start`, a `stop` that joins the eight workers, and the shutdown. -/
def startStop : List SysAct :=
  threadGet "fn=start" :: List.replicate 3 .call ++ List.replicate 12 (.thread .entry) ++
    threadGet "fn=stop" :: List.replicate 2 .call ++ List.replicate 3 (.thread .entry) ++
    (List.range 8).flatMap (fun t => List.replicate 7 (.thread (.tf0 t))) ++
    List.replicate 17 (.thread .entry) ++ [.shutdown, .call]

theorem unload_stopped_stop : ∃ s : Sys, s.LastClose 4096 ∧ s.thr.workers.length = 8 ∧
    ((∀ w ∈ s.thr.workers, w.pc.isDead = true) ↔
      s.thr.running = false ∨
        ∀ w ∈ s.thr.workers, w.joined = false → w.pc = .dead .canceled) := by
  have hrun : ((Sys.boot []).bind fun s₀ =>
      (exec (guarded (Sys.step .bump 4096) Free) s₀ startStop).map fun s =>
        (s.thr.handler, s.loader.refs 4096, s.queue, s.thr.workers.length)) =
      some (.idle, 1, [.dlclose (.mapDso 8) 4096], 8) := by
    decide +kernel
  obtain ⟨s, hs, he⟩ := reach_of_run hrun
  simp only [Prod.mk.injEq] at he
  obtain ⟨hpc, hrefs, hq, hlen⟩ := he
  exact ⟨s, ⟨hpc, hrefs, _, _, hq⟩, hlen,
    unload_stopped_iff hs ⟨hpc, hrefs, _, _, hq⟩⟩

/-- The shutdown after a `start` unloads the module under its eight workers. -/
theorem unload_running : ¬ ∀ al mod s, Reach Sys.Start (Sys.step al mod) Free s →
    s.LastClose mod → ∀ w ∈ s.thr.workers, w.pc.isDead = true := by
  intro hall
  have hrun : ((Sys.boot []).bind fun s₀ =>
      (exec (guarded (Sys.step .bump 4096) Free) s₀
        (threadGet "fn=start" :: List.replicate 3 .call ++ List.replicate 12 (.thread .entry) ++
          [.shutdown, .call])).map fun s =>
        (s.thr.handler, s.loader.refs 4096, s.queue, s.thr.workers.map (·.pc))) =
      some (.idle, 1, [.dlclose (.mapDso 8) 4096], List.replicate 8 .beg) := by
    decide +kernel
  obtain ⟨s, hs, he⟩ := reach_of_run hrun
  simp only [Prod.mk.injEq] at he
  obtain ⟨hpc, hrefs, hq, hws⟩ := he
  have hdead := hall .bump 4096 s hs ⟨hpc, hrefs, _, _, hq⟩
  obtain ⟨w, hw, hbeg⟩ : ∃ w ∈ s.thr.workers, w.pc = .beg := by
    have : Thread.Pc.beg ∈ s.thr.workers.map (·.pc) := by
      rw [hws]
      exact List.mem_cons_self
    exact List.mem_map.mp this
  have := hdead w hw
  rw [hbeg] at this
  cases this

end Csrv.App
