import Csrv.Lib.Shared
import Csrv.Mongoose.Session

/-!
# One connection and its handler

What a connection does depends on the responses of its handler and not on the state that these come
from.

1. `replay` is a handler that gives responses written down beforehand. A connection cannot tell it
   from the real one (`mgMgrPoll_replay`).
2. Of handlers that are `Alike` to an observer the same is seen after the loops of a connection. So
   the batches that `http_cb` takes are the same for all handlers (`batchOf_withUsr`), and so is
   whether the loops end (`isSome_mgMgrPoll`).
-/

namespace Csrv.Mongoose

open Shared (Legal)

variable {σ τ : Type*}

/-! ## Replaying a connection -/

/-- The handler that gives the responses of a list and writes down the messages. -/
def replay (s : List Response × List HttpMsg) (ev : HttpMsg) :
    (List Response × List HttpMsg) × Response :=
  ((s.1.tail, s.2 ++ [ev]), s.1.headD ⟨[], none, false⟩)

/-- What `f` does with the handler `fn` it does with the responses of `fn` written down: `g` is the
result with any state of the handler. -/
def Replays {α : Type*} (fn : τ → HttpMsg → τ × Response) (u u' : τ)
    (f : List Response × List HttpMsg → Option α) (g : List Response × List HttpMsg → α) : Prop :=
  ∃ calls, Legal fn u calls u' ∧ ∀ rs seen,
    f (calls.map Prod.snd ++ rs, seen) = some (g (rs, seen ++ calls.map Prod.fst))

section Replays

variable {α β : Type*} {fn : τ → HttpMsg → τ × Response} {u u' u'' : τ}
  {f : List Response × List HttpMsg → Option α} {g : List Response × List HttpMsg → α}

theorem Replays.of_eq (h : ∀ s, f s = some (g s)) : Replays fn u u f g :=
  ⟨[], .nil, fun rs seen => (h (rs, seen)).trans (by rw [List.map_nil, List.append_nil])⟩

theorem Replays.bind {k : α → Option β} {g' : List Response × List HttpMsg → β}
    (h : Replays fn u u' f g) (h' : Replays fn u' u'' (fun s => k (g s)) g') :
    Replays fn u u'' (fun s => (f s).bind k) g' := by
  obtain ⟨calls, hlegal, heq⟩ := h
  obtain ⟨calls', hlegal', heq'⟩ := h'
  refine ⟨calls ++ calls', hlegal.append hlegal', fun rs seen => ?_⟩
  simp only [List.map_append, List.append_assoc, heq, Option.bind_some, heq']

theorem Replays.map {k : α → β} (h : Replays fn u u' f g) :
    Replays fn u u' (fun s => (f s).map k) (fun s => k (g s)) := by
  obtain ⟨calls, hlegal, heq⟩ := h
  exact ⟨calls, hlegal, fun rs seen => by simp only [heq, Option.map_some]⟩

end Replays

section Connection

variable {fn : τ → HttpMsg → τ × Response} {calloc : ℕ → Bool} {close : Bool} {c d : Conn τ}
  {w w' : World τ}

theorem foldl_mgSend_withUsr {ρ : Type*} (sends : List Bytes) (c : Conn τ) (s : ρ) :
    sends.foldl (mgSend calloc) (c.withUsr s) = (sends.foldl (mgSend calloc) c).withUsr s := by
  induction sends generalizing c with
  | nil => rfl
  | cons d sends ih => exact ih (mgSend calloc c d)

theorem httpMsgEvent_replay (c : Conn τ) (ev : HttpMsg) (rs : List Response)
    (seen : List HttpMsg) :
    httpMsgEvent replay calloc (c.withUsr ((fn c.usr ev).2 :: rs, seen)) ev =
      (httpMsgEvent fn calloc c ev).withUsr (rs, seen ++ [ev]) := by
  have hsends := @foldl_mgSend_withUsr τ calloc _ (fn c.usr ev).2.sends
    { c with usr := (fn c.usr ev).1 } (rs, seen ++ [ev])
  have hstart : { c.withUsr ((fn c.usr ev).2 :: rs, seen) with usr := (rs, seen ++ [ev]) } =
      ({ c with usr := (fn c.usr ev).1 } : Conn τ).withUsr (rs, seen ++ [ev]) := rfl
  unfold httpMsgEvent replay
  simp only [Conn.withUsr, List.tail_cons, List.headD_cons] at hsends hstart ⊢
  rw [hsends]

theorem usr_httpMsgEvent (c : Conn τ) (ev : HttpMsg) :
    (httpMsgEvent fn calloc c ev).usr = (fn c.usr ev).1 := by
  obtain ⟨acc, -, -, husr, -⟩ := httpMsgEvent_spec fn calloc c ev
  exact husr

theorem httpCbLoop_replay {fuel : ℕ} (h : httpCbLoop fn calloc close fuel c = some d) :
    Replays fn c.usr d.usr (fun s => httpCbLoop replay calloc close fuel (c.withUsr s))
      d.withUsr := by
  induction fuel generalizing c with
  | zero => cases h
  | succ fuel ih =>
    cases hround : httpRound close c.recv.buf with
    | error =>
      rw [httpCbLoop_error fuel hround] at h
      cases h
      exact .of_eq fun s => @httpCbLoop_error _ replay calloc close (c.withUsr s) fuel hround
    | wait recv =>
      rw [httpCbLoop_wait fuel hround] at h
      cases h
      exact .of_eq fun s => @httpCbLoop_wait _ replay calloc close (c.withUsr s) recv fuel hround
    | message ev recv =>
      rw [httpCbLoop_message fuel hround] at h
      obtain ⟨calls, hlegal, heq⟩ := ih h
      rw [usr_httpMsgEvent] at hlegal
      refine ⟨(ev, (fn c.usr ev).2) :: calls, .cons hlegal, fun rs seen => ?_⟩
      have hstep := @httpCbLoop_message _ replay calloc close
        (c.withUsr ((fn c.usr ev).2 :: (calls.map Prod.snd ++ rs), seen)) recv ev fuel hround
      refine hstep.trans ?_
      rw [httpMsgEvent_replay]
      refine (heq rs (seen ++ [ev])).trans ?_
      rw [List.append_assoc]
      rfl

theorem readEvent_replay (h : readEvent fn calloc c = some d) :
    Replays fn c.usr d.usr (fun s => readEvent replay calloc (c.withUsr s)) d.withUsr := by
  rcases c with ⟨recv, send, pfn, draining, closing, usr⟩
  cases pfn with
  | none => exact httpCbLoop_replay h
  | some fd =>
    cases h
    exact .of_eq fun s => rfl

theorem closeEvent_replay (h : closeEvent fn calloc c = some d) :
    Replays fn c.usr d.usr (fun s => closeEvent replay calloc (c.withUsr s)) d.withUsr := by
  rcases c with ⟨recv, send, pfn, draining, closing, usr⟩
  cases pfn with
  | none => exact httpCbLoop_replay h
  | some fd =>
    cases h
    exact .of_eq fun s => rfl

theorem pollEvent_withUsr {ρ : Type*} (c : Conn τ) (s : ρ) :
    pollEvent calloc (c.withUsr s) = (pollEvent calloc c).withUsr s := by
  rcases c with ⟨recv, send, pfn, draining, closing, usr⟩
  cases pfn with
  | none => rfl
  | some fd =>
    unfold pollEvent staticCb Conn.withUsr
    simp only
    split_ifs
    · rfl
    · rfl
    · rfl

theorem readConn_replay {io : Io} (h : readConn fn calloc io w = some w') :
    Replays fn w.conn.usr w'.conn.usr (fun s => readConn replay calloc io (w.withUsr s))
      w'.withUsr := by
  unfold readConn at h ⊢
  simp only [World.withUsr, Conn.withUsr]
  by_cases hmax : w.conn.recv.buf.length ≥ mgMaxRecvBufSize
  · simp only [hmax, if_true] at h ⊢
    cases h
    exact .of_eq fun s => rfl
  simp only [hmax, if_false] at h ⊢
  cases hroom : roomToRead calloc w.conn.recv with
  | none =>
    simp only [hroom] at h ⊢
    cases h
    exact .of_eq fun s => rfl
  | some recv =>
    simp only [hroom] at h ⊢
    cases io with
    | wouldBlock =>
      cases h
      exact .of_eq fun s => rfl
    | gone =>
      cases h
      exact .of_eq fun s => rfl
    | bytes n =>
      simp only at h ⊢
      by_cases hempty : (w.net.take (min n (recv.size - recv.buf.length))).length = 0
      · simp only [hempty, if_true] at h ⊢
        cases h
        exact .of_eq fun s => rfl
      · simp only [hempty, if_false] at h ⊢
        obtain ⟨d, hd, rfl⟩ := Option.map_eq_some_iff.mp h
        exact (readEvent_replay hd).map

theorem closeConn_replay (h : closeConn fn calloc w = some w') :
    Replays fn w.conn.usr w'.conn.usr (fun s => closeConn replay calloc (w.withUsr s))
      w'.withUsr := by
  obtain ⟨d, hd, rfl⟩ := Option.map_eq_some_iff.mp h
  exact (closeEvent_replay hd).map (k := fun conn : Conn (List Response × List HttpMsg) =>
    World.mk { conn with recv := .empty, send := .empty } w.net w.wire false)

theorem pollRead_replay {p : Poll} (h : pollRead fn p w = some w') :
    Replays fn w.conn.usr w'.conn.usr (fun s => pollRead replay p (w.withUsr s)) w'.withUsr := by
  unfold pollRead at h ⊢
  cases hr : p.readable with
  | none =>
    rw [hr] at h
    cases h
    exact .of_eq fun s => rfl
  | some io =>
    rw [hr] at h
    exact readConn_replay h

theorem writeConn_withUsr {ρ : Type*} (io : Io) (w : World τ) (s : ρ) :
    writeConn calloc io (w.withUsr s) = (writeConn calloc io w).withUsr s := by
  unfold writeConn
  cases io with
  | wouldBlock => rfl
  | gone => rfl
  | bytes n =>
    by_cases hempty : (w.conn.send.buf.take n).length = 0
    · exact (if_pos hempty).trans (congrArg (World.withUsr · s) (if_pos hempty).symm)
    · refine (if_neg hempty).trans (.trans ?_ (congrArg (World.withUsr · s) (if_neg hempty).symm))
      exact congrArg (World.mk · _ _ _) (pollEvent_withUsr
        { w.conn with send := sentBuf calloc w.conn.send (w.conn.send.buf.take n).length } s)

theorem pollWrite_withUsr {ρ : Type*} (p : Poll) (watched : Bool) (w : World τ) (s : ρ) :
    pollWrite p watched (w.withUsr s) = (pollWrite p watched w).withUsr s := by
  unfold pollWrite
  cases p.writable with
  | none => rfl
  | some io =>
    cases watched with
    | false => rfl
    | true => exact writeConn_withUsr io w s

theorem pollEnd_replay (h : pollEnd fn calloc w = some w') :
    Replays fn w.conn.usr w'.conn.usr (fun s => pollEnd replay calloc (w.withUsr s))
      w'.withUsr := by
  unfold pollEnd at h
  simp only at h
  generalize hend :
    (w.conn.isClosing || (w.conn.isDraining && w.conn.send.buf.length = 0)) = closing at h
  have hf : (fun s => pollEnd replay calloc (w.withUsr s)) = fun s =>
      if closing then
        closeConn replay calloc
          (World.withUsr { w with conn := { w.conn with isClosing := closing } } s)
      else some (World.withUsr { w with conn := { w.conn with isClosing := closing } } s) := by
    funext s
    rw [← hend]
    rfl
  rw [hf]
  cases closing with
  | true => exact closeConn_replay h
  | false =>
    cases h
    exact .of_eq fun s => rfl

theorem pollSockets_replay {p : Poll} {watched : Bool} (h : pollSockets fn p watched w = some w') :
    Replays fn w.conn.usr w'.conn.usr (fun s => pollSockets replay p watched (w.withUsr s))
      w'.withUsr := by
  unfold pollSockets at h
  cases hclosing : w.conn.isClosing with
  | true =>
    rw [if_pos hclosing] at h
    cases h
    exact .of_eq fun s => if_pos hclosing
  | false =>
    rw [if_neg (by rw [hclosing]; exact Bool.false_ne_true)] at h
    obtain ⟨w₁, h₁, rfl⟩ := Option.map_eq_some_iff.mp h
    have hf : (fun s => pollSockets replay p watched (w.withUsr s)) = fun s =>
        (pollRead replay p (w.withUsr s)).map (pollWrite p watched) := by
      funext s
      exact if_neg (by show ¬ w.conn.isClosing = true; rw [hclosing]; exact Bool.false_ne_true)
    have hg : (pollWrite p watched w₁).withUsr = fun s : List Response × List HttpMsg =>
        pollWrite p watched (w₁.withUsr s) := by
      funext s
      exact (pollWrite_withUsr p watched w₁ s).symm
    rw [usr_pollWrite, hf, hg]
    exact (pollRead_replay h₁).map

/-- **A connection cannot tell** which handler has given its responses. -/
theorem mgMgrPoll_replay {p : Poll} (h : mgMgrPoll fn w p = some w') :
    Replays fn w.conn.usr w'.conn.usr (fun s => mgMgrPoll replay (w.withUsr s) p) w'.withUsr := by
  unfold mgMgrPoll at h
  cases hopen : w.isOpen with
  | false =>
    rw [if_neg (by rw [hopen]; exact Bool.false_ne_true)] at h
    cases h
    exact .of_eq fun s =>
      if_neg (by show ¬ w.isOpen = true; rw [hopen]; exact Bool.false_ne_true)
  | true =>
    rw [if_pos hopen] at h
    obtain ⟨w₁, h₁, h₂⟩ := Option.bind_eq_some_iff.mp h
    have hf : (fun s => mgMgrPoll replay (w.withUsr s) p) = fun s =>
        (pollSockets replay p (0 < w.conn.send.buf.length)
          (World.withUsr { w with conn := pollEvent p.calloc w.conn } s)).bind
            (pollEnd replay p.calloc) := by
      funext s
      refine (if_pos hopen).trans ?_
      rw [show (w.withUsr s).conn = w.conn.withUsr s from rfl, pollEvent_withUsr]
      rfl
    rw [hf, ← (pollEvent_frame p.calloc w.conn).2.1]
    exact (pollSockets_replay h₁).bind (pollEnd_replay h₂)

/-! ## What is seen of the handler -/

variable {α : Type*} {fn' : σ → HttpMsg → σ × Response} {c' : Conn σ} {obs : τ → α} {obs' : σ → α}

/-- Handlers of which the same is seen, whatever they respond. -/
def Alike (fn : τ → HttpMsg → τ × Response) (fn' : σ → HttpMsg → σ × Response) (obs : τ → α)
    (obs' : σ → α) : Prop :=
  ∀ u s ev, obs' s = obs u → obs' (fn' s ev).1 = obs (fn u ev).1

theorem alike_httpCbLoop (h : Alike fn fn' obs obs') {fuel : ℕ}
    (hrecv : c'.recv.buf = c.recv.buf) (husr : obs' c'.usr = obs c.usr) :
    (httpCbLoop fn' calloc close fuel c').map (fun d => obs' d.usr) =
      (httpCbLoop fn calloc close fuel c).map fun d => obs d.usr := by
  induction fuel generalizing c c' with
  | zero => rfl
  | succ fuel ih =>
    cases hround : httpRound close c.recv.buf with
    | error =>
      rw [httpCbLoop_error fuel hround, httpCbLoop_error fuel (hrecv ▸ hround)]
      exact congrArg some husr
    | wait recv =>
      rw [httpCbLoop_wait fuel hround, httpCbLoop_wait fuel (hrecv ▸ hround)]
      exact congrArg some husr
    | message ev recv =>
      rw [httpCbLoop_message fuel hround, httpCbLoop_message fuel (hrecv ▸ hround)]
      refine ih rfl ?_
      show obs' (httpMsgEvent fn' calloc c' ev).usr = obs (httpMsgEvent fn calloc c ev).usr
      rw [usr_httpMsgEvent, usr_httpMsgEvent]
      exact h _ _ ev husr

theorem alike_readEvent (h : Alike fn fn' obs obs') (c : Conn τ) {s : σ} (hs : obs' s = obs c.usr) :
    (readEvent fn' calloc (c.withUsr s)).map (fun d => obs' d.usr) =
      (readEvent fn calloc c).map fun d => obs d.usr := by
  rcases c with ⟨recv, send, pfn, draining, closing, usr⟩
  cases pfn with
  | none => exact alike_httpCbLoop h rfl hs
  | some fd => exact congrArg some hs

theorem alike_pollRead (h : Alike fn fn' obs obs') (p : Poll) (w : World τ) {s : σ}
    (hs : obs' s = obs w.conn.usr) :
    (pollRead fn' p (w.withUsr s)).map (fun w => obs' w.conn.usr) =
      (pollRead fn p w).map fun w => obs w.conn.usr := by
  unfold pollRead
  cases p.readable with
  | none => exact congrArg some hs
  | some io =>
    unfold readConn
    simp only [World.withUsr, Conn.withUsr]
    by_cases hmax : w.conn.recv.buf.length ≥ mgMaxRecvBufSize
    · simp only [hmax, if_true, Option.map_some]
      exact congrArg some hs
    simp only [hmax, if_false]
    cases roomToRead p.calloc w.conn.recv with
    | none => exact congrArg some hs
    | some recv =>
      cases io with
      | wouldBlock => exact congrArg some hs
      | gone => exact congrArg some hs
      | bytes n =>
        by_cases hempty : (w.net.take (min n (recv.size - recv.buf.length))).length = 0
        · simp only [hempty, if_true, Option.map_some]
          exact congrArg some hs
        · simp only [hempty, if_false, Option.map_map]
          exact alike_readEvent h { w.conn with recv := _ } hs

theorem alike_pollSockets (h : Alike fn fn' obs obs') (p : Poll) (watched : Bool) (w : World τ)
    {s : σ} (hs : obs' s = obs w.conn.usr) :
    (pollSockets fn' p watched (w.withUsr s)).map (fun w => obs' w.conn.usr) =
      (pollSockets fn p watched w).map fun w => obs w.conn.usr := by
  unfold pollSockets
  rw [show (w.withUsr s).conn.isClosing = w.conn.isClosing from rfl]
  cases w.conn.isClosing with
  | true => exact congrArg some hs
  | false =>
    simp only [Bool.false_eq_true, if_false, Option.map_map, Function.comp_def, usr_pollWrite]
    exact alike_pollRead h p w hs

/-- What `http_cb` takes depends on what it has read, not on the handler. -/
theorem batchOf_withUsr (fn : τ → HttpMsg → τ × Response) (fn' : σ → HttpMsg → σ × Response)
    (w : World τ) (s : σ) (p : Poll) : batchOf fn' (w.withUsr s) p = batchOf fn w p := by
  have halike : Alike (noting fn) (noting fn') Prod.snd Prod.snd :=
    fun _ _ ev h => congrArg (· ++ [ev]) h
  have hsame := alike_pollSockets halike p (0 < w.conn.send.buf.length)
    (World.withUsr { w with conn := pollEvent p.calloc w.conn } (w.conn.usr, [])) rfl (s := (s, []))
  have hstart : World.withUsr { w.withUsr s with conn := pollEvent p.calloc (w.withUsr s).conn }
      (s, ([] : List HttpMsg)) =
        World.withUsr (World.withUsr { w with conn := pollEvent p.calloc w.conn }
          (w.conn.usr, ([] : List HttpMsg))) (s, []) := by
    rw [show (w.withUsr s).conn = w.conn.withUsr s from rfl, pollEvent_withUsr]
    rfl
  unfold batchOf
  rw [show (w.withUsr s).conn.usr = s from rfl, hstart]
  exact if_congr Iff.rfl (congrArg (·.getD []) hsame) rfl

/-! ## Loops end with one handler if they end with another -/

theorem isSome_pollSockets (p : Poll) (watched : Bool) (w : World τ) (usr : σ) :
    (pollSockets fn' p watched (w.withUsr usr)).isSome = (pollSockets fn p watched w).isSome := by
  have halike : Alike fn fn' (fun _ => ()) (fun _ => ()) := fun _ _ _ _ => rfl
  have hsame := congrArg Option.isSome (alike_pollSockets halike p watched w rfl (s := usr))
  rwa [Option.isSome_map, Option.isSome_map] at hsame

theorem isSome_pollEnd (w : World τ) : (pollEnd fn calloc w).isSome = true := by
  unfold pollEnd closeConn
  simp only
  split_ifs
  · obtain ⟨d, hd, -⟩ := closeEvent_spec fn calloc
      { w.conn with
        isClosing := w.conn.isClosing || (w.conn.isDraining && w.conn.send.buf.length = 0) }
    rw [hd]
    rfl
  · rfl

theorem isSome_bind_pollEnd (o : Option (World τ)) :
    (o.bind (pollEnd fn calloc)).isSome = o.isSome := by
  cases o with
  | none => rfl
  | some w => exact isSome_pollEnd w

theorem isSome_mgMgrPoll (p : Poll) (w : World τ) (usr : σ) :
    (mgMgrPoll fn' (w.withUsr usr) p).isSome = (mgMgrPoll fn w p).isSome := by
  unfold mgMgrPoll
  cases hopen : w.isOpen with
  | false => simp only [World.withUsr, hopen, Bool.false_eq_true, if_false, Option.isSome_some]
  | true =>
    simp only [World.withUsr, hopen, if_true, isSome_bind_pollEnd]
    have h := @isSome_pollSockets σ τ fn fn' p (0 < w.conn.send.buf.length)
      { w with conn := pollEvent p.calloc w.conn } usr
    simp only [World.withUsr, hopen] at h
    rw [pollEvent_withUsr]
    exact h

end Connection

end Csrv.Mongoose
