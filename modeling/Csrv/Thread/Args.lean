import Csrv.Mongoose.Query
import Csrv.Thread.Module

/-!
# The arguments of `cancel` and `setperiod`

`entry` decodes `tid` and `period` into the buffer that has held `fn`, compares the text with the
variable's own name and gives it to `atoi`. The two branches are modelled here with the lines they
write; `ArgsChecked` is what a checked argument would mean for the module, and `argsChecked_iff`
says for which queries it holds.
-/

namespace Csrv.Thread

open Csrv.Mongoose

/-! ## The two branches with their lines -/

/-- A line of the page: a format and the numbers for it. -/
structure Line where
  fmt : Bytes
  args : List ℤ
  deriving DecidableEq

/-- The branch `setperiod` of `entry` on the buffer that has held `fn`: the command that is left
to do, and the lines. -/
def setperiodBranch (query buf : Bytes) : Option Cmd × List Line :=
  let cmd : Line := ⟨ascii "cmd:setperiod\n", []⟩
  let (_, buf) := mgHttpGetVar query (ascii "period") buf
  if cstr buf ≠ ascii "period" then
    let qperiod := atoi (cstr buf)
    (some (.setperiod qperiod), [cmd, ⟨ascii "status:period set to %d\n", [qperiod]⟩])
  else (none, [cmd, ⟨ascii "error:period not provided\n", []⟩])

/-- The branch `cancel` of `entry`, likewise. -/
def cancelBranch (query buf : Bytes) : Option Cmd × List Line :=
  let cmd : Line := ⟨ascii "cmd:cancel\n", []⟩
  let (_, buf) := mgHttpGetVar query (ascii "tid") buf
  if cstr buf ≠ ascii "tid" then
    let qtid := atoi (cstr buf)
    if h : 0 ≤ qtid ∧ qtid < NTHREADS then
      (some (.cancel ⟨qtid.toNat, toNat_lt h⟩),
        [cmd, ⟨ascii "status:thread %d canceled\n", [qtid]⟩])
    else (none, [cmd, ⟨ascii "error:invalid thread id\n", []⟩])
  else (none, [cmd, ⟨ascii "error:period not provided\n", []⟩])

/-- The buffer of `entry` after `fn` has been decoded into it. -/
def fnBuf (query : Bytes) (stack : Fin 32 → UInt8) : Bytes :=
  (mgHttpGetVar query (ascii "fn") (List.ofFn stack)).2

/-- A line that reports an error. -/
def Line.isError (line : Line) : Bool := begswith line.fmt (ascii "error:")

theorem length_fnBuf (query : Bytes) (stack : Fin 32 → UInt8) : (fnBuf query stack).length = 32 :=
  length_mgHttpGetVar.trans List.length_ofFn

theorem command_setperiod {query : Bytes} {stack : Fin 32 → UInt8}
    (h : cstr (fnBuf query stack) = ascii "setperiod") :
    command query stack = (setperiodBranch query (fnBuf query stack)).1 := by
  have h' : cstr (mgHttpGetVar query (ascii "fn") (List.ofFn stack)).2 = ascii "setperiod" := h
  unfold command setperiodBranch fnBuf
  simp only [h', if_neg (by decide : ascii "setperiod" ≠ ascii "start"),
    if_neg (by decide : ascii "setperiod" ≠ ascii "stop")]
  split_ifs <;> rfl

theorem command_cancel {query : Bytes} {stack : Fin 32 → UInt8}
    (h : cstr (fnBuf query stack) = ascii "cancel") :
    command query stack = (cancelBranch query (fnBuf query stack)).1 := by
  have h' : cstr (mgHttpGetVar query (ascii "fn") (List.ofFn stack)).2 = ascii "cancel" := h
  unfold command cancelBranch fnBuf
  simp only [h', if_neg (by decide : ascii "cancel" ≠ ascii "start"),
    if_neg (by decide : ascii "cancel" ≠ ascii "stop"),
    if_neg (by decide : ascii "cancel" ≠ ascii "setperiod")]
  split_ifs <;> rfl

/-! ## Arguments of a query -/

/-- The value of a string of digits, if it is one. -/
def numeral (s : Bytes) : Option ℕ := if s ≠ [] ∧ s.all isdigit then some (digits s) else none

/-- A decimal integer: digits, with an optional sign. -/
def decimal : Bytes → Option ℤ
  | 0x2d :: s => (numeral s).map fun n : ℕ => -(n : ℤ)
  | 0x2b :: s => (numeral s).map fun n : ℕ => (n : ℤ)
  | s => (numeral s).map fun n : ℕ => (n : ℤ)

/-- The integer that the query gives for `name`. -/
def argument (name query : Bytes) : Option ℤ :=
  ((queryVar name query).bind formDecode).bind decimal

section Decimal

variable {d value query buf : Bytes} {n : ℕ} {i : ℤ}

theorem numeral_eq_some_iff : numeral d = some n ↔ (d ≠ [] ∧ d.all isdigit) ∧ digits d = n := by
  unfold numeral
  split_ifs with h
  · simp [h]
  · exact iff_of_false (fun e => by cases e) fun e => h e.1

theorem isdigit_iff {c : UInt8} : isdigit c = true ↔ 0x30 ≤ c.toNat ∧ c.toNat ≤ 0x39 := by
  unfold isdigit
  rw [Bool.and_eq_true, decide_eq_true_eq, decide_eq_true_eq, UInt8.le_iff_toNat_le,
    UInt8.le_iff_toNat_le]
  rfl

theorem ne_of_isdigit {c e : UInt8} (h : isdigit c = true) (he : isdigit e = false) : c ≠ e := by
  rintro rfl
  rw [h] at he
  cases he

theorem isspace_of_isdigit {c : UInt8} (h : isdigit c = true) : isspace c = false := by
  have hd := isdigit_iff.mp h
  have hle : ¬ c ≤ 0x0d := by
    rw [UInt8.le_iff_toNat_le, show (0x0d : UInt8).toNat = 0x0d from rfl]
    omega
  have hsp : (c == 0x20) = false := beq_eq_false_iff_ne.mpr (ne_of_isdigit h rfl)
  simp [isspace, hsp, hle]

theorem takeWhile_of_all {s : Bytes} (h : s.all isdigit = true) : s.takeWhile isdigit = s :=
  List.takeWhile_eq_self_iff.mpr (List.all_eq_true.mp h)

/-- Within a `long`, `strtol` reads a decimal integer as what it is. -/
theorem strtol_of_decimal (h : decimal d = some i) (hi : -2 ^ 63 ≤ i ∧ i < 2 ^ 63) :
    strtol d = i := by
  have hclamp : ∀ m : ℤ, m = i → max (-2 ^ 63) (min m (2 ^ 63 - 1)) = i := by omega
  unfold decimal at h
  split at h
  · rename_i s
    obtain ⟨n, hn, rfl⟩ := Option.map_eq_some_iff.mp h
    obtain ⟨⟨-, hall⟩, rfl⟩ := numeral_eq_some_iff.mp hn
    exact hclamp (-(digits (s.takeWhile isdigit) : ℤ)) (by rw [takeWhile_of_all hall])
  · rename_i s
    obtain ⟨n, hn, rfl⟩ := Option.map_eq_some_iff.mp h
    obtain ⟨⟨-, hall⟩, rfl⟩ := numeral_eq_some_iff.mp hn
    exact hclamp (digits (s.takeWhile isdigit) : ℤ) (by rw [takeWhile_of_all hall])
  · obtain ⟨n, hn, rfl⟩ := Option.map_eq_some_iff.mp h
    obtain ⟨⟨hne, hall⟩, rfl⟩ := numeral_eq_some_iff.mp hn
    obtain ⟨c, s, rfl⟩ := List.exists_cons_of_ne_nil hne
    have hc : isdigit c = true := List.all_eq_true.mp hall c List.mem_cons_self
    have hdrop : (c :: s).dropWhile isspace = c :: s :=
      List.dropWhile_cons_of_neg (by simp [isspace_of_isdigit hc])
    unfold strtol
    rw [hdrop]
    refine hclamp _ ?_
    split
    · exact absurd (List.cons.inj ‹_›).1 (ne_of_isdigit hc rfl)
    · exact absurd (List.cons.inj ‹_›).1 (ne_of_isdigit hc rfl)
    · rw [takeWhile_of_all hall]

theorem zero_not_mem_of_decimal (h : decimal d = some i) : 0 ∉ d := by
  have hnum : ∀ {s : Bytes} {n : ℕ}, numeral s = some n → 0 ∉ s := by
    intro s n hn h0
    exact absurd (List.all_eq_true.mp (numeral_eq_some_iff.mp hn).1.2 0 h0) (by decide)
  unfold decimal at h
  split at h
  · obtain ⟨n, hn, -⟩ := Option.map_eq_some_iff.mp h
    exact List.not_mem_cons_of_ne_of_not_mem (by decide) (hnum hn)
  · obtain ⟨n, hn, -⟩ := Option.map_eq_some_iff.mp h
    exact List.not_mem_cons_of_ne_of_not_mem (by decide) (hnum hn)
  · obtain ⟨n, hn, -⟩ := Option.map_eq_some_iff.mp h
    exact hnum hn

end Decimal

/-! ## What a request does -/

/-- The states while a request is served that came in state `s`. The workers go on meanwhile. -/
inductive Serving (boot : Pc) (query : Bytes) (stack : Fin 32 → UInt8) (s : State) : State → Prop
  | request {u : State} (h : step boot s (.request query stack) = some u) :
      Serving boot query stack s u
  | step {u u' : State} {a : Act} (hu : Serving boot query stack s u)
      (ha : ∀ q st, a ≠ .request q st) (h : step boot u a = some u') :
      Serving boot query stack s u'

/-- A step of the handler itself. -/
def HandlerStep (boot : Pc) (u u' : State) : Prop :=
  step boot u .entry = some u' ∨ ∃ id, step boot u (.createFails id) = some u'

/-- The four data of the module are as before. -/
structure Same (u u' : State) : Prop where
  workers : u'.workers = u.workers
  tbuf : u'.tbuf = u.tbuf
  running : u'.running = u.running
  period : u'.period = u.period

/-- Only slot `i` and its worker may have changed. -/
structure OnlySlot (i : Fin NTHREADS) (u u' : State) : Prop where
  workers : ∀ t, u.tbuf i ≠ some t → u'.workers[t]? = u.workers[t]?
  tbuf : ∀ j ≠ i, u'.tbuf j = u.tbuf j
  running : u'.running = u.running
  period : u'.period = u.period

/-- Only `period` may have changed, and is `n`. -/
structure OnlyPeriod (n : ℕ) (u u' : State) : Prop where
  workers : u'.workers = u.workers
  tbuf : u'.tbuf = u.tbuf
  running : u'.running = u.running
  period : u'.period = n

/-- In every state and under every schedule, a `cancel` or `setperiod` acts only on the slot or
with the period that its query gives, and without one reports an error and changes nothing. -/
structure ArgsChecked (boot : Pc) (query : Bytes) (stack : Fin 32 → UInt8) : Prop where
  cancel : cstr (fnBuf query stack) = ascii "cancel" →
    ∀ s u u', Serving boot query stack s u → HandlerStep boot u u' →
      Same u u' ∨ ∃ i : Fin NTHREADS, argument (ascii "tid") query = some (i.val : ℤ) ∧
        OnlySlot i u u'
  noTid : cstr (fnBuf query stack) = ascii "cancel" →
    (∀ i : Fin NTHREADS, argument (ascii "tid") query ≠ some (i.val : ℤ)) →
      (∀ s u u', Serving boot query stack s u → HandlerStep boot u u' → Same u u') ∧
        ∃ line ∈ (cancelBranch query (fnBuf query stack)).2, line.isError = true
  setperiod : cstr (fnBuf query stack) = ascii "setperiod" →
    ∀ s u u', Serving boot query stack s u → HandlerStep boot u u' →
      Same u u' ∨ ∃ n : ℕ, argument (ascii "period") query = some (n : ℤ) ∧ OnlyPeriod n u u'
  noPeriod : cstr (fnBuf query stack) = ascii "setperiod" →
    (∀ n : ℕ, argument (ascii "period") query ≠ some (n : ℤ)) →
      (∀ s u u', Serving boot query stack s u → HandlerStep boot u u' → Same u u') ∧
        ∃ line ∈ (setperiodBranch query (fnBuf query stack)).2, line.isError = true

/-! ### Where the handler can be -/

/-- The places of the handler while it serves `c`, a `cancel`, a `setperiod` or no command. -/
inductive Places : Option Cmd → Hpc → Prop
  | idle (c : Option Cmd) : Places c .idle
  | lock (c : Cmd) : Places (some c) (.lock c)
  | enter (c : Cmd) : Places (some c) (.enter c)
  | forget (i : Fin NTHREADS) : Places (some (.cancel i)) (.forget i)
  | unlock (c : Cmd) : Places (some c) .unlock
  | crashed (c : Cmd) : Places (some c) .crashed

section Places

variable {boot : Pc} {query : Bytes} {stack : Fin 32 → UInt8} {s u u' : State} {c : Option Cmd}

theorem places_entry (hc : c ≠ some .start ∧ c ≠ some .stop) (hp : Places c u.handler)
    (h : Entry boot u u') : Places c u'.handler := by
  cases h with
  | lock hpc hl =>
    rw [hpc] at hp
    cases hp
    exact .enter _
  | start hpc =>
    rw [hpc] at hp
    cases hp
    exact absurd rfl hc.1
  | stop hpc =>
    rw [hpc] at hp
    cases hp
    exact absurd rfl hc.2
  | setperiod hpc =>
    rw [hpc] at hp
    cases hp
    exact .unlock _
  | cancel hpc hs =>
    rw [hpc] at hp
    cases hp
    exact .forget _
  | forget hpc hs =>
    rw [hpc] at hp
    cases hp
    exact .unlock _
  | forgetNull hpc hs =>
    rw [hpc] at hp
    cases hp
    exact .unlock _
  | unlock hpc => exact .idle c
  | crash hpc =>
    rcases hpc with ⟨i, hpc | hpc, -⟩ | ⟨i, hpc⟩ <;> rw [hpc] at hp <;> cases hp
    exact .crashed _
  | startRun hpc | create hpc | stopRun hpc | join hpc hs hr | ret hpc =>
    rw [hpc] at hp
    cases hp

theorem Serving.places (hcmd : command query stack = c) (hc : c ≠ some .start ∧ c ≠ some .stop)
    (h : Serving boot query stack s u) : Places c u.handler := by
  induction h with
  | request h =>
    cases step_cases h with
    | request hpc =>
      show Places c (((command query stack).map Hpc.lock).getD .idle)
      rw [hcmd]
      cases c with
      | none => exact .idle none
      | some c => exact .lock c
  | step hu ha h ih =>
    cases step_cases h with
    | request hpc => exact absurd rfl (ha _ _)
    | entry h => exact places_entry hc ih h
    | createFails hpc =>
      rw [hpc] at ih
      cases ih
    | tf0 hw h => exact ih
    | cancel hw hcan hp => exact ih

/-- The steps of the handler at these places are those of `entry`. -/
theorem HandlerStep.entry (hp : Places c u.handler) (h : HandlerStep boot u u') :
    Entry boot u u' := by
  rcases h with h | ⟨id, h⟩
  · cases step_cases h with
    | entry h => exact h
  · cases step_cases h with
    | createFails hpc =>
      rw [hpc] at hp
      cases hp

/-- Without a command the handler takes no step. -/
theorem HandlerStep.not_none (hp : Places none u.handler) : ¬ HandlerStep boot u u' := by
  intro h
  have hidle : u.handler = .idle := by
    cases hp' : u.handler <;> rw [hp'] at hp <;> cases hp
  rcases h with h | ⟨id, h⟩
  · unfold step Csrv.Thread.entry at h
    simp [hidle] at h
  · unfold step at h
    simp [hidle] at h

theorem HandlerStep.cancel {i : Fin NTHREADS} (hp : Places (some (.cancel i)) u.handler)
    (h : HandlerStep boot u u') : OnlySlot i u u' := by
  have hput : ∀ {t : ℕ} {w w' : Worker}, u.slot i = some (t, w) → ∀ t', u.tbuf i ≠ some t' →
      (u.workers.set t w')[t']? = u.workers[t']? := by
    intro t w w' hs t' ht'
    rw [List.getElem?_set_ne]
    rintro rfl
    exact ht' (slot_eq_some_iff.mp hs).1
  cases h.entry hp with
  | lock hpc hl => exact ⟨fun _ _ => rfl, fun _ _ => rfl, rfl, rfl⟩
  | cancel hpc hs =>
    rw [hpc] at hp
    cases hp
    exact ⟨hput hs, fun _ _ => rfl, rfl, rfl⟩
  | forget hpc hs =>
    rw [hpc] at hp
    cases hp
    exact ⟨hput hs, fun j hj => Function.update_of_ne hj _ _, rfl, rfl⟩
  | forgetNull hpc hs =>
    rw [hpc] at hp
    cases hp
    exact ⟨fun _ _ => rfl, fun j hj => Function.update_of_ne hj _ _, rfl, rfl⟩
  | unlock hpc => exact ⟨fun _ _ => rfl, fun _ _ => rfl, rfl, rfl⟩
  | crash hpc => exact ⟨fun _ _ => rfl, fun _ _ => rfl, rfl, rfl⟩
  | start hpc | stop hpc | setperiod hpc | startRun hpc | create hpc | stopRun hpc
  | join hpc hs hr | ret hpc =>
    rw [hpc] at hp
    cases hp

theorem HandlerStep.setperiod {q : ℤ} (hp : Places (some (.setperiod q)) u.handler)
    (h : HandlerStep boot u u') : Same u u' ∨ OnlyPeriod (q % 2 ^ 32).toNat u u' := by
  cases h.entry hp with
  | lock hpc hl => exact .inl ⟨rfl, rfl, rfl, rfl⟩
  | setperiod hpc =>
    rw [hpc] at hp
    cases hp
    exact .inr ⟨rfl, rfl, rfl, rfl⟩
  | unlock hpc => exact .inl ⟨rfl, rfl, rfl, rfl⟩
  | crash hpc => exact .inl ⟨rfl, rfl, rfl, rfl⟩
  | start hpc | stop hpc | cancel hpc hs | forget hpc hs | forgetNull hpc hs | startRun hpc
  | create hpc | stopRun hpc | join hpc hs hr | ret hpc =>
    rw [hpc] at hp
    cases hp

end Places

/-! ## When the arguments are checked -/

/-- The text left for `tid` is refused, or is the number that the query gives. -/
def TidGood (query text : Bytes) : Prop :=
  text = ascii "tid" ∨ ¬ (0 ≤ atoi text ∧ atoi text < NTHREADS) ∨
    argument (ascii "tid") query = some (atoi text)

/-- The text left for `period` is refused, or is the number that the query gives. -/
def PeriodGood (query text : Bytes) : Prop :=
  text = ascii "period" ∨ argument (ascii "period") query = some (atoi text % 2 ^ 32)

/-- The variable is there and what the buffer holds for it is good. -/
structure ArgsGood (query : Bytes) (stack : Fin 32 → UInt8) : Prop where
  cancel : cstr (fnBuf query stack) = ascii "cancel" →
    ∃ value, queryVar (ascii "tid") query = some value ∧
      TidGood query (leftText value (fnBuf query stack))
  setperiod : cstr (fnBuf query stack) = ascii "setperiod" →
    ∃ value, queryVar (ascii "period") query = some value ∧
      PeriodGood query (leftText value (fnBuf query stack))

section Branches

variable {query buf : Bytes}

/-- The text that a branch reads. -/
def argText (name query buf : Bytes) : Bytes := cstr (mgHttpGetVar query name buf).2

theorem argument_of_none {name : Bytes} (h : queryVar name query = none) :
    argument name query = none := by
  unfold argument
  rw [h]
  rfl

/-- The text of a variable, as the query and the old bytes have it. -/
theorem argText_eq {name : Bytes} (h0 : 0 ∉ name) (heq : 0x3d ∉ name) (hamp : 0x26 ∉ name)
    (hbuf : buf.length = 32) :
    argText name query buf = ((queryVar name query).map (leftText · buf)).getD [] :=
  cstr_mgHttpGetVar h0 heq hamp (by omega)

/-- What is good for the variable is good for the text that a branch reads, if nothing is good for
the empty text of a variable that is not there. -/
theorem exists_good_iff {name : Bytes} {good : Bytes → Prop} (h0 : 0 ∉ name) (heq : 0x3d ∉ name)
    (hamp : 0x26 ∉ name) (hbuf : buf.length = 32)
    (hnil : argument name query = none → ¬ good []) :
    (∃ value, queryVar name query = some value ∧ good (leftText value buf)) ↔
      good (argText name query buf) := by
  rw [argText_eq h0 heq hamp hbuf]
  cases hvar : queryVar name query with
  | none => exact iff_of_false (fun ⟨_, h, _⟩ => by cases h) (hnil (argument_of_none hvar))
  | some value => simp

theorem exists_tidGood_iff (hbuf : buf.length = 32) :
    (∃ value, queryVar (ascii "tid") query = some value ∧ TidGood query (leftText value buf)) ↔
      TidGood query (argText (ascii "tid") query buf) := by
  refine exists_good_iff (by decide) (by decide) (by decide) hbuf fun hnone => ?_
  rintro (h | h | h)
  · exact absurd h (by decide)
  · exact h (by decide)
  · rw [hnone] at h
    cases h

theorem exists_periodGood_iff (hbuf : buf.length = 32) :
    (∃ value, queryVar (ascii "period") query = some value ∧
        PeriodGood query (leftText value buf)) ↔
      PeriodGood query (argText (ascii "period") query buf) := by
  refine exists_good_iff (by decide) (by decide) (by decide) hbuf fun hnone => ?_
  rintro (h | h)
  · exact absurd h (by decide)
  · rw [hnone] at h
    cases h

theorem cancelBranch_accepted (htext : argText (ascii "tid") query buf ≠ ascii "tid")
    (hr : 0 ≤ atoi (argText (ascii "tid") query buf) ∧
      atoi (argText (ascii "tid") query buf) < NTHREADS) :
    cancelBranch query buf =
      (some (.cancel ⟨(atoi (argText (ascii "tid") query buf)).toNat, toNat_lt hr⟩),
        [⟨ascii "cmd:cancel\n", []⟩,
          ⟨ascii "status:thread %d canceled\n", [atoi (argText (ascii "tid") query buf)]⟩]) := by
  unfold argText at *
  unfold cancelBranch
  simp only [if_pos htext, dif_pos hr]

theorem cancelBranch_refused
    (h : argText (ascii "tid") query buf = ascii "tid" ∨
      ¬ (0 ≤ atoi (argText (ascii "tid") query buf) ∧
        atoi (argText (ascii "tid") query buf) < NTHREADS)) :
    (cancelBranch query buf).1 = none ∧
      ∃ line ∈ (cancelBranch query buf).2, line.isError = true := by
  unfold argText at *
  unfold cancelBranch
  by_cases htext : cstr (mgHttpGetVar query (ascii "tid") buf).2 = ascii "tid"
  · simp only [if_neg (not_not.mpr htext)]
    exact ⟨trivial, _, List.mem_cons_of_mem _ List.mem_cons_self, by decide⟩
  · simp only [if_pos htext, dif_neg (h.resolve_left htext)]
    exact ⟨trivial, _, List.mem_cons_of_mem _ List.mem_cons_self, by decide⟩

theorem setperiodBranch_accepted
    (htext : argText (ascii "period") query buf ≠ ascii "period") :
    setperiodBranch query buf =
      (some (.setperiod (atoi (argText (ascii "period") query buf))),
        [⟨ascii "cmd:setperiod\n", []⟩,
          ⟨ascii "status:period set to %d\n", [atoi (argText (ascii "period") query buf)]⟩]) := by
  unfold argText at *
  unfold setperiodBranch
  simp only [if_pos htext]

theorem setperiodBranch_refused (htext : argText (ascii "period") query buf = ascii "period") :
    (setperiodBranch query buf).1 = none ∧
      ∃ line ∈ (setperiodBranch query buf).2, line.isError = true := by
  unfold argText at htext
  unfold setperiodBranch
  simp only [if_neg (not_not.mpr htext)]
  exact ⟨trivial, _, List.mem_cons_of_mem _ List.mem_cons_self, by decide⟩

end Branches

/-! ### Well-formed arguments -/

section WellFormed

variable {query buf value d : Bytes} {i : ℤ}

/-- A value that decodes and fits is the text. -/
theorem leftText_of_decimal (hbuf : buf.length = 32) (hd : formDecode value = some d)
    (hlen : d.length ≤ 31) (hi : decimal d = some i) : leftText value buf = d := by
  have hpart : decodedPart value = (d, true) := formDecode_eq_some_iff.mp hd
  rw [leftText_terminated (.inl (by rw [hpart])), hpart, hbuf, List.take_of_length_le hlen]
  exact cstr_eq_self (zero_not_mem_of_decimal hi)

/-- A decimal `int` of at most 31 bytes is a good `tid`, in range or not. -/
theorem tidGood_of_decimal (hvar : queryVar (ascii "tid") query = some value)
    (hbuf : buf.length = 32) (hd : formDecode value = some d) (hlen : d.length ≤ 31)
    (hi : decimal d = some i) (hint : -2 ^ 31 ≤ i ∧ i < 2 ^ 31) :
    TidGood query (leftText value buf) := by
  have hatoi : atoi d = i := by
    unfold atoi
    rw [strtol_of_decimal hi (by omega), Int.bmod_def]
    omega
  refine .inr (.inr ?_)
  unfold argument
  rw [leftText_of_decimal hbuf hd hlen hi, hvar, Option.bind_some, hd, Option.bind_some, hi, hatoi]

/-- A decimal number of microseconds that a `useconds_t` holds is a good `period`. -/
theorem periodGood_of_decimal (hvar : queryVar (ascii "period") query = some value)
    (hbuf : buf.length = 32) (hd : formDecode value = some d) (hlen : d.length ≤ 31)
    (hi : decimal d = some i) (hint : 0 ≤ i ∧ i < 2 ^ 32) :
    PeriodGood query (leftText value buf) := by
  have hatoi : atoi d % 2 ^ 32 = i := by
    unfold atoi
    rw [strtol_of_decimal hi (by omega), Int.bmod_def]
    omega
  refine .inr ?_
  unfold argument
  rw [leftText_of_decimal hbuf hd hlen hi, hvar, Option.bind_some, hd, Option.bind_some, hi, hatoi]

end WellFormed

section Served

variable {boot : Pc} {query : Bytes} {stack : Fin 32 → UInt8} {s u u' : State} {c : Cmd}

/-- The handler behind the lock. -/
def State.entered (s : State) (c : Cmd) : State :=
  { s with lock := some .loop, handler := .enter c }

theorem serving_entered (hcmd : command query stack = some c) (hidle : s.handler = .idle)
    (hl : s.lock = none) : Serving boot query stack s (s.entered c) := by
  have hreq : step boot s (.request query stack) = some (s.goto (.lock c)) := by
    simp [step, hidle, State.request, hcmd]
  refine .step (.request hreq) (fun _ _ h => by cases h) (a := .entry) ?_
  simp [step, entry, State.goto, State.entered, hl]

theorem handlerStep_cancel {i : Fin NTHREADS} {t : ℕ} {w : Worker} (hs : s.slot i = some (t, w)) :
    HandlerStep boot (s.entered (.cancel i))
      (((s.entered (.cancel i)).put t { w with canceled := true }).goto (.forget i)) := by
  have hslot : (s.entered (.cancel i)).slot i = some (t, w) := hs
  have hpc : (s.entered (.cancel i)).handler = .enter (.cancel i) := rfl
  refine .inl ?_
  unfold step entry
  simp only [hpc, hslot, reduceCtorEq, if_false]

theorem handlerStep_setperiod {q : ℤ} :
    HandlerStep boot (s.entered (.setperiod q))
      { s.entered (.setperiod q) with period := (q % 2 ^ 32).toNat, handler := .unlock } :=
  .inl rfl

/-- A module with one worker, in slot `i`. -/
def State.busy (i : Fin NTHREADS) : State :=
  { workers := [{ pc := .beg }], tbuf := Function.update (fun _ => none) i (some 0) }

/-- The step of `cancel` on its slot is not the step of any other. -/
theorem ArgsChecked.argument_tid (h : ArgsChecked boot query stack)
    (hfn : cstr (fnBuf query stack) = ascii "cancel") {i : Fin NTHREADS}
    (hcmd : command query stack = some (.cancel i)) :
    argument (ascii "tid") query = some (i.val : ℤ) := by
  have hslot : (State.busy i).slot i = some (0, { pc := .beg }) := by
    rw [slot_eq_some_iff]
    exact ⟨by simp [State.busy], rfl, rfl⟩
  rcases h.cancel hfn _ _ _ (serving_entered hcmd rfl rfl) (handlerStep_cancel hslot) with
    hsame | ⟨j, harg, honly⟩
  · have hworkers : [({ pc := .beg, canceled := true } : Worker)] = [{ pc := .beg }] :=
      hsame.workers
    exact absurd hworkers (by decide)
  · by_cases hij : j = i
    · rw [harg, hij]
    · have hnone : (State.busy i).tbuf j ≠ some 0 := by
        simp [State.busy, Function.update_of_ne hij]
      have hworker : some ({ pc := .beg, canceled := true } : Worker) = some { pc := .beg } :=
        honly.workers 0 hnone
      exact absurd hworker (by decide)

theorem ArgsChecked.argument_period (h : ArgsChecked boot query stack)
    (hfn : cstr (fnBuf query stack) = ascii "setperiod") {q : ℤ}
    (hcmd : command query stack = some (.setperiod q)) :
    argument (ascii "period") query = some (q % 2 ^ 32) := by
  have hnonneg : 0 ≤ q % 2 ^ 32 := Int.emod_nonneg q (by decide)
  let s : State := { period := (q % 2 ^ 32).toNat + 1 }
  have hserving : Serving boot query stack s (s.entered (.setperiod q)) :=
    serving_entered hcmd rfl rfl
  rcases h.setperiod hfn _ _ _ hserving handlerStep_setperiod with hsame | ⟨n, harg, honly⟩
  · exact absurd hsame.period (Nat.succ_ne_self _).symm
  · have hn : (q % 2 ^ 32).toNat = n := honly.period
    rw [harg, ← hn, Int.toNat_of_nonneg hnonneg]

/-- A refused argument leaves the handler nothing to do. -/
theorem Serving.not_handlerStep (hcmd : command query stack = none)
    (h : Serving boot query stack s u) : ¬ HandlerStep boot u u' :=
  HandlerStep.not_none (h.places hcmd ⟨by simp, by simp⟩)

/-- A good `tid` is refused, or names its slot. -/
theorem TidGood.cases (hfn : cstr (fnBuf query stack) = ascii "cancel")
    (h : TidGood query (argText (ascii "tid") query (fnBuf query stack))) :
    (command query stack = none ∧
        ∃ line ∈ (cancelBranch query (fnBuf query stack)).2, line.isError = true) ∨
      ∃ i : Fin NTHREADS, command query stack = some (.cancel i) ∧
        argument (ascii "tid") query = some (i.val : ℤ) := by
  rw [command_cancel hfn]
  by_cases htext : argText (ascii "tid") query (fnBuf query stack) = ascii "tid"
  · exact .inl (cancelBranch_refused (.inl htext))
  by_cases hr : 0 ≤ atoi (argText (ascii "tid") query (fnBuf query stack)) ∧
      atoi (argText (ascii "tid") query (fnBuf query stack)) < NTHREADS
  · have hgiven := (h.resolve_left htext).resolve_left (not_not.mpr hr)
    refine .inr ⟨⟨_, toNat_lt hr⟩, congrArg Prod.fst (cancelBranch_accepted htext hr), ?_⟩
    exact hgiven.trans (congrArg some (Int.toNat_of_nonneg hr.1).symm)
  · exact .inl (cancelBranch_refused (.inr hr))

/-- A good `period` is refused, or is the number of microseconds. -/
theorem PeriodGood.cases (hfn : cstr (fnBuf query stack) = ascii "setperiod")
    (h : PeriodGood query (argText (ascii "period") query (fnBuf query stack))) :
    (command query stack = none ∧
        ∃ line ∈ (setperiodBranch query (fnBuf query stack)).2, line.isError = true) ∨
      ∃ q : ℤ, command query stack = some (.setperiod q) ∧
        argument (ascii "period") query = some ((q % 2 ^ 32).toNat : ℤ) := by
  rw [command_setperiod hfn]
  by_cases htext : argText (ascii "period") query (fnBuf query stack) = ascii "period"
  · exact .inl (setperiodBranch_refused htext)
  · refine .inr ⟨_, congrArg Prod.fst (setperiodBranch_accepted htext), ?_⟩
    rw [h.resolve_left htext, Int.toNat_of_nonneg (Int.emod_nonneg _ (by decide))]

end Served

/-- For which queries and stale bytes the module checks its arguments. -/
theorem argsChecked_iff (boot : Pc) (query : Bytes) (stack : Fin 32 → UInt8) :
    ArgsChecked boot query stack ↔ ArgsGood query stack := by
  have hbuf := length_fnBuf query stack
  constructor
  · intro h
    constructor
    · intro hfn
      rw [exists_tidGood_iff hbuf]
      by_contra hbad
      obtain ⟨htext, hbad⟩ := not_or.mp hbad
      obtain ⟨hr, harg⟩ := not_or.mp hbad
      have hbranch := cancelBranch_accepted htext (not_not.mp hr)
      have hgiven := h.argument_tid hfn ((command_cancel hfn).trans (congrArg Prod.fst hbranch))
      refine harg (hgiven.trans (congrArg some ?_))
      exact Int.toNat_of_nonneg (not_not.mp hr).1
    · intro hfn
      rw [exists_periodGood_iff hbuf]
      by_contra hbad
      obtain ⟨htext, harg⟩ := not_or.mp hbad
      have hbranch := setperiodBranch_accepted htext
      exact harg (h.argument_period hfn
        ((command_setperiod hfn).trans (congrArg Prod.fst hbranch)))
  · intro h
    have htid := fun hfn => TidGood.cases hfn ((exists_tidGood_iff hbuf).mp (h.cancel hfn))
    have hperiod := fun hfn =>
      PeriodGood.cases hfn ((exists_periodGood_iff hbuf).mp (h.setperiod hfn))
    constructor
    · intro hfn s u u' hu hstep
      rcases htid hfn with ⟨hcmd, -⟩ | ⟨i, hcmd, harg⟩
      · exact absurd hstep (hu.not_handlerStep hcmd)
      · exact .inr ⟨i, harg, hstep.cancel (hu.places hcmd ⟨by simp, by simp⟩)⟩
    · intro hfn hno
      rcases htid hfn with ⟨hcmd, herr⟩ | ⟨i, -, harg⟩
      · exact ⟨fun s u u' hu hstep => absurd hstep (hu.not_handlerStep hcmd), herr⟩
      · exact absurd harg (hno i)
    · intro hfn s u u' hu hstep
      rcases hperiod hfn with ⟨hcmd, -⟩ | ⟨q, hcmd, harg⟩
      · exact absurd hstep (hu.not_handlerStep hcmd)
      · exact (hstep.setperiod (hu.places hcmd ⟨by simp, by simp⟩)).imp_right fun h => ⟨_, harg, h⟩
    · intro hfn hno
      rcases hperiod hfn with ⟨hcmd, herr⟩ | ⟨q, -, harg⟩
      · exact ⟨fun s u u' hu hstep => absurd hstep (hu.not_handlerStep hcmd), herr⟩
      · exact absurd harg (hno _)

/-- `cancel` without a `tid` goes for worker 0. -/
theorem not_argsChecked_absent :
    ¬ ArgsChecked .beg (ascii "fn=cancel") (fun _ => 0) := by
  intro h
  have hnone : argument (ascii "tid") (ascii "fn=cancel") = none := by decide +kernel
  have herr := (h.noTid (by decide +kernel) (by simp [hnone])).2
  revert herr
  decide +kernel

end Csrv.Thread
