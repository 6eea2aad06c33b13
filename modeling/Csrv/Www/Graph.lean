import Csrv.Lib.Run
import Csrv.Www.Rps
import Mathlib.Algebra.Order.Field.Rat
import Mathlib.Data.List.DropRight
import Mathlib.Tactic.FieldSimp
import Mathlib.Tactic.Linarith

/-!
# The graph of the load client

`rps/index.js` counts the answers to its requests. When one comes more than the update period after
the last sample, it adds a sample to `graphdata` and starts to count again. Period and buffer size
can be edited at any time. Clock readings are in milliseconds, rates are exact rationals.

The session keeps the answers that have come, each with the sample it gave, and `windows` cuts them
at the samples. `addgraphdata` drops samples for good, and the rate is one per update period.

`true_record_iff`: the graph is the record it should be right after a sample if and only if the
update period is a second then, and the buffer holds no more than one sample above what is left in
it, unless no sample has been dropped so far. `Agrees.step`: the page takes the steps of the client.
-/

namespace Csrv.Www.Graph

open Run

structure Config where
  graphdatabufsz : ℕ
  graphupdateperiodms : ℚ
  running : Bool
  positive : 0 < graphupdateperiodms

structure Stat where
  t0 : ℤ
  idx : ℕ
  idxs : ℕ
  rps : ℚ

structure Page where
  config : Config
  stat : Stat
  graphdata : List ℚ

/-- A sample with the count that is logged beside it. -/
structure Sample where
  rps : ℚ
  rdx : ℕ

namespace Page

def addgraphdata (val : ℚ) (page : Page) : Page :=
  let graphdata := page.graphdata ++ [val]
  let graphdata :=
    if graphdata.length > page.config.graphdatabufsz then
      graphdata.extract (graphdata.length - page.config.graphdatabufsz) graphdata.length
    else graphdata
  { page with graphdata }

def start (page : Page) : Page :=
  if !page.config.running then
    let page := { page with stat := { page.stat with idx := 0 } }
    { page with config := { page.config with running := true } }
  else page

def stop (page : Page) : Page :=
  if page.config.running then { page with config := { page.config with running := false } }
  else page

/-- `hdlAjaxSuccess` at time `t`, with the sample that it takes. -/
def hdlAjaxSuccess (t : ℤ) (page : Page) : Page × Option Sample :=
  let stat := { page.stat with idx := page.stat.idx + 1, idxs := page.stat.idxs + 1 }
  let tdiff := t - stat.t0
  if tdiff > page.config.graphupdateperiodms then
    let stat := { stat with rps := page.config.graphupdateperiodms * stat.idxs / tdiff }
    let stat := { stat with t0 := t }
    let page := { page with stat }.addgraphdata stat.rps
    ({ page with stat := { stat with idxs := 0 } }, some ⟨stat.rps, stat.idxs⟩)
  else ({ page with stat }, none)

def hdlAjaxError (t : ℤ) (page : Page) : Page × Option Sample := page.hdlAjaxSuccess t

end Page

/-! ## Sessions -/

/-- The page, the time it was loaded, and the answers since then with the samples they gave. -/
structure Session where
  page : Page
  loaded : ℤ
  answers : List (ℤ × Option Sample)

inductive Act
  | start
  | stop
  | answer (ok : Bool) (t : ℤ)
  | period (ms : ℚ) (positive : 0 < ms)
  | bufsz (n : ℕ)

def step (s : Session) : Act → Option Session
  | .start => some { s with page := s.page.start }
  | .stop => some { s with page := s.page.stop }
  | .answer ok t =>
    let r := if ok then s.page.hdlAjaxSuccess t else s.page.hdlAjaxError t
    some { s with page := r.1, answers := s.answers ++ [(t, r.2)] }
  | .period ms positive =>
    let config := { s.page.config with graphupdateperiodms := ms, positive }
    some { s with page := { s.page with config } }
  | .bufsz n =>
    some { s with page := { s.page with config := { s.page.config with graphdatabufsz := n } } }

/-- The page when its script has run, with any configuration. -/
def Loaded (s : Session) : Prop :=
  s.page.stat = ⟨s.loaded, 0, 0, 0⟩ ∧ s.page.graphdata = [] ∧ s.answers = []

/-- The step takes a sample. -/
def Samples (s : Session) : Act → Prop
  | .answer _ t => ((t - s.page.stat.t0 : ℤ) : ℚ) > s.page.config.graphupdateperiodms
  | _ => False

/-! ## The record -/

/-- The answers between two samples, the last one included. -/
structure Window where
  opened : ℤ
  closed : ℤ
  answers : List ℤ
  sample : Sample

/-- The windows that are closed, and the one that is open. -/
structure Windows where
  closed : List Window
  opened : ℤ
  answers : List ℤ

def Windows.add (w : Windows) : ℤ × Option Sample → Windows
  | (t, none) => { w with answers := w.answers ++ [t] }
  | (t, some sample) => ⟨w.closed ++ [⟨w.opened, t, w.answers ++ [t], sample⟩], t, []⟩

def Session.windows (s : Session) : Windows := s.answers.foldl Windows.add ⟨[], s.loaded, []⟩

def Session.samples (s : Session) : List ℚ := s.windows.closed.map (·.sample.rps)

/-- The sample of a window is its answers by its seconds. -/
def Window.Measured (w : Window) : Prop :=
  w.sample.rdx = w.answers.length ∧
    w.sample.rps = w.answers.length / (((w.closed - w.opened : ℤ) : ℚ) / 1000)

/-- Every answer is in one window, every sample is right, and the graph shows the last ones. -/
structure TrueRecord (s : Session) : Prop where
  once : s.windows.closed.flatMap (·.answers) ++ s.windows.answers = s.answers.map (·.1)
  measured : ∀ w ∈ s.windows.closed, w.Measured
  graph : s.page.graphdata =
    s.samples.rtake (min s.samples.length s.page.config.graphdatabufsz)

/-- A sample is taken with a period of a second, and nothing that the buffer could hold has been
dropped. -/
def Recordable (s : Session) (a : Act) : Prop :=
  Samples s a → s.page.config.graphupdateperiodms = 1000 ∧
    (s.page.graphdata.length = s.samples.length ∨
      s.page.config.graphdatabufsz ≤ s.page.graphdata.length + 1)

section Steps

variable {s s' : Session} {a : Act} {page : Page}

/-- The samples that are left are the last ones. -/
theorem addgraphdata_eq (val : ℚ) : page.addgraphdata val =
    { page with graphdata := (page.graphdata ++ [val]).rtake page.config.graphdatabufsz } := by
  unfold Page.addgraphdata List.rtake
  dsimp only
  congr 1
  split_ifs with hlen
  · rw [List.extract_eq_take_drop, List.take_of_length_le]
    rw [List.length_drop]
  · rw [Nat.sub_eq_zero_of_le (Nat.le_of_not_gt hlen), List.drop_zero]

/-- What a step without a sample does. -/
structure Quiet (s s' : Session) : Prop where
  loaded : s'.loaded = s.loaded
  graphdata : s'.page.graphdata = s.page.graphdata
  t0 : s'.page.stat.t0 = s.page.stat.t0
  counted : (s'.answers = s.answers ∧ s'.page.stat.idxs = s.page.stat.idxs) ∨
    ∃ t, s'.answers = s.answers ++ [(t, none)] ∧ s'.page.stat.idxs = s.page.stat.idxs + 1

/-- What a step with a sample does. -/
structure Sampled (s s' : Session) (t : ℤ) (sample : Sample) : Prop where
  taken : ((t - s.page.stat.t0 : ℤ) : ℚ) > s.page.config.graphupdateperiodms
  loaded : s'.loaded = s.loaded
  config : s'.page.config = s.page.config
  graphdata : s'.page.graphdata =
    (s.page.graphdata ++ [sample.rps]).rtake s.page.config.graphdatabufsz
  t0 : s'.page.stat.t0 = t
  idxs : s'.page.stat.idxs = 0
  answers : s'.answers = s.answers ++ [(t, some sample)]
  rdx : sample.rdx = s.page.stat.idxs + 1
  rps : sample.rps = s.page.config.graphupdateperiodms * (s.page.stat.idxs + 1 : ℕ) /
    ((t - s.page.stat.t0 : ℤ) : ℚ)

theorem answer_cases {t : ℤ} {ok : Bool} (h : step s (.answer ok t) = some s') :
    (¬ Samples s (.answer ok t) ∧ Quiet s s') ∨
      (Samples s (.answer ok t) ∧ ∃ sample, Sampled s s' t sample) := by
  have h : some { s with
      page := (s.page.hdlAjaxSuccess t).1
      answers := s.answers ++ [(t, (s.page.hdlAjaxSuccess t).2)] } = some s' := by
    cases ok with
    | true => exact h
    | false => exact h
  obtain rfl := Option.some.inj h
  by_cases hsample : Samples s (.answer ok t)
  · have htaken : s.page.hdlAjaxSuccess t = _ := if_pos hsample
    rw [htaken, addgraphdata_eq]
    exact .inr ⟨hsample, _, hsample, rfl, rfl, rfl, rfl, rfl, rfl, rfl, rfl⟩
  · refine .inl ⟨hsample, ?_⟩
    have hquiet : s.page.hdlAjaxSuccess t = ({ s.page with stat :=
        { s.page.stat with idx := s.page.stat.idx + 1, idxs := s.page.stat.idxs + 1 } }, none) :=
      if_neg hsample
    rw [hquiet]
    exact ⟨rfl, rfl, rfl, .inr ⟨t, rfl, rfl⟩⟩

theorem step_cases (h : step s a = some s') :
    (¬ Samples s a ∧ Quiet s s') ∨
      (Samples s a ∧ ∃ t sample, Sampled s s' t sample) := by
  cases a with
  | start =>
    obtain rfl := Option.some.inj h
    refine .inl ⟨id, ?_⟩
    unfold Page.start
    split_ifs
    · exact ⟨rfl, rfl, rfl, .inl ⟨rfl, rfl⟩⟩
    · exact ⟨rfl, rfl, rfl, .inl ⟨rfl, rfl⟩⟩
  | stop =>
    obtain rfl := Option.some.inj h
    refine .inl ⟨id, ?_⟩
    unfold Page.stop
    split_ifs
    · exact ⟨rfl, rfl, rfl, .inl ⟨rfl, rfl⟩⟩
    · exact ⟨rfl, rfl, rfl, .inl ⟨rfl, rfl⟩⟩
  | answer ok t =>
    exact (answer_cases h).imp_right fun ⟨hs, sample, hsampled⟩ => ⟨hs, t, sample, hsampled⟩
  | period ms positive =>
    obtain rfl := Option.some.inj h
    exact .inl ⟨id, rfl, rfl, rfl, .inl ⟨rfl, rfl⟩⟩
  | bufsz n =>
    obtain rfl := Option.some.inj h
    exact .inl ⟨id, rfl, rfl, rfl, .inl ⟨rfl, rfl⟩⟩

/-- An answer moves on the windows. -/
theorem windows_append {e : ℤ × Option Sample} (hloaded : s'.loaded = s.loaded)
    (h : s'.answers = s.answers ++ [e]) : s'.windows = s.windows.add e := by
  unfold Session.windows
  rw [h, hloaded, List.foldl_append]
  rfl

theorem windows_congr (hloaded : s'.loaded = s.loaded) (h : s'.answers = s.answers) :
    s'.windows = s.windows := by
  unfold Session.windows
  rw [h, hloaded]

end Steps

/-! ## The client -/

/-- The page is that of a client, which leaves out the graph. -/
structure Agrees (c : Rps.Client) (page : Page) : Prop where
  running : page.config.running = c.running
  period : page.config.graphupdateperiodms = c.graphupdateperiodms
  t0 : page.stat.t0 = c.stat.t0
  idx : page.stat.idx = c.stat.idx
  idxs : page.stat.idxs = c.stat.idxs

section Client

variable {c c' : Rps.Client} {page : Page} {s : Session} {t : ℤ}

theorem Agrees.start (h : Agrees c page) : Agrees c.start page.start := by
  unfold Rps.Client.start Page.start
  rw [h.running]
  cases hr : c.running with
  | true => exact h
  | false => exact ⟨rfl, h.period, h.t0, rfl, h.idxs⟩

theorem Agrees.stop (h : Agrees c page) : Agrees c.stop page.stop := by
  unfold Rps.Client.stop Page.stop
  rw [h.running]
  cases hr : c.running with
  | true => exact ⟨rfl, h.period, h.t0, h.idx, h.idxs⟩
  | false => exact h

theorem Agrees.exec (h : Agrees c page) : Agrees c.exec page :=
  ⟨h.running, h.period, h.t0, h.idx, h.idxs⟩

/-- Page and client take a sample at the same answers. -/
theorem Agrees.hdlAjaxSuccess (h : Agrees c page) :
    Agrees (c.hdlAjaxSuccess t) (page.hdlAjaxSuccess t).1 := by
  have hsample : ((t - page.stat.t0 : ℤ) : ℚ) > page.config.graphupdateperiodms ↔
      t - c.stat.t0 > c.graphupdateperiodms := by
    rw [h.period, h.t0]
    exact Int.cast_lt
  have hcount : Agrees { c with stat := if t - c.stat.t0 > c.graphupdateperiodms then
        { c.stat with idx := c.stat.idx + 1, idxs := 0, t0 := t }
      else { c.stat with idx := c.stat.idx + 1, idxs := c.stat.idxs + 1 } }
      (page.hdlAjaxSuccess t).1 := by
    unfold Page.hdlAjaxSuccess
    dsimp only
    by_cases hs : t - c.stat.t0 > c.graphupdateperiodms
    · rw [if_pos (hsample.mpr hs), if_pos hs, addgraphdata_eq]
      exact ⟨h.running, h.period, rfl, congrArg (· + 1) h.idx, rfl⟩
    · rw [if_neg (hsample.not.mpr hs), if_neg hs]
      exact ⟨h.running, h.period, h.t0, congrArg (· + 1) h.idx, congrArg (· + 1) h.idxs⟩
  unfold Rps.Client.hdlAjaxSuccess
  dsimp only
  by_cases hr : c.running = true
  · rw [if_pos hr]
    exact hcount.exec
  · rw [if_neg hr]
    exact hcount

/-- What happens to the client, as it happens to the page. -/
def Act.ofClient : Rps.Act → Act
  | .start => .start
  | .stop => .stop
  | .answer _ ok t => .answer ok t

/-- **Simulation.** The page follows every step of the client. -/
theorem Agrees.step {a : Rps.Act} (h : Agrees c s.page) (hst : Rps.step c a = some c') :
    ∃ s', step s (.ofClient a) = some s' ∧ Agrees c' s'.page := by
  cases a with
  | start =>
    obtain rfl := Option.some.inj hst
    exact ⟨_, rfl, h.start⟩
  | stop =>
    obtain rfl := Option.some.inj hst
    exact ⟨_, rfl, h.stop⟩
  | answer i ok t =>
    unfold Rps.step at hst
    dsimp only at hst
    by_cases hi : i ∈ c.pending
    · rw [if_pos hi] at hst
      have herase : Agrees { c with pending := c.pending.erase i } s.page :=
        ⟨h.running, h.period, h.t0, h.idx, h.idxs⟩
      obtain rfl := Option.some.inj hst
      cases ok with
      | true => exact ⟨_, rfl, herase.hdlAjaxSuccess⟩
      | false => exact ⟨_, rfl, herase.hdlAjaxSuccess⟩
    · rw [if_neg hi] at hst
      cases hst

end Client

/-! ## What every session keeps -/

/-- The page counts in the open window, and what it shows are the last samples. -/
structure Counting (s : Session) : Prop where
  opened : s.windows.opened = s.page.stat.t0
  idxs : s.windows.answers.length = s.page.stat.idxs
  once : s.windows.closed.flatMap (·.answers) ++ s.windows.answers = s.answers.map (·.1)
  suffix : s.page.graphdata <:+ s.samples

section Counting

variable {s s' : Session} {a : Act}

theorem Loaded.counting (h : Loaded s) : Counting s := by
  obtain ⟨hstat, hgraph, hanswers⟩ := h
  have hwindows : s.windows = ⟨[], s.loaded, []⟩ := by
    unfold Session.windows
    rw [hanswers]
    rfl
  constructor
  · rw [hwindows, hstat]
  · rw [hwindows, hstat]
    rfl
  · rw [hwindows, hanswers]
    rfl
  · rw [hgraph]
    exact List.nil_suffix

theorem Quiet.closed (h : Quiet s s') : s'.windows.closed = s.windows.closed := by
  rcases h.counted with ⟨hanswers, hidxs⟩ | ⟨t, hanswers, hidxs⟩
  · rw [windows_congr h.loaded hanswers]
  · rw [windows_append h.loaded hanswers]
    rfl

theorem Quiet.counting (hs : Counting s) (h : Quiet s s') : Counting s' := by
  have hsuffix : s'.page.graphdata <:+ s'.samples := by
    unfold Session.samples
    rw [h.graphdata, h.closed]
    exact hs.suffix
  rcases h.counted with ⟨hanswers, hidxs⟩ | ⟨t, hanswers, hidxs⟩
  · have hwindows := windows_congr h.loaded hanswers
    refine ⟨?_, ?_, ?_, hsuffix⟩
    · rw [hwindows, h.t0, hs.opened]
    · rw [hwindows, hidxs, hs.idxs]
    · rw [hwindows, hanswers, hs.once]
  · have hwindows := windows_append h.loaded hanswers
    refine ⟨?_, ?_, ?_, hsuffix⟩
    · rw [hwindows, h.t0, ← hs.opened]
      rfl
    · rw [hwindows, hidxs, ← hs.idxs]
      exact List.length_append
    · rw [hwindows, hanswers, List.map_append, ← hs.once, List.append_assoc]
      rfl

variable {t : ℤ} {sample : Sample}

theorem Sampled.windows (h : Sampled s s' t sample) : s'.windows =
    ⟨s.windows.closed ++ [⟨s.windows.opened, t, s.windows.answers ++ [t], sample⟩], t, []⟩ :=
  windows_append h.loaded h.answers

theorem Sampled.samples (h : Sampled s s' t sample) : s'.samples = s.samples ++ [sample.rps] := by
  unfold Session.samples
  rw [h.windows]
  exact List.map_append

theorem Counting.suffix_concat (hs : Counting s) (val : ℚ) :
    s.page.graphdata ++ [val] <:+ s.samples ++ [val] := by
  obtain ⟨dropped, h⟩ := hs.suffix
  exact ⟨dropped, by rw [← List.append_assoc, h]⟩

theorem Sampled.counting (hs : Counting s) (h : Sampled s s' t sample) : Counting s' := by
  constructor
  · rw [h.windows, h.t0]
  · rw [h.windows, h.idxs]
    rfl
  · rw [h.windows, h.answers, List.map_append, ← hs.once, List.flatMap_append]
    simp
  · rw [h.graphdata, h.samples]
    exact (List.drop_suffix _ _).trans (hs.suffix_concat sample.rps)

theorem Counting.step (hs : Counting s) (h : step s a = some s') : Counting s' := by
  rcases step_cases h with ⟨-, hquiet⟩ | ⟨-, t, sample, hsampled⟩
  · exact hquiet.counting hs
  · exact hsampled.counting hs

end Counting

/-! ## Samples -/

section Samples

variable {s s' : Session} {a : Act} {t : ℤ} {sample : Sample}

theorem length_rtake {l : List ℚ} {n : ℕ} : (l.rtake n).length = min l.length n := by
  unfold List.rtake
  rw [List.length_drop]
  omega

/-- The last elements of what is left are those of the whole list if there are as many. -/
theorem rtake_eq_iff {g l : List ℚ} {n : ℕ} (h : g <:+ l) :
    g.rtake n = l.rtake (min l.length n) ↔ min g.length n = min l.length n := by
  constructor
  · intro heq
    have hlen := congrArg List.length heq
    rw [length_rtake, length_rtake] at hlen
    omega
  · intro hlen
    have hg : g.rtake n <:+ l := (List.drop_suffix _ _).trans h
    have hl : l.rtake (min l.length n) <:+ l := List.drop_suffix _ _
    refine (List.suffix_of_suffix_length_le hg hl ?_).eq_of_length ?_
    · rw [length_rtake, length_rtake]
      omega
    · rw [length_rtake, length_rtake]
      omega

theorem Sampled.graph_iff (hs : Counting s) (h : Sampled s s' t sample) :
    s'.page.graphdata = s'.samples.rtake (min s'.samples.length s'.page.config.graphdatabufsz) ↔
      s.page.graphdata.length = s.samples.length ∨
        s.page.config.graphdatabufsz ≤ s.page.graphdata.length + 1 := by
  have hle := hs.suffix.length_le
  rw [h.graphdata, h.samples, h.config, rtake_eq_iff (hs.suffix_concat _), List.length_append,
    List.length_append, List.length_singleton]
  omega

/-- The sample is one for a second if the period is a second. -/
theorem Sampled.measured_iff (hs : Counting s) (h : Sampled s s' t sample) :
    Window.Measured ⟨s.windows.opened, t, s.windows.answers ++ [t], sample⟩ ↔
      s.page.config.graphupdateperiodms = 1000 := by
  have hcount : sample.rdx = (s.windows.answers ++ [t]).length := by
    rw [h.rdx, List.length_append, hs.idxs, List.length_singleton]
  have hpos : (0 : ℚ) < ((t - s.page.stat.t0 : ℤ) : ℚ) := s.page.config.positive.trans h.taken
  have hn : (0 : ℚ) < (s.page.stat.idxs + 1 : ℕ) := by exact_mod_cast Nat.succ_pos _
  unfold Window.Measured
  dsimp only
  rw [and_iff_right hcount, h.rps, ← hcount, h.rdx, hs.opened]
  generalize ((t - s.page.stat.t0 : ℤ) : ℚ) = d at hpos ⊢
  generalize ((s.page.stat.idxs + 1 : ℕ) : ℚ) = n at hn ⊢
  rw [div_div_eq_mul_div, div_left_inj' hpos.ne', mul_comm, mul_right_inj' hn.ne']

/-- **Sample.** After the right samples so far, the next one leaves a true record exactly if it
can be recorded. -/
theorem Sampled.trueRecord_iff (hs : Counting s) (hm : ∀ w ∈ s.windows.closed, w.Measured)
    (h : Sampled s s' t sample) :
    TrueRecord s' ↔ s.page.config.graphupdateperiodms = 1000 ∧
      (s.page.graphdata.length = s.samples.length ∨
        s.page.config.graphdatabufsz ≤ s.page.graphdata.length + 1) := by
  rw [← h.measured_iff hs, ← h.graph_iff hs]
  constructor
  · intro hrecord
    refine ⟨hrecord.measured _ ?_, hrecord.graph⟩
    rw [h.windows]
    exact List.mem_append_right _ List.mem_cons_self
  · rintro ⟨hmeasured, hgraph⟩
    refine ⟨(h.counting hs).once, fun w hw => ?_, hgraph⟩
    rw [h.windows] at hw
    rcases List.mem_append.mp hw with hw | hw
    · exact hm w hw
    · rw [List.mem_singleton.mp hw]
      exact hmeasured

end Samples

/-! ## Runs -/

section Runs

variable {s s' : Session} {a : Act}

/-- **Step.** -/
theorem measured_step (hs : Counting s) (hm : ∀ w ∈ s.windows.closed, w.Measured)
    (h : step s a = some s') (hok : Recordable s a) : ∀ w ∈ s'.windows.closed, w.Measured := by
  rcases step_cases h with ⟨-, hquiet⟩ | ⟨hsamples, t, sample, hsampled⟩
  · rw [hquiet.closed]
    exact hm
  · exact ((hsampled.trueRecord_iff hs hm).mpr (hok hsamples)).measured

theorem trueRecord_step_iff (hs : Counting s) (hm : ∀ w ∈ s.windows.closed, w.Measured)
    (h : step s a = some s') (hsamples : Samples s a) : TrueRecord s' ↔ Recordable s a := by
  rcases step_cases h with ⟨hquiet, -⟩ | ⟨-, t, sample, hsampled⟩
  · exact absurd hsamples hquiet
  · rw [hsampled.trueRecord_iff hs hm]
    exact ⟨fun hok _ => hok, fun hok => hok hsamples⟩

theorem counting_of_reach {ok : Session → Act → Prop} (h : Reach Loaded step ok s) : Counting s :=
  h.invariant (fun _ hl => hl.counting) fun _ _ _ hs hst _ => hs.step hst

theorem measured_of_reach (h : Reach Loaded step Recordable s) :
    ∀ w ∈ s.windows.closed, w.Measured := by
  refine h.invariant_under (J := Counting) (fun _ hr => counting_of_reach hr) ?_
    fun s a s' hs hm hst hok => measured_step hs hm hst hok
  intro s hl w hw
  unfold Session.windows at hw
  rw [hl.2.2] at hw
  exact absurd hw List.not_mem_nil

end Runs

/-- **The graph.** As long as every sample has been recordable, every answer is in one window, every
sample is right, and after the next one the graph is a true record exactly if it is recordable. -/
theorem true_record_iff {s : Session} (h : Reach Loaded step Recordable s) :
    (s.windows.closed.flatMap (·.answers) ++ s.windows.answers = s.answers.map (·.1) ∧
      ∀ w ∈ s.windows.closed, w.Measured) ∧
    ∀ a s', step s a = some s' → Samples s a → (TrueRecord s' ↔ Recordable s a) := by
  have hs := counting_of_reach h
  have hm := measured_of_reach h
  exact ⟨⟨hs.once, hm⟩, fun a s' hst hsamples => trueRecord_step_iff hs hm hst hsamples⟩

/-- A page that has just been loaded at time 0. -/
def freshSession (period : ℚ) (positive : 0 < period) : Session :=
  ⟨⟨⟨100, period, false, positive⟩, ⟨0, 0, 0, 0⟩, []⟩, 0, []⟩

theorem freshSession_loaded {period : ℚ} (positive : 0 < period) :
    Loaded (freshSession period positive) := ⟨rfl, rfl, rfl⟩

/-- An answer after 1500 milliseconds, with a period of a second. -/
theorem true_record_fresh : ∃ s s', step s (.answer true 1500) = some s' ∧ TrueRecord s' := by
  have hpos : (0 : ℚ) < 1000 := by norm_num
  have hreach : Reach Loaded step Recordable _ := .init (freshSession_loaded hpos)
  have hsamples : Samples (freshSession 1000 hpos) (.answer true 1500) := by
    show (((1500 : ℤ) - 0 : ℤ) : ℚ) > 1000
    norm_num
  exact ⟨_, _, rfl, ((true_record_iff hreach).2 _ _ rfl hsamples).mpr fun _ => ⟨rfl, .inl rfl⟩⟩

/-- One answer in 600 milliseconds is one and two thirds in a second, and with a period of 500
milliseconds the sample is half of it. -/
theorem half_rate : ¬ ∀ s, Reach Loaded step Free s →
    ∀ a s', step s a = some s' → Samples s a → TrueRecord s' := by
  intro hall
  have hpos : (0 : ℚ) < 500 := by norm_num
  have hreach : Reach Loaded step Free _ := .init (freshSession_loaded hpos)
  have hsamples : Samples (freshSession 500 hpos) (.answer true 600) := by
    show (((600 : ℤ) - 0 : ℤ) : ℚ) > 500
    norm_num
  have hrecord := hall _ hreach _ _ rfl hsamples
  have hok := (trueRecord_step_iff (freshSession_loaded hpos).counting
    (fun w hw => absurd hw List.not_mem_nil) rfl hsamples).mp hrecord hsamples
  exact absurd hok.1 (by norm_num [freshSession])

end Csrv.Www.Graph
