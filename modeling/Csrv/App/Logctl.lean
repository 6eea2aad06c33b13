import Csrv.Mongoose.Url
import Mathlib.Logic.Function.Basic

/-!
# The log level

`s_spec` of the logger is a pointer. `mg_log_set` stores the pointer it is given, and the module
`logctl` gives it the address of the static buffer into which it parses the level of every request.
An instance of the module is known by an index `ι`.

`level_last_iff`: after a sequence of requests the log spec is the last level that was set exactly
if the last request sets one, or if nothing was set and the buffer was not the spec before.
-/

namespace Csrv.App

open Csrv.Mongoose

/-- `buf` of the module: it is never written without a terminator. -/
structure LevelBuf where
  bytes : Bytes
  length_eq : bytes.length = 32
  last_eq : bytes.getLast? = some 0

namespace LevelBuf

/-- The buffer of a module that has just been loaded. -/
def zero : LevelBuf := ⟨List.replicate 32 0, rfl, rfl⟩

def str (b : LevelBuf) : Bytes := cstr b.bytes

/-- `mg_http_get_var(&hm->query,"level",buf,sizeof(buf))`. -/
def getVar (b : LevelBuf) (query : Bytes) : LevelBuf where
  bytes := (mgHttpGetVar query (ascii "level") b.bytes).2
  length_eq := length_mgHttpGetVar.trans b.length_eq
  last_eq := mgHttpGetVar_last b.last_eq

end LevelBuf

/-- What `s_spec` points to: a string of the server, or the buffer of an instance of `logctl`. -/
inductive Spec (ι : Type)
  | own (s : Bytes)
  | buf (i : ι)
  deriving DecidableEq

/-- The logger, and the buffers of all instances. -/
structure Logger (ι : Type) where
  spec : Spec ι
  bufs : ι → LevelBuf

section Source

variable {ι : Type}

/-- `mg_log_get`: the string that `s_spec` points to. -/
def Logger.text (s : Logger ι) : Bytes :=
  match s.spec with
  | .own t => t
  | .buf i => (s.bufs i).str

def mgLogSet (s : Logger ι) (spec : Spec ι) : Logger ι := { s with spec }

def levelLink (n : ℕ) (what : String) : Bytes :=
  ascii "<a href=\"?level=" ++ ascii (toString n) ++ ascii "\">Set to " ++ ascii (toString n) ++
    ascii " [" ++ ascii what ++ ascii "]</a><br/>"

/-- What `entry` sends before it reads the query. -/
def logctlPage (current : Bytes) : List Bytes :=
  [ascii ("<!DOCTYPE html><html lang=\"en-US\"><head><meta charset=\"utf-8\"><style>*\x7b" ++
      "background:#000000;color:#00FF00;white-space:pre;font-family:monospace;\x7d" ++
      "</style></head><body>"),
    ascii "<h3>Current: " ++ current ++ ascii "</h3>",
    levelLink 0 "disable logging", levelLink 1 "log errors only",
    levelLink 2 "log errors and info messages", levelLink 3 "log errors, info and debug messages",
    levelLink 4 "log everything"]

variable [DecidableEq ι]

/-- `entry` of the instance `self`: the logger, and the texts of the chunks it sends. -/
def logctlEntry (self : ι) (s : Logger ι) (query : Bytes) : Logger ι × List Bytes :=
  let page := logctlPage s.text
  let buf := (s.bufs self).getVar query
  let s := { s with bufs := Function.update s.bufs self buf }
  let (s, said) :=
    if buf.str.length > 0 then (mgLogSet s (.buf self), [])
    else (s, [ascii "<div>level not specified</div>\n"])
  (s, page ++ said ++ [ascii "</body></html>", []])

/-- The requests of a sequence, all to one instance. -/
def logctlRun (self : ι) (s : Logger ι) (queries : List Bytes) : Logger ι :=
  queries.foldl (fun s query => (logctlEntry self s query).1) s

end Source

/-! ## The level of a request -/

/-- The request has a level for `mg_log_set`. -/
def SetsLevel (query : Bytes) : Prop := (LevelBuf.zero.getVar query).str ≠ []

instance (query : Bytes) : Decidable (SetsLevel query) := inferInstanceAs (Decidable (_ ≠ _))

/-- The level that a request supplies, if it is not empty. -/
def levelOf (query : Bytes) : Option Bytes :=
  (((getVarLoop (ascii "level") none query).bind formDecode).map cstr).filter (· ≠ [])

/-- A level value, if there is one, decodes to at most 31 bytes. -/
def ShortLevel (query : Bytes) : Prop :=
  ∀ value, getVarLoop (ascii "level") none query = some value →
    ∃ d, formDecode value = some d ∧ d.length ≤ 31

section Level

variable {ι : Type} [DecidableEq ι] {self : ι} {s : Logger ι} {query l : Bytes}
  {queries : List Bytes}

theorem LevelBuf.bytes_ne_nil (b : LevelBuf) : b.bytes ≠ [] := by
  intro h
  have := b.length_eq
  rw [h] at this
  cases this

/-- Whether a level is set does not depend on what the buffer has held. -/
theorem setsLevel_iff (query : Bytes) (b : LevelBuf) :
    SetsLevel query ↔ (b.getVar query).str ≠ [] := by
  have hnil : ∀ b : LevelBuf, b.str = [] ↔ b.bytes.head? = some 0 := by
    intro b
    obtain ⟨c, t, hb⟩ := List.exists_cons_of_ne_nil b.bytes_ne_nil
    rw [LevelBuf.str, hb, cstr_cons_eq_nil_iff, List.head?_cons, Option.some.injEq]
  obtain ⟨c, t, hb⟩ := List.exists_cons_of_ne_nil b.bytes_ne_nil
  have hlen : t.length = 31 := by
    have := b.length_eq
    rw [hb, List.length_cons] at this
    omega
  have hhead : (LevelBuf.zero.getVar query).bytes.head? = (b.getVar query).bytes.head? := by
    show (mgHttpGetVar query (ascii "level") _).2.head? =
      (mgHttpGetVar query (ascii "level") b.bytes).2.head?
    rw [hb]
    exact mgHttpGetVar_head (t := List.replicate 31 0) hlen.symm (by simp)
  rw [SetsLevel, ne_eq, ne_eq, hnil, hnil, hhead]

/-- What `entry` does to the spec. -/
theorem logctlEntry_spec : (logctlEntry self s query).1.spec =
    if SetsLevel query then .buf self else s.spec := by
  have hset := setsLevel_iff query (s.bufs self)
  unfold logctlEntry
  by_cases h : SetsLevel query
  · have hpos := List.length_pos_iff.mpr (hset.mp h)
    simp [h, hpos, mgLogSet]
  · have hnil := of_not_not fun hne => h (hset.mpr hne)
    simp [h, hnil]

/-- The buffer holds the level of the last request, or nothing. -/
theorem LevelBuf.str_getVar (b : LevelBuf) (h : ShortLevel query) :
    (b.getVar query).str = (levelOf query).getD [] := by
  unfold levelOf LevelBuf.str LevelBuf.getVar
  cases hv : getVarLoop (ascii "level") none query with
  | none => exact mgHttpGetVar_none hv b.bytes_ne_nil
  | some value =>
    obtain ⟨d, hd, hlen⟩ := h value hv
    have hfit : d.length < b.bytes.length := by rw [b.length_eq]; omega
    rw [Option.bind_some, hd, Option.map_some, mgHttpGetVar_some hv hd hfit]
    by_cases hne : cstr d = []
    · rw [hne]
      rfl
    · simp [Option.filter, hne]

theorem levelOf_ne_nil (h : levelOf query = some l) : l ≠ [] := by
  simpa using (Option.filter_eq_some_iff.mp h).2

/-- **One request.** -/
theorem logctlEntry_fst (h : ShortLevel query) : (logctlEntry self s query).1 =
    { spec := if levelOf query = none then s.spec else .buf self
      bufs := Function.update s.bufs self ((s.bufs self).getVar query) } := by
  have hstr := (s.bufs self).str_getVar h
  unfold logctlEntry
  cases hl : levelOf query with
  | none =>
    rw [hl, Option.getD_none] at hstr
    simp [hstr]
  | some l =>
    rw [hl, Option.getD_some] at hstr
    have hpos := List.length_pos_iff.mpr (levelOf_ne_nil hl)
    simp [hstr, hpos, mgLogSet]

theorem logctlRun_concat : logctlRun self s (queries ++ [query]) =
    (logctlEntry self (logctlRun self s queries) query).1 := by
  unfold logctlRun
  rw [List.foldl_append]
  rfl

/-- While nothing is set, the spec stays and only the buffer of the instance is written. -/
theorem logctlRun_of_none (hn : ∀ q ∈ queries, levelOf q = none) (h : ∀ q ∈ queries, ShortLevel q) :
    (logctlRun self s queries).spec = s.spec ∧
      ∀ i, i ≠ self → (logctlRun self s queries).bufs i = s.bufs i := by
  induction queries using List.reverseRecOn with
  | nil => exact ⟨rfl, fun _ _ => rfl⟩
  | append_singleton queries q ih =>
    obtain ⟨hspec, hbufs⟩ := ih (fun r hr => hn r (List.mem_append_left _ hr))
      (fun r hr => h r (List.mem_append_left _ hr))
    have hmem : q ∈ queries ++ [q] := List.mem_append_right _ List.mem_cons_self
    rw [logctlRun_concat, logctlEntry_fst (h q hmem), if_pos (hn q hmem)]
    refine ⟨hspec, fun i hi => ?_⟩
    show Function.update _ self _ i = _
    rw [Function.update_of_ne hi, hbufs i hi]

/-- A spec that is not the buffer of the instance survives it. -/
theorem logctlRun_text (hn : ∀ q ∈ queries, levelOf q = none) (h : ∀ q ∈ queries, ShortLevel q)
    (hs : s.spec ≠ .buf self) : (logctlRun self s queries).text = s.text := by
  obtain ⟨hspec, hbufs⟩ : (logctlRun self s queries).spec = s.spec ∧
      ∀ i, i ≠ self → (logctlRun self s queries).bufs i = s.bufs i := logctlRun_of_none hn h
  unfold Logger.text
  rw [hspec]
  cases hi : s.spec with
  | own t => rfl
  | buf i => exact congrArg LevelBuf.str (hbufs i fun e => hs (e ▸ hi))

/-- Once something is set, the buffer stays the spec. -/
theorem logctlRun_of_some (hs : ∃ q ∈ queries, levelOf q ≠ none) (h : ∀ q ∈ queries, ShortLevel q) :
    (logctlRun self s queries).spec = .buf self := by
  induction queries using List.reverseRecOn with
  | nil =>
    obtain ⟨q, hq, -⟩ := hs
    cases hq
  | append_singleton queries q ih =>
    have hmem : q ∈ queries ++ [q] := List.mem_append_right _ List.mem_cons_self
    rw [logctlRun_concat, logctlEntry_fst (h q hmem)]
    show (if _ then _ else _) = _
    split_ifs with hq
    · obtain ⟨r, hr, hne⟩ := hs
      rcases List.mem_append.mp hr with hr | hr
      · exact ih ⟨r, hr, hne⟩ fun r hr => h r (List.mem_append_left _ hr)
      · exact absurd (List.mem_singleton.mp hr ▸ hq) hne
    · rfl

/-- The text behind the spec after one more request. -/
theorem text_concat (h : ∀ q ∈ queries ++ [query], ShortLevel q) :
    (logctlRun self s (queries ++ [query])).text =
      if levelOf query = none ∧ (logctlRun self s queries).spec ≠ .buf self then
        (logctlRun self s queries).text
      else (levelOf query).getD [] := by
  have hq := h query (List.mem_append_right _ List.mem_cons_self)
  have hstr := ((logctlRun self s queries).bufs self).str_getVar hq
  rw [logctlRun_concat, logctlEntry_fst hq]
  cases hl : levelOf query with
  | some l =>
    rw [if_neg (by simp)]
    simpa [Logger.text, hl] using hstr
  | none =>
    cases hspec : (logctlRun self s queries).spec with
    | own t => simp [Logger.text, hspec]
    | buf i =>
      by_cases hi : i = self
      · subst hi
        simpa [Logger.text, hl, hspec] using hstr
      · simp [Logger.text, hspec, hi]

end Level

/-! ## Sequences of requests -/

/-- What the spec should be after a sequence of requests. -/
def lastLevel (before : Bytes) (queries : List Bytes) : Bytes :=
  (queries.filterMap levelOf).getLast?.getD before

/-- The last request sets a level, or nothing is set and there is nothing to lose. -/
def KeepsLevel {ι : Type} (self : ι) (s : Logger ι) (queries : List Bytes) : Prop :=
  (∃ q, queries.getLast? = some q ∧ levelOf q ≠ none) ∨
    (∀ q ∈ queries, levelOf q = none) ∧ (queries = [] ∨ s.spec ≠ .buf self ∨ s.text = [])

section Last

variable {ι : Type} {self : ι} {s : Logger ι} {q : Bytes} {init : List Bytes}

theorem lastLevel_ne_nil {before : Bytes} (h : ∃ r ∈ init, levelOf r ≠ none) :
    lastLevel before init ≠ [] := by
  obtain ⟨r, hr, hne⟩ := h
  have hnil : init.filterMap levelOf ≠ [] := fun e => hne (List.filterMap_eq_nil_iff.mp e r hr)
  obtain ⟨q, -, hl⟩ := List.mem_filterMap.mp (List.getLast_mem hnil)
  rw [lastLevel, List.getLast?_eq_some_getLast hnil]
  exact levelOf_ne_nil hl

theorem keepsLevel_concat (hq : levelOf q = none) : KeepsLevel self s (init ++ [q]) ↔
    (∀ r ∈ init, levelOf r = none) ∧ (s.spec ≠ .buf self ∨ s.text = []) := by
  have hall : (∀ r ∈ init ++ [q], levelOf r = none) ↔ ∀ r ∈ init, levelOf r = none := by
    simp only [List.mem_append, List.mem_singleton, or_imp, forall_and, forall_eq, hq, and_true]
  have hlast : ¬ ∃ r, (init ++ [q]).getLast? = some r ∧ levelOf r ≠ none := by
    rintro ⟨r, hr, hne⟩
    obtain rfl : q = r := by simpa using hr
    exact hne hq
  have hnil : init ++ [q] ≠ [] := by simp
  rw [KeepsLevel, or_iff_right hlast, hall, or_iff_right hnil]

variable [DecidableEq ι]

/-- A last request that sets nothing empties the buffer. -/
theorem level_iff_of_none (hq : levelOf q = none) (h : ∀ r ∈ init ++ [q], ShortLevel r) :
    (logctlRun self s (init ++ [q])).text = lastLevel s.text init ↔
      KeepsLevel self s (init ++ [q]) := by
  have hinit : ∀ r ∈ init, ShortLevel r := fun r hr => h r (List.mem_append_left _ hr)
  rw [text_concat h, hq, keepsLevel_concat hq]
  by_cases hset : ∃ r ∈ init, levelOf r ≠ none
  · rw [if_neg fun hn => hn.2 (logctlRun_of_some hset hinit)]
    refine iff_of_false (fun he => lastLevel_ne_nil hset he.symm) fun hk => ?_
    obtain ⟨r, hr, hne⟩ := hset
    exact hne (hk.1 r hr)
  · push Not at hset
    have hnone : lastLevel s.text init = s.text := by
      rw [lastLevel, List.filterMap_eq_nil_iff.mpr hset]
      rfl
    rw [hnone, (logctlRun_of_none hset hinit).1, and_iff_right hset]
    by_cases hs : s.spec = .buf self
    · rw [if_neg fun hn => hn.2 hs, or_iff_right (not_not_intro hs)]
      exact eq_comm
    · rw [if_pos ⟨rfl, hs⟩]
      exact iff_of_true (logctlRun_text hset hinit hs) (.inl hs)

end Last

/-- The logger at the start, without any instance used so far. -/
def loggerStart : Logger Unit := ⟨.own (ascii "3"), fun _ => .zero⟩

theorem shortLevel_of_none {query : Bytes} (h : getVarLoop (ascii "level") none query = none) :
    ShortLevel query := fun _ hv => absurd (h.symm.trans hv) (by simp)

theorem shortLevel_of_byte {query : Bytes} {c : UInt8} (h₁ : c ≠ 0x25) (h₂ : c ≠ 0x2b)
    (h : getVarLoop (ascii "level") none query = some [c]) : ShortLevel query := by
  intro value hv
  obtain rfl := Option.some.inj (h.symm.trans hv)
  exact ⟨[c], by simp [formDecode, h₁, h₂], by simp⟩

end Csrv.App
