import Csrv.CString
import Mathlib.Algebra.Order.BigOperators.Group.List

/-!
# The quickjs module

The runtime of the module and the callbacks `mg.printf` and `mg.printf_chunk` are static; the
callbacks are registered by the first activation of `entry` and capture its parameter `c` by
reference; the initialization is taken to succeed. When that activation has returned, the slot of
`c` may contain anything: `stale` says what the `k`-th call of the script reads in the `n`-th
activation, a connection or something else.

`responses_right_iff`: what the script writes goes to the connections of the requests exactly if the
slot contains the connection of the request at every call but those of the first request; so it is
sure to go there only if every later request throws before its first call.
-/

namespace Csrv.App.Quickjs

/-- `mg_printf` of a text, or `mg_http_printf_chunk` of one. -/
inductive Send
  | printf (s : Bytes)
  | chunk (s : Bytes)
  deriving DecidableEq

/-- `%X`. -/
def hexUpper (n : ℕ) : Bytes := (Nat.toDigits 16 n).map fun d => UInt8.ofNat d.toUpper.toNat

/-- What is appended to the connection. -/
def Send.bytes : Send → Bytes
  | .printf s => s
  | .chunk s => hexUpper s.length ++ ascii "\r\n" ++ s ++ ascii "\r\n"

/-- A write by the script, or by `entry` itself, through a pointer to a connection or to anything
else. -/
structure Write (κ : Type) where
  script : Bool
  target : Option κ
  send : Send
  deriving DecidableEq

/-- An exception of the script: what it has done before, and what `getException` returns. -/
structure Exn where
  calls : ℕ
  counted : Bool
  text : Bytes
  stack : Option Bytes

structure Request (κ : Type) where
  conn : κ
  exn : Option Exn

/-- The statics: the activation whose `c` the callbacks have captured, if the runtime is
initialized, and the global `a` of the script. -/
structure Statics where
  captured : Option ℕ
  activations : ℕ
  a : Option ℕ

/-- The module when it has been loaded. -/
def Statics.loaded : Statics := ⟨none, 0, none⟩

def header : Bytes :=
  ascii "HTTP/1.1 200 OK\r\nContent-Type: text/plain\r\nTransfer-Encoding: chunked\r\n\r\n"

/-- `a=typeof(a)=="undefined"?0:a;a++;` with the integers of a JavaScript number. -/
def increment (a : Option ℕ) : ℕ := min (a.getD 0 + 1) (2 ^ 53)

/-- The calls of the script. -/
def scriptSends (a : ℕ) : List Send :=
  [.printf header, .chunk (ascii (toString a) ++ ascii "\n"), .chunk []]

/-- The `catch` block. -/
def caught (e : Exn) : List Send :=
  [.printf header, .chunk (ascii "Error:\n"), .chunk (ascii "\t" ++ cstr e.text ++ ascii "\n")] ++
    (e.stack.toList.map fun s => .chunk (ascii "\t" ++ cstr s ++ ascii "\n")) ++ [.chunk []]

section Entry

variable {κ : Type} (stale : ℕ → ℕ → Option κ)

/-- What the script sends before it ends or throws. -/
def Request.sends (q : Request κ) (a : ℕ) : List Send :=
  match q.exn with
  | none => scriptSends a
  | some e => (scriptSends a).take e.calls

/-- The number of calls that the script makes. -/
def Request.calls (q : Request κ) : ℕ :=
  match q.exn with
  | none => 3
  | some e => min e.calls 3

/-- What a call of `entry` leaves in `a`. -/
def Request.global (q : Request κ) (a : Option ℕ) : Option ℕ :=
  match q.exn with
  | some ⟨0, false, _, _⟩ => a
  | _ => some (increment a)

/-- What the `k`-th call of the script reads as `c`: the parameter of the activation that has
registered the callbacks. -/
def slot (m : Statics) (q : Request κ) (k : ℕ) : Option κ :=
  if m.captured.getD m.activations = m.activations then some q.conn else stale m.activations k

def entry (m : Statics) (q : Request κ) : Statics × List (Write κ) :=
  let byScript := (q.sends (increment m.a)).zipIdx.map fun s => ⟨true, slot stale m q s.2, s.1⟩
  let byEntry := (q.exn.toList.flatMap caught).map fun s => ⟨false, some q.conn, s⟩
  (⟨some (m.captured.getD m.activations), m.activations + 1, q.global m.a⟩, byScript ++ byEntry)

/-- The requests that the module handles while it stays loaded, with what they write. -/
def run : Statics → List (Request κ) → List (Request κ × List (Write κ))
  | _, [] => []
  | m, q :: qs => (q, (entry stale m q).2) :: run (entry stale m q).1 qs

end Entry

/-! ## The right client -/

section Right

variable {κ : Type} [DecidableEq κ]

/-- What is appended to a connection. -/
def delivered (d : κ) (ws : List (Write κ)) : Bytes :=
  (ws.filter (·.target = some d)).flatMap (·.send.bytes)

/-- Every byte of the script goes to the connection of the request, and to no other. -/
def Right (q : Request κ) (ws : List (Write κ)) : Prop :=
  delivered q.conn (ws.filter (·.script)) = (ws.filter (·.script)).flatMap (·.send.bytes) ∧
    ∀ d, d ≠ q.conn → delivered d (ws.filter (·.script)) = []

variable {ws : List (Write κ)} {d : κ}

theorem delivered_cons_of_eq {w : Write κ} (h : w.target = some d) :
    delivered d (w :: ws) = w.send.bytes ++ delivered d ws := by
  unfold delivered
  rw [List.filter_cons_of_pos (by simpa using h), List.flatMap_cons]

theorem delivered_cons_of_ne {w : Write κ} (h : w.target ≠ some d) :
    delivered d (w :: ws) = delivered d ws := by
  unfold delivered
  rw [List.filter_cons_of_neg (by simpa using h)]

theorem length_delivered_le (d : κ) (ws : List (Write κ)) :
    (delivered d ws).length ≤ (ws.flatMap (·.send.bytes)).length := by
  induction ws with
  | nil => exact le_rfl
  | cons w ws ih =>
    rw [List.flatMap_cons, List.length_append]
    by_cases h : w.target = some d
    · rw [delivered_cons_of_eq h, List.length_append]
      omega
    · rw [delivered_cons_of_ne h]
      omega

/-- A connection gets everything only if every write is addressed to it. -/
theorem delivered_eq_iff (h : ∀ w ∈ ws, w.send.bytes ≠ []) :
    delivered d ws = ws.flatMap (·.send.bytes) ↔ ∀ w ∈ ws, w.target = some d := by
  constructor
  · intro he
    induction ws with
    | nil => exact fun w hw => absurd hw List.not_mem_nil
    | cons w ws ih =>
      rw [List.flatMap_cons] at he
      by_cases hw : w.target = some d
      · rw [delivered_cons_of_eq hw, List.append_cancel_left_eq] at he
        exact List.forall_mem_cons.mpr ⟨hw, ih (fun v hv => h v (.tail _ hv)) he⟩
      · -- the bytes of `w` are missing
        rw [delivered_cons_of_ne hw] at he
        have hle := length_delivered_le d ws
        have hpos := List.length_pos_iff.mpr (h w List.mem_cons_self)
        rw [he, List.length_append] at hle
        omega
  · intro hall
    rw [delivered, List.filter_eq_self.mpr fun w hw => by simpa using hall w hw]

theorem delivered_eq_nil (h : ∀ w ∈ ws, w.target ≠ some d) : delivered d ws = [] := by
  rw [delivered, List.filter_eq_nil_iff.mpr fun w hw => by simpa using h w hw, List.flatMap_nil]

theorem right_iff {q : Request κ} (h : ∀ w ∈ ws, w.script = true → w.send.bytes ≠ []) :
    Right q ws ↔ ∀ w ∈ ws, w.script = true → w.target = some q.conn := by
  have hall : (∀ w ∈ ws, w.script = true → w.target = some q.conn) ↔
      ∀ w ∈ ws.filter (·.script), w.target = some q.conn := by
    simp only [List.mem_filter, and_imp]
  rw [hall, ← delivered_eq_iff fun w hw =>
    h w (List.mem_filter.mp hw).1 (List.mem_filter.mp hw).2]
  constructor
  · exact fun hr => hr.1
  · intro he
    refine ⟨he, fun d hd => delivered_eq_nil fun w hw ht => hd ?_⟩
    have := (delivered_eq_iff fun w hw =>
      h w (List.mem_filter.mp hw).1 (List.mem_filter.mp hw).2).mp he w hw
    exact Option.some.inj (ht.symm.trans this)

end Right

/-! ## A request -/

section Requests

variable {κ : Type} {stale : ℕ → ℕ → Option κ} {m : Statics} {q : Request κ}
  {qs : List (Request κ)} {a n : ℕ}

theorem Send.bytes_chunk_ne_nil (s : Bytes) : (Send.chunk s).bytes ≠ [] := by
  simp [Send.bytes, ascii]

theorem length_sends : (q.sends a).length = q.calls := by
  unfold Request.sends Request.calls
  cases q.exn with
  | none => rfl
  | some e => rw [List.length_take]; rfl

theorem sends_bytes_ne_nil {s : Send} (h : s ∈ q.sends a) : s.bytes ≠ [] := by
  have hs : s ∈ scriptSends a := by
    unfold Request.sends at h
    split at h
    · exact h
    · exact List.mem_of_mem_take h
  simp only [scriptSends, List.mem_cons, List.not_mem_nil, or_false] at hs
  rcases hs with rfl | rfl | rfl
  · simp [Send.bytes, header, ascii]
  · exact Send.bytes_chunk_ne_nil _
  · exact Send.bytes_chunk_ne_nil _

/-- The writes of the script. -/
theorem mem_entry_script {w : Write κ} : w ∈ (entry stale m q).2 ∧ w.script = true ↔
    ∃ k s, (q.sends (increment m.a))[k]? = some s ∧ w = ⟨true, slot stale m q k, s⟩ := by
  unfold entry
  simp only [List.mem_append, List.mem_map, Prod.exists, List.mem_zipIdx_iff_getElem?]
  constructor
  · rintro ⟨⟨s, k, hk, rfl⟩ | ⟨s, -, rfl⟩, hw⟩
    · exact ⟨k, s, hk, rfl⟩
    · cases hw
  · rintro ⟨k, s, hk, rfl⟩
    exact ⟨.inl ⟨s, k, hk, rfl⟩, rfl⟩

theorem entry_right_iff [DecidableEq κ] :
    Right q (entry stale m q).2 ↔ ∀ k < q.calls, slot stale m q k = some q.conn := by
  rw [right_iff fun w hw hs => ?_]
  · constructor
    · intro h k hk
      obtain ⟨s, hs⟩ : ∃ s, (q.sends (increment m.a))[k]? = some s :=
        ⟨_, List.getElem?_eq_getElem (length_sends.symm ▸ hk)⟩
      have hw : _ ∈ (entry stale m q).2 ∧ _ := mem_entry_script.mpr ⟨k, s, hs, rfl⟩
      exact h _ hw.1 hw.2
    · intro h w hw hs
      obtain ⟨k, s, hk, rfl⟩ := mem_entry_script.mp ⟨hw, hs⟩
      apply h k
      rw [← length_sends]
      exact (List.getElem?_eq_some_iff.mp hk).1
  · obtain ⟨k, s, hk, rfl⟩ := mem_entry_script.mp ⟨hw, hs⟩
    exact sends_bytes_ne_nil (List.mem_of_getElem? hk)

/-- Every later activation finds the callbacks of an earlier one. -/
def Registered (m : Statics) : Prop := ∃ k < m.activations, m.captured = some k

theorem registered_entry_loaded : Registered (entry stale .loaded q).1 := ⟨0, Nat.one_pos, rfl⟩

theorem Registered.entry (h : Registered m) : Registered (entry stale m q).1 := by
  obtain ⟨k, hk, hm⟩ := h
  exact ⟨k, Nat.lt_succ_of_lt hk, by simp [Quickjs.entry, hm]⟩

theorem Registered.slot (h : Registered m) : slot stale m q n = stale m.activations n := by
  obtain ⟨k, hk, hm⟩ := h
  unfold Quickjs.slot
  rw [hm]
  exact if_neg (Nat.ne_of_lt hk)

/-- The slot of the dead parameter contains the connection of the request whenever the `n`-th
activation reads it. -/
def Restored (stale : ℕ → ℕ → Option κ) (n : ℕ) (q : Request κ) : Prop :=
  ∀ k < q.calls, stale n k = some q.conn

variable [DecidableEq κ]

/-- **Step.** -/
theorem Registered.right_iff (h : Registered m) :
    Right q (Quickjs.entry stale m q).2 ↔ Restored stale m.activations q := by
  rw [entry_right_iff]
  refine forall_congr' fun k => imp_congr_right fun _ => ?_
  rw [h.slot]

/-- **Run**, once the callbacks are registered. -/
theorem Registered.run_right_iff (h : Registered m) :
    (∀ p ∈ run stale m qs, Right p.1 p.2) ↔
      ∀ i q, qs[i]? = some q → Restored stale (m.activations + i) q := by
  induction qs generalizing m with
  | nil => simp [run]
  | cons q qs ih =>
    have hact : (Quickjs.entry stale m q).1.activations = m.activations + 1 := rfl
    rw [run, List.forall_mem_cons, h.right_iff, ih h.entry, hact]
    constructor
    · rintro ⟨hq, hqs⟩ i q' hi
      cases i with
      | zero =>
        obtain rfl := Option.some.inj hi
        exact hq
      | succ i =>
        rw [show m.activations + (i + 1) = m.activations + 1 + i by omega]
        exact hqs i q' hi
    · intro hall
      refine ⟨hall 0 q rfl, fun i q' hi => ?_⟩
      rw [show m.activations + 1 + i = m.activations + (i + 1) by omega]
      exact hall (i + 1) q' hi

/-- From the moment the module is loaded. -/
theorem run_loaded_right_iff :
    (∀ p ∈ run stale .loaded qs, Right p.1 p.2) ↔
      ∀ i q, qs[i + 1]? = some q → Restored stale (i + 1) q := by
  cases qs with
  | nil => simp [run]
  | cons q qs =>
    have hfirst : Right q (entry stale .loaded q).2 :=
      entry_right_iff.mpr fun k _ => if_pos rfl
    rw [run, List.forall_mem_cons, registered_entry_loaded.run_right_iff, and_iff_right hfirst]
    refine forall_congr' fun i => forall_congr' fun q' => ?_
    rw [List.getElem?_cons_succ, Nat.add_comm i 1]
    rfl

/-- **The right client.** All that the script writes in a run goes to the connections of the
requests, and to no other, exactly if at each of its calls after the first request the slot of the
dead parameter contains the connection of the request. Whatever the slot contains, it does so
exactly if every later request throws before its first call. -/
theorem responses_right_iff (qs : List (Request κ)) :
    (∀ stale, (∀ p ∈ run stale .loaded qs, Right p.1 p.2) ↔
      ∀ i q, qs[i + 1]? = some q → Restored stale (i + 1) q) ∧
    ((∀ stale, ∀ p ∈ run stale .loaded qs, Right p.1 p.2) ↔ ∀ q ∈ qs.tail, q.calls = 0) := by
  refine ⟨fun stale => run_loaded_right_iff, ?_⟩
  simp only [run_loaded_right_iff]
  constructor
  · intro hall q hq
    obtain ⟨i, hi⟩ := List.mem_iff_getElem?.mp hq
    rw [List.getElem?_tail] at hi
    by_contra hc
    -- a slot that contains no connection
    have := hall (fun _ _ => none) i q hi 0 (Nat.pos_of_ne_zero hc)
    cases this
  · intro hall stale i q hi k hk
    have hq : q ∈ qs.tail := List.mem_iff_getElem?.mpr ⟨i, List.getElem?_tail ▸ hi⟩
    rw [hall q hq] at hk
    exact absurd hk (Nat.not_lt_zero k)

end Requests

/-- Two requests on two connections; during the second one the slot contains the first. -/
theorem responses_misdirected : ¬ ∀ (stale : ℕ → ℕ → Option ℕ) (qs : List (Request ℕ)),
    ∀ p ∈ run stale .loaded qs, Right p.1 p.2 := by
  intro hall
  have h := run_loaded_right_iff.mp (hall (fun _ _ => some 1) [⟨1, none⟩, ⟨2, none⟩])
  exact absurd (h 0 ⟨2, none⟩ rfl 0 (by decide)) (by decide)

end Csrv.App.Quickjs
