import Csrv.Lib.Json
import Mathlib.Data.List.TakeWhile

/-!
# Chunked messages

The chunked coding of HTTP/1.1 (RFC 9112) as a relation between a byte stream, the data of the
chunks in front of it, and what follows the message. Chunk extensions and trailer fields are
accepted. A stream holds at most one message in front (`Body.unique`, `Response.unique`), and
chunks that are not empty, written one after the other and closed by an empty one, are a message
(`body_encode`).
-/

namespace Chunked

open Json (hexDigit)

def crlf : List UInt8 := [0x0d, 0x0a]

/-- The bytes of an ASCII literal. -/
def text (s : String) : List UInt8 := s.toList.map fun c => UInt8.ofNat c.toNat

/-- The number that hexadecimal digits denote. -/
def hexNumber (s : List UInt8) : Option ℕ :=
  s.foldl (fun n c => n.bind fun n => (hexDigit c).map (16 * n + ·)) (some 0)

/-- The size on the first line of a chunk, up to its extensions. -/
def chunkSize (line : List UInt8) : Option ℕ :=
  let size := line.takeWhile (· ≠ 0x3b)
  if size = [] then none else hexNumber size

/-- Lines with their ends. -/
def lines (ls : List (List UInt8)) : List UInt8 := ls.flatMap (· ++ crlf)

/-- A field of a header or a trailer. -/
def IsField (f : List UInt8) : Prop := f ≠ [] ∧ 0x0d ∉ f

/-! ## Messages -/

/-- `Body w cs rest`: the stream `w` begins with the chunks `cs` and the end of the body. -/
inductive Body : List UInt8 → List (List UInt8) → List UInt8 → Prop
  | last {line : List UInt8} {trailer : List (List UInt8)} {rest : List UInt8}
      (hline : 0x0d ∉ line) (hsize : chunkSize line = some 0) (hfields : ∀ f ∈ trailer, IsField f) :
      Body (line ++ crlf ++ (lines trailer ++ crlf ++ rest)) [] rest
  | chunk {line d w : List UInt8} {cs : List (List UInt8)} {rest : List UInt8}
      (hline : 0x0d ∉ line) (hsize : chunkSize line = some d.length) (hd : d ≠ [])
      (h : Body w cs rest) : Body (line ++ crlf ++ (d ++ crlf ++ w)) (d :: cs) rest

/-- `Response w body rest`: the stream `w` begins with a chunked response that carries `body`. -/
inductive Response : List UInt8 → List UInt8 → List UInt8 → Prop
  | mk {status w rest : List UInt8} {fields cs : List (List UInt8)}
      (hstatus : text "HTTP/1.1 " <+: status) (hline : 0x0d ∉ status)
      (hfields : ∀ f ∈ fields, IsField f) (hcoding : text "Transfer-Encoding: chunked" ∈ fields)
      (h : Body w cs rest) :
      Response (status ++ crlf ++ (lines fields ++ crlf ++ w)) cs.flatten rest

/-! ## One message in front -/

section Unique

variable {l l' w w' rest rest' : List UInt8} {fs fs' cs cs' : List (List UInt8)}

theorem line_unique (hl : 0x0d ∉ l) (hl' : 0x0d ∉ l') (h : l ++ crlf ++ w = l' ++ crlf ++ w') :
    l = l' ∧ w = w' := by
  induction l generalizing l' with
  | nil =>
    cases l' with
    | nil => exact ⟨rfl, List.append_cancel_left h⟩
    | cons c l' =>
      have hc : (0x0d : UInt8) = c := (List.cons.inj h).1
      exact absurd (hc ▸ List.mem_cons_self) hl'
  | cons c l ih =>
    cases l' with
    | nil =>
      have hc : c = (0x0d : UInt8) := (List.cons.inj h).1
      exact absurd (hc ▸ List.mem_cons_self) hl
    | cons c' l' =>
      obtain ⟨hc, h⟩ := List.cons.inj h
      obtain ⟨hl, hw⟩ := ih (fun hm => hl (List.mem_cons_of_mem _ hm))
        (fun hm => hl' (List.mem_cons_of_mem _ hm)) h
      exact ⟨by rw [hc, hl], hw⟩

theorem lines_nil : lines [] = [] := rfl

theorem lines_cons {f : List UInt8} : lines (f :: fs) = f ++ crlf ++ lines fs := List.flatMap_cons

theorem fields_unique (hfs : ∀ f ∈ fs, IsField f) (hfs' : ∀ f ∈ fs', IsField f)
    (h : lines fs ++ crlf ++ w = lines fs' ++ crlf ++ w') : fs = fs' ∧ w = w' := by
  have hnil : (0x0d : UInt8) ∉ ([] : List UInt8) := List.not_mem_nil
  induction fs generalizing fs' with
  | nil =>
    cases fs' with
    | nil => exact ⟨rfl, List.append_cancel_left h⟩
    | cons f' fs' =>
      have hf' := hfs' f' List.mem_cons_self
      have h' : [] ++ crlf ++ w = f' ++ crlf ++ (lines fs' ++ crlf ++ w') := by
        rw [lines_nil, lines_cons] at h
        simpa only [List.append_assoc] using h
      exact absurd (line_unique hnil hf'.2 h').1.symm hf'.1
  | cons f fs ih =>
    have hf := hfs f List.mem_cons_self
    rw [lines_cons, List.append_assoc, List.append_assoc, List.append_assoc] at h
    cases fs' with
    | nil =>
      have h' : f ++ crlf ++ (lines fs ++ crlf ++ w) = [] ++ crlf ++ w' := by
        rw [lines_nil] at h
        simpa only [List.append_assoc] using h
      exact absurd (line_unique hf.2 hnil h').1 hf.1
    | cons f' fs' =>
      have h' : f ++ crlf ++ (lines fs ++ crlf ++ w) = f' ++ crlf ++ (lines fs' ++ crlf ++ w') := by
        rw [lines_cons] at h
        simpa only [List.append_assoc] using h
      obtain ⟨rfl, hrest⟩ := line_unique hf.2 (hfs' f' List.mem_cons_self).2 h'
      obtain ⟨rfl, hw⟩ := ih (fun g hg => hfs g (List.mem_cons_of_mem _ hg))
        (fun g hg => hfs' g (List.mem_cons_of_mem _ hg)) hrest
      exact ⟨rfl, hw⟩

theorem Body.unique (h : Body w cs rest) (h' : Body w cs' rest') : cs = cs' ∧ rest = rest' := by
  induction h generalizing cs' with
  | last hline hsize hfields =>
    generalize hw : _ ++ crlf ++ (_ ++ crlf ++ _) = v at h'
    cases h' with
    | last hline' hsize' hfields' =>
      exact ⟨rfl, (fields_unique hfields hfields' (line_unique hline hline' hw).2).2⟩
    | chunk hline' hsize' hd' h' =>
      rw [(line_unique hline hline' hw).1, hsize'] at hsize
      exact absurd (List.length_eq_zero_iff.mp (Option.some.inj hsize)) hd'
  | chunk hline hsize hd h ih =>
    generalize hw : _ ++ crlf ++ (_ ++ crlf ++ _) = v at h'
    cases h' with
    | last hline' hsize' hfields' =>
      rw [(line_unique hline hline' hw).1, hsize'] at hsize
      exact absurd (List.length_eq_zero_iff.mp (Option.some.inj hsize).symm) hd
    | chunk hline' hsize' hd' h' =>
      obtain ⟨rfl, hdata⟩ := line_unique hline hline' hw
      have hlen := Option.some.inj (hsize.symm.trans hsize')
      rw [List.append_assoc, List.append_assoc] at hdata
      obtain ⟨rfl, htail⟩ := List.append_inj hdata hlen
      obtain ⟨rfl, hrest⟩ := ih (List.append_cancel_left htail ▸ h')
      exact ⟨rfl, hrest⟩

/-- A body that does not begin with its end begins with a chunk. -/
theorem Body.exists_chunk {n : ℕ} (hl : 0x0d ∉ l) (hsize : chunkSize l = some n) (hn : n ≠ 0)
    (h : Body (l ++ crlf ++ w) cs rest) :
    ∃ d v ds, d.length = n ∧ w = d ++ crlf ++ v ∧ cs = d :: ds ∧ Body v ds rest := by
  generalize hw : l ++ crlf ++ w = v at h
  cases h with
  | last hline' hsize' hfields' =>
    rw [(line_unique hl hline' hw).1, hsize'] at hsize
    exact absurd (Option.some.inj hsize).symm hn
  | chunk hline' hsize' hd' h' =>
    obtain ⟨rfl, htail⟩ := line_unique hl hline' hw
    exact ⟨_, _, _, Option.some.inj (hsize'.symm.trans hsize), htail, rfl, h'⟩

theorem Response.unique {b b' : List UInt8} (h : Response w b rest) (h' : Response w b' rest') :
    b = b' ∧ rest = rest' := by
  cases h with
  | mk hstatus hline hfields hcoding h =>
    generalize hw : _ ++ crlf ++ (_ ++ crlf ++ _) = v at h'
    cases h' with
    | mk hstatus' hline' hfields' hcoding' h' =>
      obtain ⟨-, hw⟩ := line_unique hline hline' hw
      obtain ⟨-, hw⟩ := fields_unique hfields hfields' hw
      obtain ⟨rfl, hrest⟩ := h.unique (hw ▸ h')
      exact ⟨rfl, hrest⟩

/-- What stands behind a header is the body. -/
theorem Response.body {status b : List UInt8} (hline : 0x0d ∉ status)
    (hfields : ∀ f ∈ fs, IsField f)
    (h : Response (status ++ crlf ++ (lines fs ++ crlf ++ w)) b rest) :
    ∃ cs, Body w cs rest ∧ cs.flatten = b := by
  generalize hw : status ++ crlf ++ (lines fs ++ crlf ++ w) = v at h
  cases h with
  | mk hstatus' hline' hfields' hcoding' h' =>
    obtain ⟨-, htail⟩ := line_unique hline hline' hw
    obtain ⟨-, rfl⟩ := fields_unique hfields hfields' htail
    exact ⟨_, h', rfl⟩

end Unique

/-! ## Writing chunks -/

/-- A chunk as a server writes it, which puts a size down as `size`. -/
def encode (size : ℕ → List UInt8) (d : List UInt8) : List UInt8 :=
  size d.length ++ crlf ++ d ++ crlf

section Encode

variable {size : ℕ → List UInt8}

/-- Chunks that are not empty, and the empty one at their end. -/
theorem body_encode (cs : List (List UInt8)) (rest : List UInt8) (hline : ∀ n, 0x0d ∉ size n)
    (hsize : ∀ n, chunkSize (size n) = some n) (hne : ∀ d ∈ cs, d ≠ []) :
    Body (cs.flatMap (encode size) ++ encode size [] ++ rest) cs rest := by
  induction cs with
  | nil =>
    have h : Body (size 0 ++ crlf ++ (lines [] ++ crlf ++ rest)) [] rest :=
      .last (hline 0) (hsize 0) fun f hf => absurd hf List.not_mem_nil
    simpa only [List.flatMap_nil, List.nil_append, encode, List.length_nil, List.append_assoc,
      lines_nil] using h
  | cons d cs ih =>
    have h := Body.chunk (hline d.length) (hsize d.length) (hne d List.mem_cons_self)
      (ih fun d' hd' => hne d' (List.mem_cons_of_mem _ hd'))
    simpa only [List.flatMap_cons, encode, List.append_assoc] using h

end Encode

/-! ### Sizes -/

theorem foldl_hexNumber (s t : List UInt8) :
    hexNumber (s ++ t) = t.foldl (fun n c => n.bind fun n => (hexDigit c).map (16 * n + ·))
      (hexNumber s) :=
  List.foldl_append

theorem hexNumber_concat {s : List UInt8} {c : UInt8} {n d : ℕ} (hs : hexNumber s = some n)
    (hc : hexDigit c = some d) : hexNumber (s ++ [c]) = some (16 * n + d) := by
  rw [foldl_hexNumber, hs]
  simp [hc]

/-- A line of digits is a size. -/
theorem chunkSize_eq {line : List UInt8} (hne : line ≠ []) (h : 0x3b ∉ line) :
    chunkSize line = hexNumber line := by
  have hall : line.takeWhile (· ≠ 0x3b) = line :=
    List.takeWhile_eq_self_iff.mpr fun c hc => decide_eq_true fun e => h (e ▸ hc)
  unfold chunkSize
  rw [hall]
  exact if_neg hne

end Chunked
