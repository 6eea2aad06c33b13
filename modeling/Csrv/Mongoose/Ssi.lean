import Csrv.Lib.Run
import Csrv.Mongoose.Reply
import Csrv.Mongoose.Static

/-!
# Server-side includes

`mg_ssi` copies a file and replaces its include tags by what it makes of the files they name, down
to a depth of five. Its loop keeps a piece of the file in a buffer until it is known whether that
is a tag, and takes a tag apart with `sscanf`. The buffer is never terminated: the string that
`sscanf` reads goes on behind the piece, up to the first zero in memory, and taken is that there is
one. What stands there is a parameter, `stale`.

1. `Ssi`, `ssiStep`: the loop. A byte is never written behind the buffer (`Ssi.len_lt`); `none` is
   a read in front of it, a byte written behind `arg`, or the use of `arg` before it is written.
2. `Template`, `expand`: templates and what they mean.
3. `mgHttpServeSsi_expands`: the reply is the meaning of the template.
-/

namespace Csrv.Mongoose

open Chunked (crlf)

/-! ## `sscanf` -/

/-- What comes of a literal and `%[^"]` behind it: the end of the string or something else is
reached, or the conversion is made. -/
inductive Scan
  | eof
  | mismatch
  | arg (a : Bytes)
  deriving DecidableEq

def sscanf : Bytes → Bytes → Scan
  | [], s =>
    let a := s.takeWhile (· ≠ 0x22)
    if a = [] then if s = [] then .eof else .mismatch else .arg a
  | f :: fmt, s =>
    if f = 0x20 then sscanf fmt (s.dropWhile isspace)
    else
      match s with
      | [] => .eof
      | c :: s => if c = f then sscanf fmt s else .mismatch

/-! ## The loop -/

/-- `BUFSIZ`. -/
def bufsiz : ℕ := 8192

theorem zero_lt_bufsiz : 0 < bufsiz := by decide

theorem one_lt_bufsiz : 1 < bufsiz := by decide

theorem succ_lt_bufsiz {len : ℕ} (h : ¬len ≥ bufsiz - 2) : len + 1 < bufsiz := by
  unfold bufsiz at h ⊢
  omega

theorem succ_lt_bufsiz_of_eq {len : ℕ} (h : len = 5) : len + 1 < bufsiz := by
  rw [h]
  decide

def mgMaxSsiDepth : ℕ := 5

/-- What a tag names: a file next to the one it is in, or one below the web root. -/
inductive Include
  | file
  | virt
  deriving DecidableEq

/-- The locals of the loop: what has been appended to `b`, the bytes of `buf` that have been
written, and `arg` if it has been. -/
structure Ssi where
  out : Bytes
  buf : Bytes
  len : ℕ
  arg : Option Bytes
  intag : Bool
  len_le : len ≤ buf.length
  len_lt : len < bufsiz
  pos : intag = true → 0 < len

/-- `buf[len] = ch`. -/
def put (buf : Bytes) (len : ℕ) (ch : UInt8) : Bytes := buf.take len ++ ch :: buf.drop (len + 1)

theorem length_put (buf : Bytes) {len : ℕ} (h : len ≤ buf.length) (ch : UInt8) :
    len + 1 ≤ (put buf len ch).length := by
  unfold put
  rw [List.length_append, List.length_take, List.length_cons]
  omega

theorem take_put (buf : Bytes) {len : ℕ} (h : len ≤ buf.length) (ch : UInt8) :
    (put buf len ch).take (len + 1) = buf.take len ++ [ch] := by
  have hlen : (buf.take len).length = len := by
    rw [List.length_take]
    omega
  unfold put
  rw [List.take_append, hlen, List.take_of_length_le (by omega), Nat.add_sub_cancel_left,
    List.take_succ_cons, List.take_zero]

theorem zero_le_nil : 0 ≤ ([] : Bytes).length := Nat.zero_le _

/-- Outside of a tag nothing need be in the buffer. -/
theorem pos_of_not_intag : false = true → 0 < 0 := fun h => absurd h Bool.false_ne_true

namespace Ssi

/-- Where the loop starts. -/
def init : Ssi := ⟨[], [], 0, none, false, zero_le_nil, zero_lt_bufsiz, pos_of_not_intag⟩

/-- What has come out and what is still in the buffer. -/
def all (s : Ssi) : Bytes := s.out ++ s.buf.take s.len

/-- The bytes that are still in the buffer. -/
def piece (s : Ssi) : Bytes := s.buf.take s.len

/-- Whether a byte ends a tag. With a hyphen alone in the buffer the one before it is looked for in
front of the buffer. -/
def closes (s : Ssi) (ch : UInt8) : Option Bool :=
  if s.intag && ch = 0x3e && s.buf[s.len - 1]? = some 0x2d then
    if s.len = 1 then none else some (s.buf[s.len - 2]? = some 0x2d)
  else some false

/-- The end of a tag, with `out` as it is then. -/
def closed (s : Ssi) (ch : UInt8) (out : Bytes) (arg : Option Bytes) : Ssi :=
  ⟨out, put s.buf s.len ch, 0, arg, false, Nat.zero_le _, zero_lt_bufsiz, pos_of_not_intag⟩

/-- The string at `buf` once `ch` has been written, with what memory holds behind the bytes written. -/
def text (s : Ssi) (ch : UInt8) (stale : Bytes) : Bytes := cstr (put s.buf s.len ch ++ stale)

/-- The branches for an include tag, with what `arg` is then. -/
def included (incl : Include → Bytes → Option Bytes) (s : Ssi) (ch : UInt8) (k : Include)
    (arg : Option Bytes) : Option Ssi :=
  arg.bind fun a => (incl k a).map fun data => s.closed ch (s.out ++ data) arg

/-- A tag that has ended. Where the string ends before the conversion `sscanf` does not return
zero, and `arg` is what it was. -/
def close (incl : Include → Bytes → Option Bytes) (stale : Bytes) (s : Ssi) (ch : UInt8) :
    Option Ssi :=
  match sscanf (ascii "<!--#include file=\"") (s.text ch stale) with
  | .eof => s.included incl ch .file s.arg
  | .arg a => if a.length < bufsiz then s.included incl ch .file (some a) else none
  | .mismatch =>
    match sscanf (ascii "<!--#include virtual=\"") (s.text ch stale) with
    | .eof => s.included incl ch .virt s.arg
    | .arg a => if a.length < bufsiz then s.included incl ch .virt (some a) else none
    | .mismatch => some (s.closed ch (s.out ++ (put s.buf s.len ch).take (s.len + 1)) s.arg)

/-- Any other byte. -/
def next (s : Ssi) (ch : UInt8) : Ssi :=
  if ch = 0x3c then
    ⟨s.all, put s.buf 0 ch, 1, s.arg, true, length_put s.buf (Nat.zero_le _) ch, one_lt_bufsiz,
      fun _ => Nat.one_pos⟩
  else if s.intag then
    if h5 : s.len = 5 ∧ s.buf.take 5 ≠ ascii "<!--#" then
      ⟨s.out, put s.buf s.len ch, s.len + 1, s.arg, false, length_put s.buf s.len_le ch,
        succ_lt_bufsiz_of_eq h5.1, fun h => absurd h Bool.false_ne_true⟩
    else if hfull : s.len ≥ bufsiz - 2 then
      ⟨s.out, put s.buf 0 ch, 1, s.arg, true, length_put s.buf (Nat.zero_le _) ch, one_lt_bufsiz,
        fun _ => Nat.one_pos⟩
    else
      ⟨s.out, put s.buf s.len ch, s.len + 1, s.arg, true, length_put s.buf s.len_le ch,
        succ_lt_bufsiz hfull, fun _ => Nat.succ_pos _⟩
  else if hfull : s.len + 1 ≥ bufsiz then
    ⟨s.out ++ (put s.buf s.len ch).take (s.len + 1), put s.buf s.len ch, 0, s.arg, false,
      Nat.zero_le _, zero_lt_bufsiz, pos_of_not_intag⟩
  else
    ⟨s.out, put s.buf s.len ch, s.len + 1, s.arg, false, length_put s.buf s.len_le ch,
      Nat.lt_of_not_le hfull, fun h => absurd h Bool.false_ne_true⟩

end Ssi

/-- One byte of the file. -/
def ssiStep (incl : Include → Bytes → Option Bytes) (stale : Ssi → Bytes) (s : Ssi) (ch : UInt8) :
    Option Ssi :=
  match s.closes ch with
  | none => none
  | some true => s.close incl (stale s) ch
  | some false => some (s.next ch)

/-! ## `mg_ssi` -/

/-- The path of an included file, cut off at the size of `tmp`. -/
def ssiTarget (root path : Bytes) (k : Include) (arg : Bytes) : Bytes :=
  let dir := (path.reverse.dropWhile (· ≠ 0x2f)).reverse
  let tmp := match k with
    | .file => dir ++ arg
    | .virt => root ++ arg
  tmp.take (mgPathMax + bufsiz + 10 - 1)

/-- A call of `mg_ssi` but for the calls it makes. -/
def ssiFile (fopen : Bytes → Option Bytes) (incl : Include → Bytes → Option Bytes)
    (stale : Ssi → Bytes) (path : Bytes) : Option (Option Bytes) :=
  match fopen path with
  | none => some none
  | some content =>
    (Run.exec (ssiStep incl stale) .init content).map fun s =>
      if s.all = [] then none else some s.all

/-- What memory holds behind the bytes of `buf` that have been written, in a call of `mg_ssi` for a
path that may still go so many calls deep. -/
abbrev Stale := ℕ → Bytes → Ssi → Bytes

/-- `mg_ssi`, that may still go `n` calls deep: the bytes in front of the zero at its end, or
`NULL`. -/
def mgSsi (fopen : Bytes → Option Bytes) (stale : Stale) (root : Bytes) :
    ℕ → Bytes → Option (Option Bytes)
  | 0, path => ssiFile fopen (fun _ _ => some []) (stale 0 path) path
  | n + 1, path =>
    ssiFile fopen (fun k arg =>
      (mgSsi fopen stale root n (ssiTarget root path k arg)).map fun data => cstr (data.getD []))
      (stale (n + 1) path) path

/-- `mg_http_serve_ssi`: the texts that it sends. -/
def mgHttpServeSsi (fopen : Bytes → Option Bytes) (stale : Stale) (root fullpath : Bytes) :
    Option (List Bytes) :=
  (mgSsi fopen stale root mgMaxSsiDepth fullpath).map fun data =>
    mgHttpReply 200 (ascii "Content-Type: text/html; charset=utf-8\r\n") (cstr (data.getD []))

/-! ## Templates -/

/-- A tag: an include, with what stands behind the name, or another one. -/
inductive Tag
  | incl (k : Include) (name tail : Bytes)
  | other (w : Bytes)

/-- The beginning of an include tag. -/
def Include.opening : Include → Bytes
  | .file => ascii "<!--#include file=\""
  | .virt => ascii "<!--#include virtual=\""

namespace Tag

/-- What stands between the beginning of a tag and its last two hyphens. -/
def inner : Tag → Bytes
  | .incl k name tail => k.opening.drop 5 ++ name ++ [0x22] ++ tail
  | .other w => w

def render (t : Tag) : Bytes := ascii "<!--#" ++ t.inner ++ ascii "-->"

/-- Bytes that can be in a tag. -/
def InnerByte (c : UInt8) : Prop := c ≠ 0 ∧ c ≠ 0x3c ∧ c ≠ 0x3e

instance (c : UInt8) : Decidable (InnerByte c) := inferInstanceAs (Decidable (_ ∧ _ ∧ _))

/-- A tag that is read as it is meant. -/
structure Fits (t : Tag) : Prop where
  inner : ∀ c ∈ t.inner, InnerByte c
  length_lt : t.render.length < bufsiz
  shape : match t with
    | .incl _ name _ => name ≠ [] ∧ 0x22 ∉ name
    | .other w => ¬ ascii "include" <+: w

/-- The file that an include tag names. -/
def Names (t : Tag) (k : Include) (name : Bytes) : Prop := ∃ tail, t = .incl k name tail

/-- What a tag stands for. -/
def meaning (incl : Include → Bytes → Bytes) : Tag → Bytes
  | .incl k name _ => incl k name
  | .other w => (Tag.other w).render

end Tag

/-- A template: text, and more text behind each tag. -/
structure Template where
  text : Bytes
  rest : List (Tag × Bytes)

namespace Template

def render (t : Template) : Bytes := t.text ++ t.rest.flatMap fun p => p.1.render ++ p.2

def meaning (incl : Include → Bytes → Bytes) (t : Template) : Bytes :=
  t.text ++ t.rest.flatMap fun p => p.1.meaning incl ++ p.2

/-- Text that has no tag in it. -/
structure TextFits (w : Bytes) : Prop where
  noTag : ¬ ascii "<!--#" <:+: w
  str : 0 ∉ w

structure Fits (t : Template) : Prop where
  text : TextFits t.text
  rest : ∀ p ∈ t.rest, p.1.Fits ∧ TextFits p.2

end Template

/-- The meaning of the template at a path, `n` files deep: that of a deeper one, or of one that is
not there, is empty. -/
def expand (site : Bytes → Option Template) (root : Bytes) : ℕ → Bytes → Bytes
  | 0, path => ((site path).map (Template.meaning fun _ _ => [])).getD []
  | n + 1, path =>
    ((site path).map (Template.meaning fun k arg =>
      expand site root n (ssiTarget root path k arg))).getD []

/-! ## `sscanf` on a tag -/

section Scan

variable {l fmt s x stale name : Bytes}

/-- A literal without a space. -/
theorem sscanf_append (hl : ∀ c ∈ l, c ≠ 0x20) :
    sscanf (l ++ fmt) (l ++ s) = sscanf fmt s := by
  induction l with
  | nil => rfl
  | cons c l ih =>
    have hc := hl c List.mem_cons_self
    rw [List.cons_append, List.cons_append, sscanf, if_neg hc]
    simp only
    rw [if_pos trivial]
    exact ih fun d hd => hl d (List.mem_cons_of_mem c hd)

/-- A literal and a string that part before either of them ends. -/
theorem sscanf_mismatch (hl : ∀ c ∈ l, c ≠ 0x20) (hlx : ¬ l <+: x) (hxl : ¬ x <+: l) :
    sscanf (l ++ fmt) (x ++ stale) = .mismatch := by
  induction l generalizing x with
  | nil => exact absurd List.nil_prefix hlx
  | cons c l ih =>
    cases x with
    | nil => exact absurd List.nil_prefix hxl
    | cons d x =>
      rw [List.cons_append, List.cons_append, sscanf, if_neg (hl c List.mem_cons_self)]
      split_ifs with hdc
      · subst hdc
        rw [List.prefix_cons_inj] at hlx hxl
        exact ih (fun e he => hl e (List.mem_cons_of_mem _ he)) hlx hxl
      · rfl

/-- A space, and no more of them. -/
theorem sscanf_space {c : UInt8} (hc : isspace c = false) :
    sscanf (0x20 :: fmt) (0x20 :: c :: s) = sscanf fmt (c :: s) := by
  rw [sscanf, if_pos rfl, List.dropWhile_cons_of_pos (by decide),
    List.dropWhile_cons_of_neg (by rw [hc]; decide)]

/-- The beginning of an include tag. -/
theorem sscanf_opening (k : Include) (s : Bytes) :
    sscanf k.opening (k.opening ++ s) = sscanf [] s := by
  have hword : ∀ {c : UInt8} {w : Bytes}, isspace c = false → (∀ d ∈ c :: w, d ≠ 0x20) →
      sscanf (ascii "<!--#include" ++ 0x20 :: c :: w)
        (ascii "<!--#include" ++ (0x20 :: c :: (w ++ s))) = sscanf [] s := by
    intro c w hc hw
    rw [sscanf_append (by decide +kernel), sscanf_space hc]
    have := @sscanf_append (c :: w) [] s hw
    rwa [List.append_nil] at this
  cases k with
  | file => exact @hword 0x66 (ascii "ile=\"") (by decide) (by decide +kernel)
  | virt => exact @hword 0x76 (ascii "irtual=\"") (by decide) (by decide +kernel)

/-- The beginning of one is not that of the other. -/
theorem sscanf_virt (s : Bytes) :
    sscanf (ascii "<!--#include file=\"") (Include.virt.opening ++ s) = .mismatch := by
  have hfile : ascii "<!--#include file=\"" =
      ascii "<!--#include" ++ 0x20 :: (ascii "file=\"" ++ []) := rfl
  have hvirt : Include.virt.opening ++ s =
      ascii "<!--#include" ++ 0x20 :: 0x76 :: (ascii "irtual=\"" ++ s) := rfl
  rw [hfile, hvirt, sscanf_append (by decide +kernel), sscanf_space (by decide)]
  exact @sscanf_mismatch (ascii "file=\"") [] (ascii "virtual=\"") s (by decide +kernel)
    (by decide +kernel) (by decide +kernel)

/-- The name of an include tag. -/
theorem sscanf_arg (hne : name ≠ []) (hname : 0x22 ∉ name) :
    sscanf [] (name ++ 0x22 :: s) = .arg name := by
  have htake : (name ++ 0x22 :: s).takeWhile (· ≠ 0x22) = name := by
    rw [List.takeWhile_append_of_pos fun c hc => by simpa using fun e : c = 0x22 => hname (e ▸ hc),
      List.takeWhile_cons_of_neg (by decide), List.append_nil]
  rw [sscanf]
  simp only [htake]
  rw [if_neg hne]

end Scan

/-! ## Text -/

section Loop

variable {incl : Include → Bytes → Option Bytes} {stale : Ssi → Bytes} {s : Ssi}
  {acc p q behind : Bytes} {ch : UInt8}

/-- Text has been read behind `acc`. A piece that may be a tag begins with its last `<`. -/
structure InText (s : Ssi) (acc p : Bytes) : Prop where
  all : s.all = acc ++ p
  suffix : s.piece <:+ p
  tag : s.intag = true → s.len ≤ 5 ∧ s.piece.head? = some 0x3c

theorem length_piece (s : Ssi) : s.piece.length = s.len := by
  rw [Ssi.piece, List.length_take]
  exact Nat.min_eq_left s.len_le

/-- Where text begins. -/
theorem inText_nil (hout : s.out = acc) (hlen : s.len = 0) (hin : s.intag = false) :
    InText s acc [] where
  all := by rw [Ssi.all, hout, hlen, List.take_zero]
  suffix := by rw [Ssi.piece, hlen, List.take_zero]
  tag h := absurd h (by rw [hin]; decide)

theorem ssi_take_append (s : Ssi) (ch : UInt8) :
    s.out ++ (put s.buf s.len ch).take (s.len + 1) = s.all ++ [ch] := by
  rw [take_put _ s.len_le, Ssi.all, List.append_assoc]

/-- A buffer is never read in front of, if a tag in it begins with `<`. -/
theorem closes_eq (h : s.intag = true → s.piece.head? = some 0x3c) :
    ∃ b, s.closes ch = some b ∧ (b = true → s.intag = true ∧ ch = 0x3e) := by
  unfold Ssi.closes
  split_ifs with hc h1
  · -- the only byte in the buffer is no hyphen
    simp only [Bool.and_eq_true, decide_eq_true_eq] at hc
    have hhead := h hc.1.1
    rw [Ssi.piece, h1, List.head?_take, if_neg Nat.one_ne_zero, List.head?_eq_getElem?] at hhead
    rw [h1, Nat.sub_self, hhead] at hc
    exact absurd hc.2 (by decide)
  · simp only [Bool.and_eq_true, decide_eq_true_eq] at hc
    exact ⟨_, rfl, fun _ => hc.1⟩
  · exact ⟨false, rfl, fun h => absurd h (by decide)⟩

/-- The string at `buf` begins with the piece that is in it. -/
theorem text_eq (hx : 0 ∉ s.piece ++ [ch]) :
    ∃ t, s.text ch behind = s.piece ++ [ch] ++ t := by
  refine ⟨cstr (s.buf.drop (s.len + 1) ++ behind), ?_⟩
  rw [← cstr_append hx, Ssi.text, put, Ssi.piece]
  simp only [List.append_assoc, List.cons_append, List.nil_append]

/-- A piece that is no beginning of a tag is copied. -/
theorem close_of_mismatch (hx : 0 ∉ s.piece ++ [ch]) (hlx : ¬ ascii "<!--#" <+: s.piece ++ [ch])
    (hxl : ¬ s.piece ++ [ch] <+: ascii "<!--#") :
    s.close incl behind ch = some (s.closed ch (s.all ++ [ch]) s.arg) := by
  obtain ⟨t, htext⟩ := @text_eq s behind ch hx
  have hfile : sscanf (ascii "<!--#include file=\"") (s.text ch behind) = .mismatch := by
    rw [htext,
      show ascii "<!--#include file=\"" = ascii "<!--#" ++ ascii "include file=\"" from rfl]
    exact sscanf_mismatch (by decide +kernel) hlx hxl
  have hvirt : sscanf (ascii "<!--#include virtual=\"") (s.text ch behind) = .mismatch := by
    rw [htext,
      show ascii "<!--#include virtual=\"" = ascii "<!--#" ++ ascii "include virtual=\"" from rfl]
    exact sscanf_mismatch (by decide +kernel) hlx hxl
  unfold Ssi.close
  simp only [hfile, hvirt, ssi_take_append]

/-- A byte of a text that closes nothing. -/
theorem inText_next (h : InText s acc p) (hlx : ¬ ascii "<!--#" <+: s.piece ++ [ch]) :
    InText (s.next ch) acc (p ++ [ch]) := by
  have hall : s.out ++ (put s.buf s.len ch).take (s.len + 1) = acc ++ (p ++ [ch]) := by
    rw [ssi_take_append, h.all, List.append_assoc]
  have hpiece : (put s.buf s.len ch).take (s.len + 1) = s.piece ++ [ch] := take_put _ s.len_le ch
  have hsuf : (put s.buf s.len ch).take (s.len + 1) <:+ p ++ [ch] := by
    obtain ⟨t, ht⟩ := h.suffix
    exact ⟨t, by rw [hpiece, ← ht, List.append_assoc]⟩
  have hone : (put s.buf 0 ch).take 1 = [ch] := take_put s.buf (Nat.zero_le _) ch
  unfold Ssi.next
  split_ifs with hlt hin h5 hfull hfull
  · refine ⟨?_, ?_, fun _ => ⟨(by decide : 1 ≤ 5), ?_⟩⟩
    · show s.all ++ (put s.buf 0 ch).take 1 = _
      rw [hone, h.all, List.append_assoc]
    · show (put s.buf 0 ch).take 1 <:+ _
      rw [hone]
      exact List.suffix_append p [ch]
    · show ((put s.buf 0 ch).take 1).head? = _
      rw [hone, hlt]
      rfl
  · exact ⟨hall, hsuf, fun h => absurd h Bool.false_ne_true⟩
  · have := (h.tag hin).1
    unfold bufsiz at hfull
    omega
  · refine ⟨hall, hsuf, fun _ => ?_⟩
    obtain ⟨hle, hhead⟩ := h.tag hin
    constructor
    · -- five bytes would be the beginning of a tag
      by_contra hlong
      have hlen : s.len = 5 := by
        change ¬ s.len + 1 ≤ 5 at hlong
        omega
      have htake : s.piece = ascii "<!--#" := by
        rw [Ssi.piece, hlen]
        exact not_not.mp fun hne => h5 ⟨hlen, hne⟩
      exact hlx (htake ▸ List.prefix_append _ _)
    · show ((put s.buf s.len ch).take (s.len + 1)).head? = _
      rw [hpiece, List.head?_append, hhead]
      rfl
  · refine ⟨?_, List.nil_suffix, fun h => absurd h Bool.false_ne_true⟩
    show s.out ++ (put s.buf s.len ch).take (s.len + 1) ++ [] = _
    rw [List.append_nil, hall]
  · exact ⟨hall, hsuf, fun h => absurd h Bool.false_ne_true⟩

/-- A byte of a text. -/
theorem inText_step (h : InText s acc p) (hp : Template.TextFits (p ++ [ch])) :
    ∃ s', ssiStep incl stale s ch = some s' ∧ InText s' acc (p ++ [ch]) := by
  have hsuffix : s.piece ++ [ch] <:+ p ++ [ch] := by
    obtain ⟨t, ht⟩ := h.suffix
    exact ⟨t, by rw [← ht, List.append_assoc]⟩
  have hlx : ¬ ascii "<!--#" <+: s.piece ++ [ch] := fun hpre =>
    hp.noTag (hpre.isInfix.trans hsuffix.isInfix)
  obtain ⟨b, hb, htag⟩ := @closes_eq s ch fun hin => (h.tag hin).2
  unfold ssiStep
  rw [hb]
  cases b with
  | true =>
    obtain ⟨hin, rfl⟩ := htag rfl
    refine ⟨_, close_of_mismatch (fun h0 => hp.str (hsuffix.subset h0)) hlx fun hpre => ?_, ?_⟩
    · exact absurd (hpre.subset (List.mem_append_right _ List.mem_cons_self)) (by decide +kernel)
    · refine ⟨?_, List.nil_suffix, fun h => absurd h Bool.false_ne_true⟩
      rw [← List.append_assoc, ← h.all]
      exact List.append_nil _
  | false => exact ⟨_, rfl, inText_next h hlx⟩

theorem inText_exec (h : InText s acc p) (hq : Template.TextFits (p ++ q)) :
    ∃ s', Run.exec (ssiStep incl stale) s q = some s' ∧ InText s' acc (p ++ q) := by
  induction q generalizing s p with
  | nil => exact ⟨s, rfl, by rwa [List.append_nil]⟩
  | cons ch q ih =>
    have hsplit : p ++ ch :: q = p ++ [ch] ++ q := by simp
    rw [hsplit] at hq ⊢
    obtain ⟨s₁, h₁, hs₁⟩ := @inText_step incl stale s acc p ch h
      ⟨fun hin => hq.noTag (hin.trans (List.prefix_append _ q).isInfix),
        fun h0 => hq.str (List.mem_append_left q h0)⟩
    obtain ⟨s', h', hs'⟩ := ih hs₁ hq
    exact ⟨s', by rw [Run.exec, h₁]; exact h', hs'⟩

/-! ## Tags -/

/-- The tag that begins with `x` is in the buffer. -/
structure InTag (s : Ssi) (acc x : Bytes) : Prop where
  out : s.out = acc
  intag : s.intag = true
  piece : s.piece = x

theorem closes_of_ne (hch : ch ≠ 0x3e) : s.closes ch = some false := by
  unfold Ssi.closes
  rw [if_neg (by simp [hch])]

theorem inTag_start (h : InText s acc p) :
    ∃ s', ssiStep incl stale s 0x3c = some s' ∧ InTag s' (acc ++ p) [0x3c] := by
  refine ⟨s.next 0x3c, ?_, ?_⟩
  · unfold ssiStep
    rw [closes_of_ne (by decide)]
  · unfold Ssi.next
    rw [if_pos rfl]
    exact ⟨h.all, rfl, take_put s.buf (Nat.zero_le _) 0x3c⟩

variable {x y z : Bytes}

/-- A byte of a tag that does not end it. -/
theorem inTag_step (h : InTag s acc x) (hch : ch ≠ 0x3c ∧ ch ≠ 0x3e)
    (h5 : x.length = 5 → x = ascii "<!--#") (hlen : x.length < bufsiz - 2) :
    ∃ s', ssiStep incl stale s ch = some s' ∧ InTag s' acc (x ++ [ch]) := by
  have hx : s.len = x.length := by rw [← h.piece, length_piece]
  refine ⟨s.next ch, ?_, ?_⟩
  · unfold ssiStep
    rw [closes_of_ne hch.2]
  · have hne : ¬ (s.len = 5 ∧ s.buf.take 5 ≠ ascii "<!--#") := by
      rintro ⟨hlen5, hne⟩
      have hpiece := h.piece
      rw [Ssi.piece, hlen5] at hpiece
      exact hne (hpiece.trans (h5 (hx ▸ hlen5)))
    unfold Ssi.next
    rw [if_neg hch.1, if_pos h.intag, dif_neg hne, dif_neg (by omega)]
    exact ⟨h.out, rfl, (take_put _ s.len_le ch).trans (congrArg (· ++ [ch]) h.piece)⟩

theorem inTag_exec (h : InTag s acc x) (hy : ∀ c ∈ y, c ≠ 0x3c ∧ c ≠ 0x3e)
    (hxy : x ++ y = ascii "<!--#" ++ z) (hlen : (x ++ y).length ≤ bufsiz - 2) :
    ∃ s', Run.exec (ssiStep incl stale) s y = some s' ∧ InTag s' acc (x ++ y) := by
  induction y generalizing s x with
  | nil => exact ⟨s, rfl, by rwa [List.append_nil]⟩
  | cons ch y ih =>
    have hsplit : x ++ ch :: y = x ++ [ch] ++ y := by simp
    have h5 : x.length = 5 → x = ascii "<!--#" := fun h5 =>
      (List.append_inj hxy h5).1
    obtain ⟨s₁, h₁, hs₁⟩ := @inTag_step incl stale s acc ch x h (hy ch List.mem_cons_self) h5 (by
      rw [List.length_append, List.length_cons] at hlen
      unfold bufsiz at hlen ⊢
      omega)
    rw [hsplit] at hxy hlen ⊢
    obtain ⟨s', h', hs'⟩ := ih hs₁ (fun c hc => hy c (List.mem_cons_of_mem _ hc)) hxy hlen
    exact ⟨s', by rw [Run.exec, h₁]; exact h', hs'⟩

theorem closes_of_inTag {x' : Bytes} (h : InTag s acc (x' ++ ascii "--")) :
    s.closes 0x3e = some true := by
  have hlen : s.len = x'.length + 2 := by
    rw [← length_piece, h.piece, List.length_append]
    rfl
  have hget : ∀ i < s.len, s.buf[i]? = (x' ++ ascii "--")[i]? := by
    intro i hi
    rw [← h.piece, Ssi.piece, List.getElem?_take, if_pos hi]
  have h1 : s.buf[s.len - 1]? = some 0x2d := by
    rw [hget _ (by omega), hlen, List.getElem?_append_right (by omega)]
    rw [show x'.length + 2 - 1 - x'.length = 1 by omega]
    rfl
  have h2 : s.buf[s.len - 2]? = some 0x2d := by
    rw [hget _ (by omega), hlen, List.getElem?_append_right (by omega)]
    rw [show x'.length + 2 - 2 - x'.length = 0 by omega]
    rfl
  unfold Ssi.closes
  rw [if_pos (by simp [h.intag, h1]), if_neg (by omega), h2]
  rfl

/-- The string when the end of a tag is in the buffer. -/
theorem text_of_inTag {t : Tag} (ht : t.Fits)
    (h : InTag s acc (ascii "<!--#" ++ t.inner ++ ascii "--")) :
    ∃ r, s.text 0x3e behind = t.render ++ r := by
  have hpiece : s.piece ++ [0x3e] = t.render := by
    rw [h.piece, Tag.render, List.append_assoc]
    rfl
  have hstr : 0 ∉ t.render := fun h0 => by
    simp only [Tag.render, List.mem_append] at h0
    rcases h0 with (h0 | h0) | h0
    · exact absurd h0 (by decide +kernel)
    · exact (ht.inner 0 h0).1 rfl
    · exact absurd h0 (by decide +kernel)
  obtain ⟨r, hr⟩ := @text_eq s behind 0x3e (hpiece ▸ hstr)
  exact ⟨r, hr.trans (by rw [hpiece])⟩

/-- An include tag is closed with its file. -/
theorem close_incl {f : Include → Bytes → Bytes} {k : Include} {name tail : Bytes}
    (ht : (Tag.incl k name tail).Fits) (hincl : incl k name = some (f k name))
    (h : InTag s acc (ascii "<!--#" ++ (Tag.incl k name tail).inner ++ ascii "--")) :
    s.close incl behind 0x3e = some (s.closed 0x3e (s.out ++ f k name) (some name)) := by
  obtain ⟨hne, hquote⟩ := ht.shape
  obtain ⟨r, hr⟩ := @text_of_inTag s acc behind _ ht h
  have htext : s.text 0x3e behind = k.opening ++ (name ++ 0x22 :: (tail ++ ascii "-->" ++ r)) := by
    have hopening : ascii "<!--#" ++ k.opening.drop 5 = k.opening := by cases k <;> rfl
    rw [hr, ← hopening]
    simp [Tag.render, Tag.inner]
  have hlt : name.length < bufsiz := by
    refine Nat.lt_of_le_of_lt ?_ ht.length_lt
    simp only [Tag.render, Tag.inner, List.length_append]
    omega
  have hscan : sscanf k.opening (s.text 0x3e behind) = .arg name := by
    rw [htext, sscanf_opening, sscanf_arg hne hquote]
  have hincluded : s.included incl 0x3e k (some name) =
      some (s.closed 0x3e (s.out ++ f k name) (some name)) := by
    rw [Ssi.included, Option.bind_some, hincl, Option.map_some]
  unfold Ssi.close
  cases k with
  | file =>
    rw [Include.opening] at hscan
    simp only [hscan, hlt, if_true, hincluded]
  | virt =>
    have hfile := sscanf_virt (name ++ 0x22 :: (tail ++ ascii "-->" ++ r))
    rw [← htext] at hfile
    rw [Include.opening] at hscan
    simp only [hfile, hscan, hlt, if_true, hincluded]

/-- A hyphen would be a letter of the word. -/
theorem not_begins_include {w : Bytes} (hw : ¬ ascii "include" <+: w) :
    ¬ ascii "include" <+: w ++ ascii "-->" := by
  intro hpre
  obtain hpre | ⟨v, hv⟩ := List.prefix_or_prefix_of_prefix hpre (List.prefix_append w _)
  · exact hw hpre
  · cases v with
    | nil => exact hw (by rw [← hv, List.append_nil])
    | cons d v =>
      rw [← hv, List.prefix_append_right_inj] at hpre
      have hd : d = 0x2d := (List.cons_prefix_cons.mp hpre).1
      have hmem : d ∈ ascii "include" := hv ▸ List.mem_append_right w List.mem_cons_self
      rw [hd] at hmem
      exact absurd hmem (by decide +kernel)

/-- Any other tag is copied. -/
theorem close_other {w : Bytes} (ht : (Tag.other w).Fits)
    (h : InTag s acc (ascii "<!--#" ++ (Tag.other w).inner ++ ascii "--")) :
    s.close incl behind 0x3e = some (s.closed 0x3e (s.all ++ [0x3e]) s.arg) := by
  obtain ⟨r, hr⟩ := @text_of_inTag s acc behind _ ht h
  have hyes : ¬ w ++ ascii "-->" <+: ascii "include" := fun hpre =>
    absurd (hpre.subset (List.mem_append_right w List.mem_cons_self)) (by decide +kernel)
  have hscan : ∀ fmt, sscanf (ascii "<!--#" ++ (ascii "include" ++ fmt)) (s.text 0x3e behind) =
      .mismatch := by
    intro fmt
    rw [hr, Tag.render, Tag.inner, List.append_assoc, List.append_assoc,
      sscanf_append (by decide +kernel), ← List.append_assoc]
    exact sscanf_mismatch (by decide +kernel) (not_begins_include ht.shape) hyes
  have hfile : sscanf (ascii "<!--#include file=\"") (s.text 0x3e behind) = .mismatch :=
    hscan (ascii " file=\"")
  have hvirt : sscanf (ascii "<!--#include virtual=\"") (s.text 0x3e behind) = .mismatch :=
    hscan (ascii " virtual=\"")
  unfold Ssi.close
  simp only [hfile, hvirt, ssi_take_append]

/-- The end of a tag. -/
theorem inTag_end {f : Include → Bytes → Bytes} {t : Tag} (ht : t.Fits)
    (hincl : ∀ k name, t.Names k name → incl k name = some (f k name))
    (h : InTag s acc (ascii "<!--#" ++ t.inner ++ ascii "--")) :
    ∃ s', ssiStep incl stale s 0x3e = some s' ∧ InText s' (acc ++ t.meaning f) [] := by
  unfold ssiStep
  rw [closes_of_inTag h]
  cases t with
  | incl k name tail =>
    refine ⟨_, close_incl ht (hincl k name ⟨tail, rfl⟩) h, inText_nil ?_ rfl rfl⟩
    exact congrArg (· ++ f k name) h.out
  | other w =>
    refine ⟨_, close_other ht h, inText_nil ?_ rfl rfl⟩
    show s.out ++ s.piece ++ [0x3e] = acc ++ (Tag.other w).render
    rw [h.out, h.piece, Tag.render]
    simp only [List.append_assoc]
    rfl

/-- A tag is replaced by its meaning. -/
theorem tag_exec {f : Include → Bytes → Bytes} {t : Tag} (ht : t.Fits)
    (hincl : ∀ k name, t.Names k name → incl k name = some (f k name)) (h : InText s acc p) :
    ∃ s', Run.exec (ssiStep incl stale) s t.render = some s' ∧
      InText s' (acc ++ p ++ t.meaning f) [] := by
  have hsplit : t.render = [0x3c] ++ (ascii "!--#" ++ t.inner ++ ascii "--") ++ [0x3e] := by
    rw [Tag.render, show ascii "<!--#" = [0x3c] ++ ascii "!--#" from rfl,
      show ascii "-->" = ascii "--" ++ [0x3e] from rfl]
    simp only [List.append_assoc]
  have hlen := ht.length_lt
  obtain ⟨s₁, h₁, hs₁⟩ := @inTag_start incl stale s acc p h
  obtain ⟨s₂, h₂, hs₂⟩ := @inTag_exec incl stale s₁ (acc ++ p) [0x3c]
    (ascii "!--#" ++ t.inner ++ ascii "--") (t.inner ++ ascii "--") hs₁
    (fun c hc => by
      simp only [List.mem_append] at hc
      rcases hc with (hc | hc) | hc
      · exact (by decide +kernel : ∀ c ∈ ascii "!--#", c ≠ 0x3c ∧ c ≠ 0x3e) c hc
      · exact (ht.inner c hc).2
      · exact (by decide +kernel : ∀ c ∈ ascii "--", c ≠ 0x3c ∧ c ≠ 0x3e) c hc)
    (by simp [show ascii "<!--#" = 0x3c :: ascii "!--#" from rfl])
    (by
      rw [hsplit, List.length_append, List.length_singleton] at hlen
      omega)
  obtain ⟨s₃, h₃, hs₃⟩ := @inTag_end incl stale s₂ (acc ++ p) f t ht hincl (by
    rwa [← List.append_assoc, ← List.append_assoc] at hs₂)
  refine ⟨s₃, ?_, hs₃⟩
  have h₁' : Run.exec (ssiStep incl stale) s [0x3c] = some s₁ := by rw [Run.exec, h₁]; rfl
  have h₃' : Run.exec (ssiStep incl stale) s₂ [0x3e] = some s₃ := by rw [Run.exec, h₃]; rfl
  rw [hsplit, Run.exec_append, Run.exec_append, h₁', Option.bind_some, h₂, Option.bind_some, h₃']

/-- The text behind a tag, and the tags behind that. -/
theorem rest_exec {f : Include → Bytes → Bytes} {rest : List (Tag × Bytes)}
    (hrest : ∀ q ∈ rest, q.1.Fits ∧ Template.TextFits q.2)
    (hincl : ∀ q ∈ rest, ∀ k name, q.1.Names k name → incl k name = some (f k name))
    (h : InText s acc p) :
    ∃ s', Run.exec (ssiStep incl stale) s (rest.flatMap fun q => q.1.render ++ q.2) = some s' ∧
      s'.all = acc ++ p ++ rest.flatMap fun q => q.1.meaning f ++ q.2 := by
  induction rest generalizing s acc p with
  | nil => exact ⟨s, rfl, by rw [h.all, List.flatMap_nil, List.append_nil]⟩
  | cons q rest ih =>
    obtain ⟨htag, htext⟩ := hrest q List.mem_cons_self
    obtain ⟨s₁, h₁, hs₁⟩ := tag_exec htag (hincl q List.mem_cons_self) h
    obtain ⟨s₂, h₂, hs₂⟩ := @inText_exec incl stale s₁ _ [] q.2 hs₁ htext
    obtain ⟨s', h', hs'⟩ := ih (fun r hr => hrest r (List.mem_cons_of_mem q hr))
      (fun r hr => hincl r (List.mem_cons_of_mem q hr)) hs₂
    refine ⟨s', ?_, ?_⟩
    · rw [List.flatMap_cons, Run.exec_append, Run.exec_append, h₁, Option.bind_some, h₂,
        Option.bind_some, h']
    · rw [hs', List.flatMap_cons]
      simp only [List.nil_append, List.append_assoc]

end Loop

/-! ## Expansion -/

section Expand

variable {fopen : Bytes → Option Bytes} {incl : Include → Bytes → Option Bytes}
  {stale : Ssi → Bytes} {mem : Stale} {f : Include → Bytes → Bytes} {site : Bytes → Option Template}

/-- The end of `mg_ssi`: nothing in the buffer is `NULL`. -/
def orNull (b : Bytes) : Option Bytes := if b = [] then none else some b

theorem ssiFile_eq {path : Bytes} (hopen : fopen path = (site path).map Template.render)
    (hfits : ∀ t ∈ site path, t.Fits)
    (hincl : ∀ t ∈ site path, ∀ q ∈ t.rest, ∀ k name, q.1.Names k name →
      incl k name = some (f k name)) :
    ssiFile fopen incl stale path = some (orNull (((site path).map (Template.meaning f)).getD [])) := by
  unfold ssiFile
  rw [hopen]
  cases ht : site path with
  | none => rfl
  | some t =>
    have hfit := hfits t ht
    obtain ⟨s₁, h₁, hs₁⟩ :=
      @inText_exec incl stale .init [] [] t.text (inText_nil rfl rfl rfl) hfit.text
    obtain ⟨s', h', hall⟩ := rest_exec hfit.rest (hincl t ht) hs₁
    have hexec : Run.exec (ssiStep incl stale) .init t.render = some s' := by
      rw [Template.render, Run.exec_append, h₁, Option.bind_some, h']
    rw [Option.map_some, Option.map_some, Option.getD_some]
    simp only [hexec, Option.map_some, hall]
    rfl

theorem getD_orNull (b : Bytes) : (orNull b).getD [] = b := by
  unfold orNull
  split_ifs with h
  · exact h.symm
  · rfl

/-- A template means a string, if what it includes does. -/
theorem str_meaning {t : Template} (ht : t.Fits)
    (hf : ∀ q ∈ t.rest, ∀ k name, q.1.Names k name → 0 ∉ f k name) : 0 ∉ t.meaning f := by
  intro h
  unfold Template.meaning at h
  rcases List.mem_append.mp h with h | h
  · exact ht.text.str h
  · obtain ⟨⟨tag, text⟩, hq, h⟩ := List.mem_flatMap.mp h
    obtain ⟨htag, htext⟩ := ht.rest _ hq
    rcases List.mem_append.mp h with h | h
    · cases tag with
      | incl k name tail => exact hf _ hq k name ⟨tail, rfl⟩ h
      | other w =>
        simp only [Tag.meaning, Tag.render, List.mem_append] at h
        rcases h with (h | h) | h
        · exact absurd h (by decide +kernel)
        · exact (htag.inner 0 h).1 rfl
        · exact absurd h (by decide +kernel)
    · exact htext.str h

/-- At the paths that includes lead to there are templates, or nothing. -/
structure Covers (fopen : Bytes → Option Bytes) (site : Bytes → Option Template) (root : Bytes)
    (reached : Bytes → Prop) : Prop where
  opens : ∀ path, reached path → fopen path = (site path).map Template.render
  fits : ∀ path, reached path → ∀ t ∈ site path, t.Fits
  closed : ∀ path, reached path → ∀ t ∈ site path, ∀ q ∈ t.rest, ∀ k name, q.1.Names k name →
    reached (ssiTarget root path k name)

variable {root path : Bytes} {reached : Bytes → Prop}

theorem str_expand (h : Covers fopen site root reached) (hpath : reached path) (n : ℕ) :
    0 ∉ expand site root n path := by
  have hmeaning : ∀ {f : Include → Bytes → Bytes} {path : Bytes}, reached path →
      (∀ t ∈ site path, ∀ q ∈ t.rest, ∀ k name, q.1.Names k name → 0 ∉ f k name) →
      0 ∉ ((site path).map (Template.meaning f)).getD [] := by
    intro f path hpath hf
    cases ht : site path with
    | none => exact List.not_mem_nil
    | some t => exact str_meaning (h.fits path hpath t ht) (hf t ht)
  induction n generalizing path with
  | zero => exact hmeaning hpath fun _ _ _ _ _ _ _ => List.not_mem_nil
  | succ n ih =>
    exact hmeaning hpath fun t ht q hq k name hname =>
      ih (h.closed path hpath t ht q hq k name hname)

/-- **Includes are expanded.** -/
theorem mgSsi_eq (h : Covers fopen site root reached) (hpath : reached path) (n : ℕ) :
    mgSsi fopen mem root n path = some (orNull (expand site root n path)) := by
  induction n generalizing path with
  | zero =>
    exact ssiFile_eq (h.opens path hpath) (h.fits path hpath) fun _ _ _ _ _ _ _ => rfl
  | succ n ih =>
    refine ssiFile_eq (h.opens path hpath) (h.fits path hpath) fun t ht q hq k name hname => ?_
    have hnext := h.closed path hpath t ht q hq k name hname
    rw [ih hnext, Option.map_some, getD_orNull, cstr_eq_self (str_expand h hnext n)]

/-- **Server-side includes.** The reply for a template is what it means: its text, and for each
include the meaning of the template it names, down to a depth of five, whatever stands behind the
buffers. -/
theorem mgHttpServeSsi_expands (mem : Stale) (h : Covers fopen site root reached)
    (hpath : reached path) :
    mgHttpServeSsi fopen mem root path = some (HttpReply.sends ⟨200,
      [⟨ascii "Content-Type", ascii "text/html; charset=utf-8"⟩],
      expand site root mgMaxSsiDepth path⟩) := by
  unfold mgHttpServeSsi
  rw [mgSsi_eq h hpath, Option.map_some, getD_orNull, cstr_eq_self (str_expand h hpath _)]
  rfl

/-- A template that includes itself. -/
def selfSite (path : Bytes) : Option Template :=
  if path = ascii "/w/a.shtml" then
    some ⟨ascii "x", [(.incl .file (ascii "a.shtml") (ascii " "), ascii "y")]⟩
  else none

theorem mgHttpServeSsi_expands_self :
    mgHttpServeSsi (fun path => (selfSite path).map Template.render)
        (fun _ _ _ => ascii "stale\"") (ascii "/w") (ascii "/w/a.shtml") =
      some (HttpReply.sends ⟨200, [⟨ascii "Content-Type", ascii "text/html; charset=utf-8"⟩],
        ascii "xxxxxxyyyyyy"⟩) := by
  have hexpand : expand selfSite (ascii "/w") mgMaxSsiDepth (ascii "/w/a.shtml") =
      ascii "xxxxxxyyyyyy" := by decide +kernel
  rw [← hexpand]
  refine @mgHttpServeSsi_expands _ selfSite (ascii "/w") _ (fun _ => True) _
    ⟨fun _ _ => rfl, fun path _ t ht => ?_, fun _ _ _ _ _ _ _ _ _ => trivial⟩ trivial
  unfold selfSite at ht
  split_ifs at ht
  · obtain rfl := Option.some.inj ht
    refine ⟨⟨by decide +kernel, by decide +kernel⟩, fun p hp => ?_⟩
    rw [List.mem_singleton.mp hp]
    refine ⟨⟨?_, ?_, ?_⟩, ?_, ?_⟩
    all_goals decide +kernel
  · cases ht

end Expand

end Csrv.Mongoose
