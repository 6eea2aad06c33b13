import Csrv.App.Exlib
import Csrv.Lib.Buffer
import Mathlib.Data.List.DropRight

/-!
# The strings that `a.c` assembles

Every string of the core is copied together in a block whose size was computed before. A C string
is a `CStr`, and a builder is run on the block that `malloc` returned, whatever that contains; no
result is a write behind the block or a read of `NULL`.

* `builder_fits_iff`: six of the seven builders fit their block, the listening address never does.
* `extension_optional_iff`: for which URIs a module can be asked for with and without its
  extension.
-/

namespace Csrv.App

open Buffer Csrv.Mongoose

/-! ## Builders -/

/-- What a `char *` points to. -/
def CStr : Type := {s : Bytes // 0 ∉ s}

def httpHost : Bytes := ascii "http://0.0.0.0"
def defaultPort : Bytes := ascii "8000"

section Source

variable (stale : ℕ → UInt8)

/-- `path` in `cb`. -/
def cbPath (uri : Bytes) : Option Bytes := do
  let path := malloc stale (uri.length + 1)
  let path ← write path 0 uri
  write path uri.length [0]

/-- `dsopath` in `hdl_dso`, for any `s_dsouripfx`. -/
def hdlDsoDsopath (pfx path : Bytes) : Option Bytes :=
  let size :=
    if strchr path 0x2e || endswith path dsoext then
      sDsopath.length + path.length - pfx.length + 1
    else sDsopath.length + path.length - pfx.length + dsoext.length + 1
  build 0 stale size
    ([sDsopath, path.drop pfx.length] ++
      if !strchr path 0x2e && !endswith path dsoext then [dsoext] else [])

/-- A copy of `path` with `DSOEXT`, unless it has that already. -/
def withDsoext (path : Bytes) : Option Bytes :=
  let size :=
    if endswith path dsoext then path.length + 1 else path.length + dsoext.length + 1
  build 0 stale size ([path] ++ if !endswith path dsoext then [dsoext] else [])

/-- `path2` in `exlib`. -/
def exlibPath2 (path : Bytes) : Option Bytes := withDsoext stale path

/-- `path3` in `exlib`. -/
def exlibPath3 (path2 : Bytes) : Option Bytes := build 0 stale (path2.length + 1) [path2]

/-- `path2` in `lodlib`. -/
def lodlibPath2 (path : Bytes) : Option Bytes := withDsoext stale path

/-- `fullpath` in `lodlibs`. -/
def lodlibsFullpath (path name : Bytes) : Option Bytes :=
  build 0 stale (path.length + 1 + name.length) [path, name]

/-- `s_listening_address` in `appmain`; without a custom port, `port` stays `NULL`. -/
def appmainAddress (argv : List CStr) : Option Bytes :=
  let port := if argv.length = 2 then argv[1]? else none
  port.bind fun port =>
    build 0 stale (httpHost.length + 1 + port.1.length) [httpHost, ascii ":", port.1]

end Source

/-- One run of a builder, with the strings it is given. -/
inductive Builder
  | cbPath (uri : CStr)
  | hdlDsoDsopath (pfx path : CStr) (h : begswith path.1 pfx.1 = true)
  | exlibPath2 (path : CStr)
  | exlibPath3 (path2 : CStr)
  | lodlibPath2 (path : CStr)
  | lodlibsFullpath (path name : CStr)
  | appmainAddress (argv : List CStr)

namespace Builder

def run (stale : ℕ → UInt8) : Builder → Option Bytes
  | cbPath uri => App.cbPath stale uri.1
  | hdlDsoDsopath pfx path _ => App.hdlDsoDsopath stale pfx.1 path.1
  | exlibPath2 path => App.exlibPath2 stale path.1
  | exlibPath3 path2 => App.exlibPath3 stale path2.1
  | lodlibPath2 path => App.lodlibPath2 stale path.1
  | lodlibsFullpath path name => App.lodlibsFullpath stale path.1 name.1
  | appmainAddress argv => App.appmainAddress stale argv

/-- The string that is wanted. -/
def result : Builder → Bytes
  | cbPath uri => uri.1
  | hdlDsoDsopath pfx path _ =>
    sDsopath ++ path.1.drop pfx.1.length ++ if 0x2e ∈ path.1 then [] else dsoext
  | exlibPath2 path => path2Of path.1
  | exlibPath3 path2 => path2.1
  | lodlibPath2 path => path2Of path.1
  | lodlibsFullpath path name => path.1 ++ name.1
  | appmainAddress [_, port] => httpHost ++ ascii ":" ++ port.1
  | appmainAddress _ => httpHost ++ ascii ":" ++ defaultPort

/-- The builder of the listening address. -/
def IsAddress : Builder → Prop
  | appmainAddress _ => True
  | _ => False

/-- The block has room for the wanted string and its terminator, and ends up holding it. -/
def Fits (b : Builder) : Prop :=
  ∀ stale, ∃ block, b.run stale = some block ∧ b.result.length + 1 ≤ block.length ∧
    Holds 0 block b.result

end Builder

section Fits

variable {stale : ℕ → UInt8} {path pfx name : Bytes}

theorem strchr_dot : strchr path 0x2e = path.contains 0x2e := by
  unfold strchr
  rw [show ((0x2e : UInt8) == 0) = false from rfl, Bool.or_false]

/-- The two tests of `hdl_dso` are complements, and the suffix alone decides neither. -/
theorem dotted_eq : (strchr path 0x2e || endswith path dsoext) = decide (0x2e ∈ path) := by
  rw [strchr_dot]
  by_cases h : 0x2e ∈ path
  · simp [h]
  · simp [h, dsoext_not_suffix_of_dotless h]

theorem cbPath_holds (stale : ℕ → UInt8) (h : 0 ∉ path) :
    ∃ block, cbPath stale path = some block ∧ block.length = path.length + 1 ∧
      Holds 0 block path := by
  have hw := write_append (s := path) (t := malloc stale (path.length + 1)) [] (by simp)
  rw [List.nil_append] at hw
  have hd : (malloc stale (path.length + 1)).drop path.length = [stale path.length] := by
    rw [malloc, List.range_succ, List.map_append, List.drop_left' (by simp)]
    rfl
  rw [hd] at hw
  have hw' := write_append (s := [0]) (t := [stale path.length]) path le_rfl
  refine ⟨path ++ [0], ?_, by simp, h, [], rfl⟩
  simp only [cbPath, List.length_nil, List.nil_append] at hw ⊢
  rw [hw, Option.bind_eq_bind, Option.bind_some, hw']
  exact congrArg some (List.append_nil _)

/-- A builder whose size counts its strings and the terminator. -/
theorem build_holds (stale : ℕ → UInt8) (size : ℕ) (ss : List Bytes) (hss : ∀ t ∈ ss, 0 ∉ t)
    (h : ss.flatten.length + 1 ≤ size) : ∃ block, build 0 stale size ss = some block ∧
      ss.flatten.length + 1 ≤ block.length ∧ Holds 0 block ss.flatten := by
  obtain ⟨block, hb, hh⟩ := (build_iff hss stale size).mpr h
  exact ⟨block, hb, hh.length_lt, hh⟩

theorem hdlDsoDsopath_holds (hpath : 0 ∉ path) (h : begswith path pfx = true) :
    ∃ block, hdlDsoDsopath stale pfx path = some block ∧
      (sDsopath ++ path.drop pfx.length ++ if 0x2e ∈ path then [] else dsoext).length + 1 ≤
        block.length ∧
      Holds 0 block (sDsopath ++ path.drop pfx.length ++ if 0x2e ∈ path then [] else dsoext) := by
  have hlen := (begswith_iff.mp h).length_le
  have hdrop : 0 ∉ path.drop pfx.length := fun h0 => hpath (List.mem_of_mem_drop h0)
  have hneg : (!strchr path 0x2e && !endswith path dsoext) = !decide (0x2e ∈ path) := by
    rw [← Bool.not_or, dotted_eq]
  unfold hdlDsoDsopath
  rw [dotted_eq, hneg]
  by_cases hdot : 0x2e ∈ path
  · have hb := build_holds stale (sDsopath.length + path.length - pfx.length + 1)
      [sDsopath, path.drop pfx.length]
      (by simp [hdrop]; decide) (by simp; omega)
    simpa [hdot] using hb
  · have hb := build_holds stale
      (sDsopath.length + path.length - pfx.length + dsoext.length + 1)
      [sDsopath, path.drop pfx.length, dsoext]
      (by simp [hdrop]; decide) (by simp; omega)
    simpa [hdot] using hb

theorem withDsoext_holds (hpath : 0 ∉ path) : ∃ block, withDsoext stale path = some block ∧
    (path2Of path).length + 1 ≤ block.length ∧ Holds 0 block (path2Of path) := by
  unfold withDsoext path2Of
  by_cases he : endswith path dsoext = true
  · have hb := build_holds stale (path.length + 1) [path]
      (by simp [hpath]) (by simp)
    simpa [he] using hb
  · have hb := build_holds stale (path.length + dsoext.length + 1) [path, dsoext]
      (by simp [hpath]; decide) (by simp)
    simpa [he] using hb

theorem exlibPath3_holds (hpath : 0 ∉ path) : ∃ block, exlibPath3 stale path = some block ∧
    path.length + 1 ≤ block.length ∧ Holds 0 block path := by
  have hb := build_holds stale (path.length + 1) [path]
    (by simp [hpath]) (by simp)
  simpa [exlibPath3] using hb

theorem lodlibsFullpath_holds (hpath : 0 ∉ path) (hname : 0 ∉ name) :
    ∃ block, lodlibsFullpath stale path name = some block ∧
      (path ++ name).length + 1 ≤ block.length ∧ Holds 0 block (path ++ name) := by
  have hfit : [path, name].flatten.length + 1 ≤ path.length + 1 + name.length := by
    rw [List.flatten_cons, List.flatten_cons, List.flatten_nil, List.append_nil,
      List.length_append]
    omega
  have hb := build_holds stale (path.length + 1 + name.length) [path, name]
    (by simp [hpath, hname]) hfit
  simpa [lodlibsFullpath] using hb

/-- The last `strcat` writes its terminator behind the block, or there is no port at all. -/
theorem appmainAddress_none (argv : List CStr) : appmainAddress stale argv = none := by
  unfold appmainAddress
  by_cases hargc : argv.length = 2
  · obtain ⟨name, port, rfl⟩ := List.length_eq_two.mp hargc
    refine build_eq_none (fun t ht => ?_) (by simp [ascii]; omega)
    rcases List.mem_cons.mp ht with rfl | ht
    · decide
    rcases List.mem_cons.mp ht with rfl | ht
    · decide
    · exact List.mem_singleton.mp ht ▸ port.2
  · rw [if_neg hargc]
    rfl

end Fits

/-- **Assembled strings.** Whatever strings it is given, a builder requests enough for the string
it assembles and its terminator, exactly if it is not that of the listening address. -/
theorem builder_fits_iff (b : Builder) : b.Fits ↔ ¬ b.IsAddress := by
  cases b with
  | cbPath uri =>
    refine iff_of_true (fun stale => ?_) not_false
    obtain ⟨block, hb, hlen, hh⟩ := cbPath_holds stale uri.2
    exact ⟨block, hb, hlen.ge, hh⟩
  | hdlDsoDsopath pfx path h => exact iff_of_true (fun _ => hdlDsoDsopath_holds path.2 h) not_false
  | exlibPath2 path => exact iff_of_true (fun _ => withDsoext_holds path.2) not_false
  | exlibPath3 path2 => exact iff_of_true (fun _ => exlibPath3_holds path2.2) not_false
  | lodlibPath2 path => exact iff_of_true (fun _ => withDsoext_holds path.2) not_false
  | lodlibsFullpath path name =>
    exact iff_of_true (fun _ => lodlibsFullpath_holds path.2 name.2) not_false
  | appmainAddress argv =>
    refine iff_of_false (fun h => ?_) (fun h => h trivial)
    obtain ⟨block, hb, -⟩ := h fun _ => 0
    exact absurd (hb.symm.trans (appmainAddress_none argv)) (Option.some_ne_none block)

/-- The address of `csrv 80` does not fit its block. -/
theorem address_overflows : ¬ ∀ b : Builder, b.Fits := by
  intro hall
  obtain ⟨block, hb, -⟩ :=
    hall (.appmainAddress [⟨ascii "csrv", by decide⟩, ⟨ascii "80", by decide⟩]) fun _ => 0
  have hnone : App.appmainAddress (fun _ => 0)
      [⟨ascii "csrv", by decide⟩, ⟨ascii "80", by decide⟩] = none := by decide
  exact absurd (hb.symm.trans hnone) (Option.some_ne_none block)

/-! ## The optional extension -/

/-- The bytes behind the last slash. -/
def lastSegment (path : Bytes) : Bytes := path.rtakeWhile (· ≠ 0x2f)

/-- The bytes up to the last slash. -/
def directory (path : Bytes) : Bytes := path.rdropWhile (· ≠ 0x2f)

section Extension

variable {access : Bytes → Bool} {path : Bytes} {s s' : Bytes} {hm hm' : HttpMessage}

theorem directory_append_lastSegment (path : Bytes) : directory path ++ lastSegment path = path :=
  List.rdropWhile_append_rtakeWhile

theorem dot_mem_iff (h : 0x2e ∉ lastSegment path) : 0x2e ∈ path ↔ 0x2e ∈ directory path := by
  conv_lhs => rw [← directory_append_lastSegment path]
  rw [List.mem_append, or_iff_left h]

theorem slash_lastSegment_suffix (h : directory path ≠ []) : 0x2f :: lastSegment path <:+ path := by
  have hlast := List.rdropWhile_last_not (p := fun c : UInt8 => decide (c ≠ 0x2f)) path h
  rw [decide_eq_true_eq, not_not] at hlast
  refine ⟨(directory path).dropLast, ?_⟩
  calc (directory path).dropLast ++ 0x2f :: lastSegment path
      = (directory path).dropLast ++ [(directory path).getLast h] ++ lastSegment path := by
        rw [List.append_assoc]; exact congrArg _ (congrArg (· :: _) hlast.symm)
    _ = path := by rw [List.dropLast_append_getLast, directory_append_lastSegment]

/-- A directory with a dot keeps the extension away: the path is probed as it stands. -/
theorem endswith_of_dotted_directory (h : 0x2e ∉ lastSegment path) (hd : 0x2e ∈ directory path) :
    endswith path dsoext = false := by
  rw [Bool.eq_false_iff, ne_eq, endswith_iff]
  intro hs
  have hslash := slash_lastSegment_suffix (List.ne_nil_of_mem hd)
  rcases Nat.lt_or_ge (lastSegment path).length dsoext.length with hlt | hge
  · have hsub := List.suffix_of_suffix_length_le hslash hs hlt
    exact absurd (hsub.subset List.mem_cons_self) (by decide)
  · have hseg := List.suffix_of_suffix_length_le hs
      ((List.suffix_cons _ _).trans hslash) hge
    exact h (hseg.subset (by decide))

/-- The path as it was asked for with its extension. -/
theorem probePath_append_dsoext (uri : Bytes) :
    probePath (uri ++ dsoext) = sDsopath ++ uri ++ dsoext := by
  unfold probePath
  rw [if_pos (List.mem_append_right _ (by decide)), List.append_assoc]

/-- **The extension is optional.** Let the last segment of a requested path have no dot, and let the
file with the extension be accessible. The requests with and without the extension both run the
module under the same path exactly when no directory segment has a dot either. -/
theorem extension_optional_iff (h : mgHttpParse s = some hm) (h' : mgHttpParse s' = some hm')
    (huri : hm'.uri = hm.uri ++ dsoext) (hseg : 0x2e ∉ lastSegment hm.uri)
    (hacc : access (sDsopath ++ hm.uri ++ dsoext) = true) :
    (∃ path, cb access ⟨true, true⟩ hm = .exlib path ∧ cb access ⟨true, true⟩ hm' = .exlib path) ↔
      0x2e ∉ directory hm.uri := by
  simp only [cb_eq_exlib_iff (zero_not_mem_uri h), cb_eq_exlib_iff (zero_not_mem_uri h')]
  rw [← dot_mem_iff hseg, huri, probePath_append_dsoext]
  constructor
  · rintro ⟨path, ⟨-, -, rfl, -, hend⟩, -⟩ hdot
    rw [probePath, if_pos hdot, endswith_dotted hdot,
      endswith_of_dotted_directory hseg ((dot_mem_iff hseg).mp hdot)] at hend
    cases hend
  · intro hdot
    have hprobe : probePath hm.uri = sDsopath ++ hm.uri ++ dsoext := by rw [probePath, if_neg hdot]
    have hend := endswith_append (sDsopath ++ hm.uri) dsoext
    exact ⟨_, ⟨trivial, trivial, hprobe.symm, hacc, hend⟩, trivial, trivial, rfl, hacc, hend⟩

/-- `/tpl` and `/tpl.so`. -/
theorem extension_optional_tpl :
    ∃ path, cb (· == ascii "./www/tpl.so") ⟨true, true⟩ (plainGet (ascii "/tpl")) = .exlib path ∧
      cb (· == ascii "./www/tpl.so") ⟨true, true⟩ (plainGet (ascii "/tpl.so")) = .exlib path := by
  have h : mgHttpParse (ascii "GET /tpl HTTP/1.1\r\n\r\n") = some (plainGet (ascii "/tpl")) := by
    decide
  have h' : mgHttpParse (ascii "GET /tpl.so HTTP/1.1\r\n\r\n") =
      some (plainGet (ascii "/tpl.so")) := by decide
  exact (extension_optional_iff h h' (by decide) (by decide) (by decide)).mpr (by decide)

/-- `/v1.2/tpl` does not run the module of `/v1.2/tpl.so`. -/
theorem extension_required :
    ¬ ∀ (s s' : Bytes) (hm hm' : HttpMessage) (access : Bytes → Bool), mgHttpParse s = some hm →
      mgHttpParse s' = some hm' → hm'.uri = hm.uri ++ dsoext → hm.uri.head? = some 0x2f →
      lastSegment hm.uri ≠ [] → 0x2e ∉ lastSegment hm.uri →
      access (sDsopath ++ hm.uri ++ dsoext) = true →
      ∃ path, cb access ⟨true, true⟩ hm = .exlib path ∧
        cb access ⟨true, true⟩ hm' = .exlib path := by
  intro hall
  obtain ⟨path, hp, -⟩ := hall (ascii "GET /v1.2/tpl HTTP/1.1\r\n\r\n")
    (ascii "GET /v1.2/tpl.so HTTP/1.1\r\n\r\n") (plainGet (ascii "/v1.2/tpl"))
    (plainGet (ascii "/v1.2/tpl.so")) (· == ascii "./www/v1.2/tpl.so") (by decide) (by decide)
    (by decide) (by decide) (by decide) (by decide) (by decide)
  rw [show cb (· == ascii "./www/v1.2/tpl.so") ⟨true, true⟩ (plainGet (ascii "/v1.2/tpl")) =
    .serveDir by decide] at hp
  cases hp

end Extension

end Csrv.App
