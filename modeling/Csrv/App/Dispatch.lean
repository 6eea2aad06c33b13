import Csrv.Lib.Lexical
import Csrv.Mongoose.Http

/-!
# Which module a request runs

`cb` and `hdl_dso` of `a.c`: the URI is appended to `./www` as it came, and the result is probed
with `access`. The file system is what `access` answers, the allocator says which of the two
allocations succeed.

* `Contained`: a path stays below the module directory when it is resolved lexically.
* `dispatch_contained_iff`: for which URIs every module that `cb` runs is contained.
-/

namespace Csrv.App

open Lexical Csrv.Mongoose

def dsoext : Bytes := ascii ".so"
def sDsouripfx : Bytes := ascii ""
def sDsopath : Bytes := ascii "./www"

/-- Which allocations of `cb` and `hdl_dso` succeed. -/
structure Allocs where
  path : Bool
  dsopath : Bool
  deriving DecidableEq

/-- What becomes of a request. -/
inductive Dispatch
  | dropped
  | ealloc
  | exlib (path : Bytes)
  | serveDir
  deriving DecidableEq

def hdlDso (access : Bytes → Bool) (al : Allocs) (path : Bytes) : Dispatch :=
  let dotted := path.contains 0x2e || endswith path dsoext
  if al.dsopath then
    let dsopath := sDsopath ++ path.drop sDsouripfx.length
    let dsopath := if dotted then dsopath else dsopath ++ dsoext
    if access dsopath then
      if endswith dsopath dsoext then .exlib dsopath else .serveDir
    else .serveDir
  else .ealloc

/-- `cb` at `MG_EV_HTTP_MSG`. -/
def cb (access : Bytes → Bool) (al : Allocs) (hm : HttpMessage) : Dispatch :=
  if al.path then
    let path := cstr (hm.uri ++ [0])
    if begswith path sDsouripfx then hdlDso access al path else .serveDir
  else .dropped

/-! ## Lexical resolution -/

def segmentMove (w : Bytes) : Move Bytes :=
  if w = [] ∨ w = ascii "." then .stay else if w = ascii ".." then .up else .down w

/-- The walk a path makes from the working directory. -/
def moves (path : Bytes) : List (Move Bytes) := (path.splitOn 0x2f).map segmentMove

/-- The path names something strictly below `s_dsopath`. -/
def Contained (path : Bytes) : Prop :=
  (resolve (moves path)).StrictlyBelow (resolve (moves sDsopath))

instance (path : Bytes) : Decidable (Contained path) :=
  inferInstanceAs (Decidable (Place.StrictlyBelow _ _))

/-- The walk enters `www` where it started and, from its last entry on, stays inside and ends
below. -/
def EndsBelowWww (ms : List (Move Bytes)) : Prop :=
  ∃ X Y, ms = X ++ .down (ascii "www") :: Y ∧ Closed X ∧ Inside Y ∧ 0 < height Y

/-- The URIs whose modules are contained. Without a dot the URI has to start with a slash;
with a dot it is probed as it stands, and its own `..` segments decide. -/
def ContainedUri (access : Bytes → Bool) (uri : Bytes) : Prop :=
  if 0x2e ∈ uri then
    access (sDsopath ++ uri) = false ∨ endswith uri dsoext = false ∨
      EndsBelowWww (moves (ascii "www" ++ uri))
  else
    access (sDsopath ++ uri ++ dsoext) = false ∨ uri.head? = some 0x2f

variable {access : Bytes → Bool} {al : Allocs} {uri path : Bytes} {hm : HttpMessage}

theorem segments_cons {c : UInt8} {s : Bytes} : (c :: s).splitOn 0x2f =
    if c = 0x2f then [] :: s.splitOn 0x2f else (s.splitOn 0x2f).modifyHead (c :: ·) := by
  simp only [List.splitOn, List.splitOnP_cons_eq_if_modifyHead, beq_iff_eq]

theorem segments_ne_nil (s : Bytes) : s.splitOn 0x2f ≠ [] := List.splitOnP_ne_nil _ _

theorem moves_sDsopath_append (uri : Bytes) :
    moves (sDsopath ++ uri) = .stay :: moves (ascii "www" ++ uri) := by
  show moves (0x2e :: 0x2f :: (ascii "www" ++ uri)) = _
  rw [moves, segments_cons, if_neg (by decide), segments_cons, if_pos rfl]
  rfl

theorem contained_iff : Contained (sDsopath ++ uri) ↔ EndsBelowWww (moves (ascii "www" ++ uri)) := by
  have h : resolve (moves (sDsopath ++ uri)) = resolve (moves (ascii "www" ++ uri)) := by
    rw [moves_sDsopath_append]; rfl
  rw [Contained, h, show resolve (moves sDsopath) = ⟨0, [ascii "www"]⟩ by decide,
    strictlyBelow_iff]
  rfl

/-! ## URIs without a dot -/

/-- The segments of a dotless URI with the suffix: only the last has a dot. -/
theorem segments_append_dsoext (h : 0x2e ∉ uri) :
    ∃ ws w, (uri ++ dsoext).splitOn 0x2f = ws ++ [w ++ dsoext] ∧
      (∀ v ∈ ws, 0x2e ∉ v) ∧ 0x2e ∉ w := by
  induction uri with
  | nil => exact ⟨[], [], by decide, by simp, by simp⟩
  | cons c uri ih =>
    rw [List.mem_cons, not_or] at h
    obtain ⟨ws, w, he, hws, hw⟩ := ih h.2
    rw [List.cons_append, segments_cons, he]
    by_cases hc : c = 0x2f
    · rw [if_pos hc]
      refine ⟨[] :: ws, w, rfl, ?_, hw⟩
      rintro v (_ | ⟨_, hv⟩)
      · simp
      · exact hws v hv
    · rw [if_neg hc]
      cases ws with
      | nil => exact ⟨[], c :: w, rfl, by simp, by simp [h.1, hw]⟩
      | cons v ws =>
        refine ⟨(c :: v) :: ws, w, rfl, ?_, hw⟩
        rintro u (_ | ⟨_, hu⟩)
        · simpa [h.1] using hws v List.mem_cons_self
        · exact hws u (List.mem_cons_of_mem _ hu)

theorem segmentMove_of_dotless {v : Bytes} (h : 0x2e ∉ v) : segmentMove v ≠ .up := by
  unfold segmentMove
  split_ifs with h₁ h₂
  · simp
  · exact absurd (h₂ ▸ by decide : (0x2e : UInt8) ∈ v) h
  · simp

theorem segmentMove_append_dsoext (w : Bytes) :
    segmentMove (w ++ dsoext) = .down (w ++ dsoext) := by
  have hlen : 3 ≤ (w ++ dsoext).length := by simp [dsoext, ascii]
  unfold segmentMove
  rw [if_neg, if_neg]
  · intro h
    rw [h] at hlen
    exact absurd hlen (by decide)
  · rintro (h | h)
    · rw [h] at hlen; exact absurd hlen (by decide)
    · rw [h] at hlen; exact absurd hlen (by decide)

/-- A dotless walk goes up nowhere and ends with a step down. -/
theorem moves_dotless (h : 0x2e ∉ uri) :
    Move.up ∉ moves (uri ++ dsoext) ∧ 0 < height (moves (uri ++ dsoext)) := by
  obtain ⟨ws, w, he, hws, -⟩ := segments_append_dsoext h
  have hm : moves (uri ++ dsoext) = ws.map segmentMove ++ [.down (w ++ dsoext)] := by
    rw [moves, he, List.map_append, List.map_singleton, segmentMove_append_dsoext]
  have hup : Move.up ∉ ws.map segmentMove := by
    rw [List.mem_map]
    rintro ⟨v, hv, hv'⟩
    exact segmentMove_of_dotless (hws v hv) hv'
  rw [hm]
  refine ⟨by simp [hup], ?_⟩
  have := inside_of_no_up hup _ List.prefix_rfl
  rw [height_append, height_singleton]
  simp only [Move.rise]
  omega

/-- Any byte but a slash after `www` makes another name of the first segment. -/
theorem moves_www_cons {c : UInt8} {t : Bytes} (hc : c ≠ 0x2f) :
    ∃ v ms, moves (ascii "www" ++ c :: t) = .down (ascii "www" ++ c :: v) :: ms := by
  obtain ⟨v, ws, he⟩ := List.exists_cons_of_ne_nil (segments_ne_nil t)
  refine ⟨v, ws.map segmentMove, ?_⟩
  show moves (0x77 :: 0x77 :: 0x77 :: c :: t) = _
  rw [moves, segments_cons, if_neg (by decide), segments_cons, if_neg (by decide), segments_cons,
    if_neg (by decide), segments_cons, if_neg hc, he]
  have hne : ∀ {w : Bytes}, w.length < 3 → (0x77 :: 0x77 :: 0x77 :: c :: v) ≠ w := by
    rintro w hw rfl
    simp only [List.length_cons] at hw
    omega
  show segmentMove (0x77 :: 0x77 :: 0x77 :: c :: v) :: _ = _
  rw [segmentMove, if_neg (not_or.mpr ⟨hne (by decide), hne (by decide)⟩), if_neg (hne (by decide))]
  rfl

theorem not_endsBelowWww_cons {v : Bytes} {c : UInt8} {ms : List (Move Bytes)}
    (hup : Move.up ∉ ms) : ¬ EndsBelowWww (.down (ascii "www" ++ c :: v) :: ms) := by
  rintro ⟨X, Y, he, hX, -, -⟩
  cases X with
  | nil =>
    have := congrArg List.length (Move.down.inj (List.cons.inj he).1)
    rw [List.length_append] at this
    simp at this
  | cons m X =>
    -- the closed part would have to leave the first directory again
    obtain ⟨rfl, rfl⟩ := List.cons.inj he
    have hX0 := inside_of_no_up (fun h => hup (List.mem_append_left _ h)) X List.prefix_rfl
    have h0 := hX.2
    rw [height_cons, Move.rise] at h0
    omega

theorem dotless_contained_iff (h : 0x2e ∉ uri) :
    EndsBelowWww (moves (ascii "www" ++ (uri ++ dsoext))) ↔ uri.head? = some 0x2f := by
  have hwww : 0x2e ∉ ascii "www" ++ uri := by
    rw [List.mem_append, not_or]
    exact ⟨by decide, h⟩
  constructor
  · intro hb
    by_contra hhead
    obtain ⟨c, t, hct, hc⟩ : ∃ c t, uri ++ dsoext = c :: t ∧ c ≠ 0x2f := by
      cases uri with
      | nil => exact ⟨_, _, rfl, by decide⟩
      | cons c t => exact ⟨c, t ++ dsoext, rfl, by simpa using hhead⟩
    obtain ⟨v, ms, hm⟩ := moves_www_cons (t := t) hc
    have hup := (moves_dotless hwww).1
    rw [List.append_assoc, hct, hm] at hup
    rw [hct, hm] at hb
    exact not_endsBelowWww_cons (fun h => hup (List.mem_cons_of_mem _ h)) hb
  · intro hhead
    obtain ⟨t, rfl⟩ : ∃ t, uri = 0x2f :: t := by
      cases uri with
      | nil => cases hhead
      | cons c t => exact ⟨t, by simpa using hhead⟩
    have ht : 0x2e ∉ t := fun hm => h (List.mem_cons_of_mem _ hm)
    have hm : moves (ascii "www" ++ (0x2f :: t ++ dsoext)) =
        .down (ascii "www") :: moves (t ++ dsoext) := by
      show moves (0x77 :: 0x77 :: 0x77 :: 0x2f :: (t ++ dsoext)) = _
      rw [moves, segments_cons, if_neg (by decide), segments_cons, if_neg (by decide),
        segments_cons, if_neg (by decide), segments_cons, if_pos rfl]
      rfl
    obtain ⟨hup, hh⟩ := moves_dotless ht
    exact ⟨[], _, hm, ⟨inside_nil, rfl⟩, inside_of_no_up hup, hh⟩

/-! ## Dispatching -/

theorem endswith_dotted (h : 0x2e ∈ uri) :
    endswith (sDsopath ++ uri) dsoext = endswith uri dsoext := by
  rw [Bool.eq_iff_iff, endswith_iff, endswith_iff]
  constructor
  · intro hs
    rcases le_total dsoext.length uri.length with hle | hle
    · exact List.suffix_of_suffix_length_le hs (List.suffix_append _ _) hle
    · -- a shorter URI would be a proper suffix of `.so`, which has no dot
      obtain ⟨t, ht⟩ := List.suffix_of_suffix_length_le (List.suffix_append sDsopath uri) hs hle
      cases t with
      | nil => exact ⟨[], ht.symm⟩
      | cons c t =>
        have htl : t ++ uri = ascii "so" := (List.cons.inj ht).2
        exact absurd (htl ▸ List.mem_append_right t h : (0x2e : UInt8) ∈ ascii "so") (by decide)
  · exact fun hs => hs.trans (List.suffix_append _ _)

/-- The path that `hdl_dso` probes. -/
def probePath (path : Bytes) : Bytes :=
  if 0x2e ∈ path then sDsopath ++ path else sDsopath ++ path ++ dsoext

theorem dsoext_not_suffix_of_dotless (h : 0x2e ∉ path) : endswith path dsoext = false := by
  rw [Bool.eq_false_iff, ne_eq, endswith_iff]
  exact fun hs => h (hs.subset (by decide))

theorem hdlDso_eq : hdlDso access al path =
    if al.dsopath then
      if access (probePath path) && endswith (probePath path) dsoext then .exlib (probePath path)
      else .serveDir
    else .ealloc := by
  have hp : (if path.contains 0x2e || endswith path dsoext then sDsopath ++ path
      else sDsopath ++ path ++ dsoext) = probePath path := by
    unfold probePath
    by_cases h : 0x2e ∈ path
    · simp [h]
    · simp [h, dsoext_not_suffix_of_dotless h]
  have hd : path.drop sDsouripfx.length = path := rfl
  simp only [hdlDso, hd, hp]
  cases al.dsopath <;> cases access (probePath path) <;> simp

theorem cb_eq (h : 0 ∉ hm.uri) : cb access al hm =
    if al.path then hdlDso access al hm.uri else .dropped := by
  rw [cb, cstr_of_not_mem h]
  simp only [sDsouripfx, ascii, String.toList_empty, List.map_nil, begswith_nil, if_true]

/-- **When a module runs.** -/
theorem cb_eq_exlib_iff (h : 0 ∉ hm.uri) : cb access al hm = .exlib path ↔
    al.path = true ∧ al.dsopath = true ∧ path = probePath hm.uri ∧ access path = true ∧
      endswith path dsoext = true := by
  rw [cb_eq h, hdlDso_eq]
  constructor
  · intro he
    split_ifs at he with h₁ h₂ h₃
    obtain rfl := Dispatch.exlib.inj he
    rw [Bool.and_eq_true] at h₃
    exact ⟨h₁, h₂, rfl, h₃⟩
  · rintro ⟨h₁, h₂, rfl, h₃, h₄⟩
    rw [if_pos h₁, if_pos h₂, if_pos (by rw [h₃, h₄]; rfl)]

theorem contained_probePath_iff : ContainedUri access uri ↔
    (access (probePath uri) = true → endswith (probePath uri) dsoext = true →
      Contained (probePath uri)) := by
  unfold ContainedUri probePath
  split_ifs with h
  · rw [contained_iff, endswith_dotted h]
    cases access (sDsopath ++ uri) <;> cases endswith uri dsoext <;> simp
  · rw [endswith_append, List.append_assoc, contained_iff, dotless_contained_iff h]
    cases access (sDsopath ++ (uri ++ dsoext)) <;> simp

/-- **Containment of modules.** Every module that `cb` runs for a parsed request lies strictly
below `./www` exactly when the URI is a contained one. -/
theorem dispatch_contained_iff {s : Bytes} (h : mgHttpParse s = some hm) :
    (∀ al p, cb access al hm = .exlib p → Contained p) ↔ ContainedUri access hm.uri := by
  simp only [cb_eq_exlib_iff (zero_not_mem_uri h), contained_probePath_iff]
  constructor
  · intro hall ha he
    exact hall ⟨true, true⟩ _ ⟨rfl, rfl, rfl, ha, he⟩
  · rintro hall al p ⟨-, -, rfl, ha, he⟩
    exact hall ha he

/-- The message of `GET target HTTP/1.1` without header lines. -/
def plainGet (target : Bytes) : HttpMessage :=
  let uri := target.takeWhile (· ≠ 0x3f)
  { method := ascii "GET"
    uri
    query := target.drop (uri.length + 1)
    proto := ascii "HTTP/1.1"
    headers := List.replicate mgMaxHttpHeaders ⟨[], []⟩
    headLen := target.length + 17
    bodyLen := 0
    messageLen := target.length + 17 }

/-- The module of `/x.so` is contained. -/
theorem dispatch_contained_x :
    mgHttpParse (ascii "GET /x.so HTTP/1.1\r\n\r\n") = some (plainGet (ascii "/x.so")) ∧
      ∀ al p, cb (fun _ => true) al (plainGet (ascii "/x.so")) = .exlib p → Contained p := by
  have h : mgHttpParse (ascii "GET /x.so HTTP/1.1\r\n\r\n") = some (plainGet (ascii "/x.so")) := by
    decide
  refine ⟨h, (dispatch_contained_iff h).mpr ?_⟩
  rw [ContainedUri, if_pos (by decide)]
  refine Or.inr (Or.inr ⟨[], [.down (ascii "x.so")], by decide, ⟨inside_nil, rfl⟩, ?_, by decide⟩)
  exact inside_of_no_up (by decide)

/-- A request for `/../lib/x.so` runs a module outside `./www`. -/
theorem dispatch_escapes :
    ¬ ∀ (s : Bytes) (hm : HttpMessage) (access : Bytes → Bool), mgHttpParse s = some hm →
      ∀ al p, cb access al hm = .exlib p → Contained p := by
  intro hall
  have h := hall (ascii "GET /../lib/x.so HTTP/1.1\r\n\r\n") (plainGet (ascii "/../lib/x.so"))
    (fun _ => true) (by decide) ⟨true, true⟩ (ascii "./www/../lib/x.so") (by decide)
  exact absurd h (by decide)

end Csrv.App
