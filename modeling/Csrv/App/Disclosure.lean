import Csrv.App.Dispatch
import Csrv.Mongoose.Static

/-!
# Modules handed out as files

`hdl_dso` probes the URI as it came, `mg_http_serve_dir` decodes it, strips its trailing slashes and
resolves links. `static_never_module_iff` says for which requests the file that is then sent is
never a module.
-/

namespace Csrv.App

open Csrv.Mongoose

def sWebRootDir : Bytes := ascii "./www"

/-- The file whose contents an answer carries. -/
def sent : Served → Option Bytes
  | .ssi path => some path
  | .contents path _ _ => some path
  | _ => none

/-- `cb` falls through to `mg_http_serve_dir`, which answers with the contents of `f`. -/
def Answers (fs : FileSystem) (al : Allocs) (hm : HttpMessage) (f : Bytes) : Prop :=
  cb fs.access al hm = .serveDir ∧
    (mgHttpServeDir fs hm sWebRootDir shtmlPattern).bind sent = some f

/-- The decoded URI, without trailing slashes, names `f` below the web root. -/
def Resolves (fs : FileSystem) (uri f : Bytes) : Prop :=
  ∃ root, fs.realpath sWebRootDir = .ok root ∧ (fs.stat root).map (·.isDir) = some true ∧
    root <+: stripSlashes (root ++ decodedUri (mgPathMax - 1 - root.length) fs.stale uri) ∧
    fs.realpath (stripSlashes (root ++ decodedUri (mgPathMax - 1 - root.length) fs.stale uri)) =
      .ok f ∧ root <+: f

/-- `f` is a regular file that can be opened and is asked for with its contents. -/
def Sendable (fs : FileSystem) (hm : HttpMessage) (f : Bytes) : Prop :=
  ∃ st, fs.stat f = some st ∧ st.isDir = false ∧ fs.openRead f = true ∧
    mgGlobmatch shtmlPattern f = some false ∧
    (mgHttpGetHeader hm.headers (ascii "If-None-Match")).any
      (fun inm => mgVcasecmp inm (mgHttpEtag st.size st.mtime) = 0) = false ∧
    mgVcasecmp hm.method (ascii "HEAD") ≠ 0

/-- The probed path is not an accessible module, and the resolved file is one. -/
def ExposesModule (fs : FileSystem) (hm : HttpMessage) : Prop :=
  ¬ (fs.access (probePath hm.uri) = true ∧ endswith (probePath hm.uri) dsoext = true) ∧
    ∃ f, endswith f dsoext = true ∧ Resolves fs hm.uri f ∧ Sendable fs hm f

section Serve

variable {fs : FileSystem} {hm : HttpMessage} {uri f p name : Bytes} {st : Stat}

theorem not_endswith_append {q : Bytes} (hq : q ≠ []) (ho : 0x6f ∉ q) :
    endswith (p ++ q) dsoext = false := by
  rw [Bool.eq_false_iff, ne_eq, endswith_iff]
  intro h
  obtain ⟨q', c, rfl⟩ := List.eq_nil_or_concat q |>.resolve_left hq
  obtain ⟨t, ht⟩ := h
  rw [show dsoext = ascii ".s" ++ [0x6f] by decide, ← List.append_assoc, List.concat_eq_append,
    ← List.append_assoc] at ht
  have hc := (List.append_inj' ht rfl).2
  rw [List.singleton_inj] at hc
  exact ho (by simp [hc])

/-- An index file is no module, unless its name did not fit behind its directory. -/
theorem indexPath_cases (hp : p.length < mgPathMax) (hne : name ≠ []) (ho : 0x6f ∉ name) :
    indexPath p name = p ∨ endswith (indexPath p name) dsoext = false := by
  unfold indexPath
  rw [List.take_append, List.take_of_length_le (by omega)]
  by_cases h0 : mgPathMax - 1 - p.length = 0
  · left
    rw [h0, List.take_zero, List.append_nil]
  · right
    refine not_endswith_append (fun h => ?_) fun h => ho (List.mem_of_mem_take h)
    have := congrArg List.length h
    rw [List.length_take, List.length_nil] at this
    have := List.length_pos_iff.mpr hne
    omega

theorem resolveIndex_regular (hr : fs.realpath p = .ok f) (hs : fs.stat f = some st)
    (hd : st.isDir = false) : resolveIndex fs p = ([], f, some st) := by
  simp [resolveIndex, hr, hs, hd]

/-- A regular module that is found is what `realpath` gives. -/
theorem resolveIndex_module (h : (resolveIndex fs p).2 = (f, some st)) (hd : st.isDir = false)
    (he : endswith f dsoext = true) : fs.realpath p = .ok f ∧ fs.stat f = some st := by
  unfold resolveIndex at h
  cases hr : fs.realpath p with
  | error q =>
    rw [hr] at h
    cases h
  | ok q =>
    have hq := fs.realpath_room hr
    have index : ∀ name, name ≠ [] → 0x6f ∉ name → ∀ tmp, fs.stat q = some tmp →
        tmp.isDir = true → fs.stat (indexPath q name) = some st → indexPath q name ≠ f := by
      rintro name hne ho tmp hst hdir hidx rfl
      rcases indexPath_cases hq hne ho with heq | hno
      · rw [heq, hst] at hidx
        cases hidx
        rw [hd] at hdir
        cases hdir
      · rw [hno] at he
        cases he
    rw [hr] at h
    cases hst : fs.stat q with
    | none =>
      simp only [hst] at h
      cases h
    | some tmp =>
      simp only [hst] at h
      cases hdir : tmp.isDir with
      | false =>
        simp only [hdir, Bool.false_eq_true, if_false, Prod.mk.injEq, Option.some.injEq] at h
        obtain ⟨rfl, rfl⟩ := h
        exact ⟨rfl, hst⟩
      | true =>
        simp only [hdir, if_true] at h
        cases h₁ : fs.stat (indexPath q (ascii "/index.html")) with
        | some t₁ =>
          simp only [h₁, Prod.mk.injEq, Option.some.injEq] at h
          obtain ⟨hf, rfl⟩ := h
          exact absurd hf (index _ (by decide) (by decide) tmp hst hdir h₁)
        | none =>
          cases h₂ : fs.stat (indexPath q (ascii "/index.shtml")) with
          | some t₂ =>
            simp only [h₁, h₂, Prod.mk.injEq, Option.some.injEq] at h
            obtain ⟨hf, rfl⟩ := h
            exact absurd hf (index _ (by decide) (by decide) tmp hst hdir h₂)
          | none =>
            simp only [h₁, h₂, Prod.mk.injEq, Option.some.injEq] at h
            obtain ⟨-, rfl⟩ := h
            rw [hd] at hdir
            cases hdir

/-- **Resolving to a module.** -/
theorem uriToPath_module_iff (he : endswith f dsoext = true) (hd : st.isDir = false) :
    (uriToPath fs uri sWebRootDir).2 = (f, some st) ↔
      Resolves fs uri f ∧ fs.stat f = some st := by
  unfold uriToPath Resolves
  cases hr : fs.realpath sWebRootDir with
  | error q =>
    refine iff_of_false (fun h => ?_) ?_
    · cases h
    · rintro ⟨⟨root, h, -⟩, -⟩
      cases h
  | ok root =>
    have hroom : root.length + (mgPathMax - 1 - root.length) + 1 = mgPathMax := by
      have := fs.realpath_room hr
      omega
    have hsrc := unresolved_eq fs uri hroom (fs.realpath_str hr)
    have hpre := stripSlashes_prefix
      (root ++ decodedUri (mgPathMax - 1 - root.length) fs.stale uri)
    simp only [Except.ok.injEq, exists_eq_left', hsrc]
    by_cases hdir : (fs.stat root).map (·.isDir) = some true
    swap
    · rw [if_neg hdir]
      refine iff_of_false (fun h => ?_) fun h => hdir h.1.1
      cases h
    rw [if_pos hdir]
    constructor
    · intro h
      split_ifs at h with hout
      · cases h
      obtain ⟨hf, hst⟩ := resolveIndex_module h hd he
      have hp : (resolveIndex fs _).2.1 = f := congrArg Prod.fst h
      rw [hp, Bool.not_eq_true, outsideRoot_eq_false_iff hpre (fs.realpath_str hf)] at hout
      exact ⟨⟨hdir, hout.1, hf, hout.2⟩, hst⟩
    · rintro ⟨⟨-, hin, hf, hin'⟩, hst⟩
      have hres := resolveIndex_regular hf hst hd
      have hout := (outsideRoot_eq_false_iff hpre (fs.realpath_str hf)).mpr ⟨hin, hin'⟩
      rw [hres]
      simp [hout]

theorem sent_serveFile_iff {path : Bytes} : sent (mgHttpServeFile fs hm path) = some f ↔
    f = path ∧ ∃ st, fs.stat path = some st ∧ fs.openRead path = true ∧
      (mgHttpGetHeader hm.headers (ascii "If-None-Match")).any
        (fun inm => mgVcasecmp inm (mgHttpEtag st.size st.mtime) = 0) = false ∧
      mgVcasecmp hm.method (ascii "HEAD") ≠ 0 := by
  unfold mgHttpServeFile
  cases fs.openRead path with
  | false => simp [sent]
  | true =>
    cases fs.stat path with
    | none => simp [sent]
    | some st =>
      simp only [Option.some.injEq, exists_eq_left', true_and]
      split_ifs with h₁ h₂
      · exact iff_of_false (fun h => nomatch h) fun h => by
          rw [h.2.1] at h₁
          exact Bool.noConfusion h₁
      · exact iff_of_false (fun h => nomatch h) fun h => h.2.2 h₂
      · rw [Bool.not_eq_true] at h₁
        constructor
        · intro h
          exact ⟨(Option.some.inj h).symm, h₁, h₂⟩
        · rintro ⟨rfl, -, -⟩
          rfl

/-- **Sending a module.** -/
theorem serveDir_module_iff (he : endswith f dsoext = true) :
    (mgHttpServeDir fs hm sWebRootDir shtmlPattern).bind sent = some f ↔
      Resolves fs hm.uri f ∧ Sendable fs hm f := by
  unfold mgHttpServeDir
  constructor
  · intro h
    generalize hu : uriToPath fs hm.uri sWebRootDir = o at h
    obtain ⟨rs, path, _ | st⟩ := o
    · cases h
    cases hd : st.isDir with
    | true => simp [hd, sent] at h
    | false =>
      simp only [hd, Bool.false_eq_true, if_false, Option.bind_eq_some_iff,
        Option.map_eq_some_iff] at h
      obtain ⟨_, ⟨ssi, hg, rfl⟩, hsent⟩ := h
      cases ssi with
      | true =>
        -- a template is no module
        obtain rfl := Option.some.inj hsent
        have hs := List.suffix_of_suffix_length_le (endswith_iff.mp he) (mgGlobmatch_shtml hg)
          (by decide)
        exact absurd (endswith_iff.mpr hs) (by decide)
      | false =>
        obtain ⟨rfl, st', hst', hopen, hinm, hhead⟩ := sent_serveFile_iff.mp hsent
        obtain ⟨hres, hst⟩ := (uriToPath_module_iff he hd).mp (congrArg Prod.snd hu)
        obtain rfl := Option.some.inj (hst.symm.trans hst')
        exact ⟨hres, st, hst, hd, hopen, hg, hinm, hhead⟩
  · rintro ⟨hres, st, hst, hd, hopen, hg, hinm, hhead⟩
    have hu := (uriToPath_module_iff he hd).mpr ⟨hres, hst⟩
    generalize uriToPath fs hm.uri sWebRootDir = o at hu
    obtain ⟨rs, path, flags⟩ := o
    cases hu
    simp only [hd, hg, Bool.false_eq_true, if_false, Option.map_some, Option.bind_some]
    exact sent_serveFile_iff.mpr ⟨rfl, st, hst, hopen, hinm, hhead⟩

end Serve

/-- **No module as data.** For a parsed request, whatever is sent as a file is no module exactly
when the request does not expose one. -/
theorem static_never_module_iff {s : Bytes} {hm : HttpMessage} (h : mgHttpParse s = some hm)
    (fs : FileSystem) :
    (∀ al f, Answers fs al hm f → endswith f dsoext = false) ↔ ¬ ExposesModule fs hm := by
  have hcb : ∀ al, cb fs.access al hm = .serveDir ↔ al.path = true ∧ al.dsopath = true ∧
      ¬ (fs.access (probePath hm.uri) = true ∧ endswith (probePath hm.uri) dsoext = true) := by
    intro al
    rw [cb_eq (zero_not_mem_uri h), hdlDso_eq]
    cases al.path <;> cases al.dsopath <;> simp
  constructor
  · rintro hall ⟨hprobe, f, he, hres, hsend⟩
    have := hall ⟨true, true⟩ f
      ⟨(hcb _).mpr ⟨rfl, rfl, hprobe⟩, (serveDir_module_iff he).mpr ⟨hres, hsend⟩⟩
    rw [he] at this
    cases this
  · rintro hno al f ⟨hdisp, hserve⟩
    by_contra he
    rw [Bool.not_eq_false] at he
    obtain ⟨hres, hsend⟩ := (serveDir_module_iff he).mp hserve
    exact hno ⟨((hcb al).mp hdisp).2.2, f, he, hres, hsend⟩

/-- A web root with the one module `tpl.so`. -/
def tplTree : FileSystem where
  access p := p = ascii "./www/tpl.so"
  realpath p :=
    if p = sWebRootDir then .ok (ascii "/srv/www")
    else if p = ascii "/srv/www/tpl.so" then .ok (ascii "/srv/www/tpl.so")
    else .error []
  stat p :=
    if p = ascii "/srv/www" then some ⟨true, 0, 0⟩
    else if p = ascii "/srv/www/tpl.so" then some ⟨false, 16, 0⟩
    else none
  openRead _ := true
  stale := []
  realpath_room := by
    intro p r h
    split_ifs at h
    · cases h; decide
    · cases h; decide
  realpath_str := by
    intro p r h
    split_ifs at h
    · cases h; decide
    · cases h; decide

/-- The module of `/tpl` is run, not sent. -/
theorem static_never_module_tpl :
    mgHttpParse (ascii "GET /tpl HTTP/1.1\r\n\r\n") = some (plainGet (ascii "/tpl")) ∧
      ∀ al f, Answers tplTree al (plainGet (ascii "/tpl")) f → endswith f dsoext = false := by
  have h : mgHttpParse (ascii "GET /tpl HTTP/1.1\r\n\r\n") = some (plainGet (ascii "/tpl")) := by
    decide
  exact ⟨h, (static_never_module_iff h tplTree).mpr fun he => he.1 ⟨by decide, by decide⟩⟩

/-- A request for `/tpl%2Eso` is answered with the module itself. -/
theorem static_module_escaped :
    ¬ ∀ (s : Bytes) (hm : HttpMessage) (fs : FileSystem), mgHttpParse s = some hm →
      ∀ al f, Answers fs al hm f → endswith f dsoext = false := by
  intro hall
  have h := hall (ascii "GET /tpl%2Eso HTTP/1.1\r\n\r\n") (plainGet (ascii "/tpl%2Eso")) tplTree
    (by decide) ⟨true, true⟩ (ascii "/srv/www/tpl.so") ⟨by decide, by decide +kernel⟩
  exact absurd h (by decide)

end Csrv.App
