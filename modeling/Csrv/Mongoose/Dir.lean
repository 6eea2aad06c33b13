import Csrv.Mongoose.Files
import Csrv.Mongoose.Listing
import Csrv.Mongoose.Ssi

/-!
# Static content

`mg_http_serve_dir` with all that it writes: an error, a listing, what a template means, or a file.
The site may be a different one for each request.

1. `Tree.answer` is the message that answers a request, if its response is one message:
   `uri_to_path` may reply twice, and a file may be longer than what is announced of it.
2. `Tree.isMessage_serveDir`: a client takes the response for that message, whatever follows it.
3. `statics_in_order`: under every schedule it finds the answers to its requests in their order.
-/

namespace Csrv.Mongoose

open Incremental (Drains)

/-- Bytes that are taken for one message, whatever follows them. -/
def IsMessage (out : Bytes) (m : HttpMsg) : Prop := ∀ r, request (out ++ r) = .item m out.length

/-- What is written for a response, if nothing goes wrong. -/
def Response.output (r : Response) : Bytes := r.sends.flatten ++ r.file.getD []

/-- What there is below a web root. `fopen` is how `mg_ssi` reads a file, and `stale` what stands
behind its buffers. -/
structure Tree where
  fs : FileSystem
  extra : ExtraHeaders
  data : Bytes → Bytes
  fopen : Bytes → Option Bytes
  stale : Stale
  list : Bytes → List Bytes
  mod : UInt64 → Bytes
  size_eq : ∀ {path st}, fs.stat path = some st → (data path).length = st.size

namespace Tree

def found (t : Tree) (path : Bytes) : Found :=
  ⟨t.fs, t.extra, path, t.data path, fun _ h => t.size_eq h⟩

def directory (t : Tree) (path : Bytes) : Directory := ⟨t.fs, t.extra, path, t.list path, t.mod⟩

/-- The root, as `uri_to_path` leaves it for `mg_ssi`. -/
def root (t : Tree) (rootDir : Bytes) : Bytes :=
  match t.fs.realpath rootDir with
  | .error _ => []
  | .ok root => root

/-- The replies that come of a list, one after the other. -/
def replied (rs : List Reply) : List Bytes := rs.flatMap fun r => mgHttpReply r.code [] r.body

/-- What is written for each kind of content. -/
def response (t : Tree) (rootDir : Bytes) (hm : HttpMessage) : Served → Option Response
  | .replies rs => some ⟨replied rs, none, false⟩
  | .listing path => some ⟨[listdir (t.directory path) hm.uri], none, false⟩
  | .ssi path =>
    (mgHttpServeSsi t.fopen t.stale (t.root rootDir) path).map fun sends => ⟨sends, none, false⟩
  | .notModified path => some ((t.found path).response hm)
  | .headers path _ => some ((t.found path).response hm)
  | .contents path _ _ => some ((t.found path).response hm)

/-- `mg_http_serve_dir`, if it returns. -/
def serveDir (t : Tree) (rootDir ssiPattern : Bytes) (hm : HttpMessage) : Option Response :=
  (mgHttpServeDir t.fs hm rootDir ssiPattern).bind (t.response rootDir hm)

/-- The message for a file, if all that is left of the file has been announced. -/
def fileMessage (t : Tree) (hm : HttpMessage) (path : Bytes) : Option HttpMsg :=
  if mgVcasecmp hm.method (ascii "HEAD") ≠ 0 ∧ (t.found path).left hm = [] then
    some ((t.found path).message hm).msg
  else none

def message (t : Tree) (rootDir : Bytes) (hm : HttpMessage) : Served → Option HttpMsg
  | .replies rs =>
    match rs with
    | [r] => some (HttpReply.message ⟨r.code, [], r.body⟩).msg
    | _ => none
  | .listing path =>
    let body := listBody (t.directory path) hm.uri
    if body.length < 10 ^ 6 then some ⟨listMessage t.extra body.length, some body⟩ else none
  | .ssi path =>
    (mgSsi t.fopen t.stale (t.root rootDir) mgMaxSsiDepth path).map fun data =>
      (HttpReply.message ⟨200, [⟨ascii "Content-Type", ascii "text/html; charset=utf-8"⟩],
        cstr (data.getD [])⟩).msg
  | .notModified path => t.fileMessage hm path
  | .headers path _ => t.fileMessage hm path
  | .contents path _ _ => t.fileMessage hm path

/-- The message that answers a request. -/
def answer (t : Tree) (rootDir ssiPattern : Bytes) (hm : HttpMessage) : Option HttpMsg :=
  (mgHttpServeDir t.fs hm rootDir ssiPattern).bind fun served =>
    (t.response rootDir hm served).bind fun r =>
      if r.output.length < 2 ^ 31 then t.message rootDir hm served else none

end Tree

/-! ## One response -/

section Single

variable {m : HttpMsg} {hm : HttpMessage} {r : HttpReply}

theorem isMessage_sends (hr : ∀ h ∈ r.headers, Unframed h)
    (hslots : r.headers.length < mgMaxHttpHeaders) (hlt : r.sends.flatten.length < 2 ^ 31) :
    IsMessage r.sends.flatten r.message.msg := by
  rw [flatten_sends] at hlt ⊢
  exact request_render (framed_message ⟨hr, hslots, hlt⟩)

namespace Tree

variable {t : Tree} {rootDir ssiPattern path : Bytes}

theorem isMessage_file (h : t.fileMessage hm path = some m)
    (hlt : ((t.found path).response hm).output.length < 2 ^ 31) :
    IsMessage ((t.found path).response hm).output m := by
  unfold fileMessage at h
  split_ifs at h with hcond
  obtain ⟨hget, hleft⟩ := hcond
  obtain rfl := Option.some.inj h
  have hout : ((t.found path).response hm).output = ((t.found path).message hm).render := by
    have := (t.found path).output hget
    rwa [hleft, List.append_nil] at this
  rw [hout] at hlt ⊢
  exact request_render ((t.found path).framed_message hlt)

/-- **A response is taken for its message.** -/
theorem isMessage_response {served : Served} {r : Response}
    (hr : t.response rootDir hm served = some r) (hm' : t.message rootDir hm served = some m)
    (hlt : r.output.length < 2 ^ 31) : IsMessage r.output m := by
  cases served with
  | replies rs =>
    obtain rfl := Option.some.inj hr
    rcases rs with _ | ⟨a, _ | ⟨b, rs⟩⟩
    · cases hm'
    · obtain rfl := Option.some.inj hm'
      have hout : (⟨replied [a], none, false⟩ : Response).output =
          (HttpReply.sends ⟨a.code, [], a.body⟩).flatten := by
        simp [Response.output, replied, HttpReply.sends]
      rw [hout] at hlt ⊢
      exact isMessage_sends (by simp) (show 0 < mgMaxHttpHeaders by decide) hlt
    · cases hm'
  | listing path =>
    obtain rfl := Option.some.inj hr
    have hout : (⟨[listdir (t.directory path) hm.uri], none, false⟩ : Response).output =
        listdir (t.directory path) hm.uri := by
      simp [Response.output]
    rw [hout] at hlt ⊢
    simp only [message] at hm'
    split_ifs at hm' with hlen
    obtain rfl := Option.some.inj hm'
    exact request_listdir hlen hlt
  | ssi path =>
    obtain ⟨sends, hsends, rfl⟩ := Option.map_eq_some_iff.mp hr
    obtain ⟨data, hdata, rfl⟩ := Option.map_eq_some_iff.mp hm'
    obtain ⟨data', hdata', rfl⟩ := Option.map_eq_some_iff.mp hsends
    obtain rfl := Option.some.inj (hdata.symm.trans hdata')
    have hout : (⟨mgHttpReply 200 (ascii "Content-Type: text/html; charset=utf-8\r\n")
        (cstr (data.getD [])), none, false⟩ : Response).output =
        (HttpReply.sends ⟨200, [⟨ascii "Content-Type", ascii "text/html; charset=utf-8"⟩],
          cstr (data.getD [])⟩).flatten := by
      rw [Response.output, Option.getD_none, List.append_nil]
      rfl
    rw [hout] at hlt ⊢
    refine isMessage_sends (fun h hh => ?_) (show 1 < mgMaxHttpHeaders by decide) hlt
    rw [List.mem_singleton.mp hh]
    exact unframed_listHeaders extraHeaders _ List.mem_cons_self
  | notModified path =>
    obtain rfl := Option.some.inj hr
    exact isMessage_file hm' hlt
  | headers path status =>
    obtain rfl := Option.some.inj hr
    exact isMessage_file hm' hlt
  | contents path status offset =>
    obtain rfl := Option.some.inj hr
    exact isMessage_file hm' hlt

/-- What `mg_http_serve_dir` writes is taken for the answer. -/
theorem isMessage_serveDir (h : t.answer rootDir ssiPattern hm = some m) :
    ∃ r, t.serveDir rootDir ssiPattern hm = some r ∧ IsMessage r.output m := by
  obtain ⟨served, hserved, h⟩ := Option.bind_eq_some_iff.mp h
  obtain ⟨r, hr, h⟩ := Option.bind_eq_some_iff.mp h
  split_ifs at h with hlt
  refine ⟨r, ?_, isMessage_response hr h hlt⟩
  rw [serveDir, hserved]
  exact hr

end Tree

end Single

/-! ## Under every schedule -/

section Statics

variable (site : ℕ → Tree) (rootDir ssiPattern : Bytes)

/-- A handler that serves a site. -/
def statics (n : ℕ) (ev : HttpMsg) : ℕ × Response :=
  (n + 1, ((site n).serveDir rootDir ssiPattern ev.hm).getD ⟨[], none, false⟩)

/-- The answers to requests, of which the first has the number `n`, if each has one. -/
def staticAnswers : ℕ → List HttpMsg → Option (List HttpMsg)
  | _, [] => some []
  | n, ev :: evs =>
    ((site n).answer rootDir ssiPattern ev.hm).bind fun m =>
      (staticAnswers (n + 1) evs).map (m :: ·)

variable {site rootDir ssiPattern}

theorem drains_statics {n : ℕ} {evs ms : List HttpMsg}
    (h : staticAnswers site rootDir ssiPattern n evs = some ms) :
    Drains request (answers (statics site rootDir ssiPattern) n evs).2.flatten ms [] none := by
  induction evs generalizing n ms with
  | nil =>
    cases h
    exact .more rfl
  | cons ev evs ih =>
    obtain ⟨m, hm, h⟩ := Option.bind_eq_some_iff.mp h
    obtain ⟨ms, hms, rfl⟩ := Option.map_eq_some_iff.mp h
    obtain ⟨r, hr, hmsg⟩ := Tree.isMessage_serveDir hm
    have hresponse : (statics site rootDir ssiPattern n ev).2 = r := by
      rw [statics, hr]
      rfl
    have hflat : (answers (statics site rootDir ssiPattern) n (ev :: evs)).2.flatten =
        r.output ++ (answers (statics site rootDir ssiPattern) (n + 1) evs).2.flatten := by
      rw [answers, hresponse, List.flatten_append, List.flatten_append, flatten_toList]
      rfl
    rw [hflat]
    refine .item (hmsg _) ?_
    rw [List.drop_left]
    exact ih hms

/-- **Static content in order.** The stream ends somewhere and not in front of a chunked head, every
allocation succeeds, and a file that is requested answers the last message that `http_cb` takes in
its iteration, as for a client that does not pipeline behind a file. Then whatever the schedule and
however the site changes, the client finds the answers to its requests, if each has one, in what has
been written, complete and in order, and then a beginning of the next. -/
theorem statics_in_order (site : ℕ → Tree) (rootDir ssiPattern : Bytes) {net : Bytes}
    (hnet : Plain net) {ps : List Poll} (hps : ∀ p ∈ ps, Allocates p.calloc)
    (hlast : FilesLast (statics site rootDir ssiPattern) 0
      (batchesOf (statics site rootDir ssiPattern) (accepted 0 net) ps)) {ms : List HttpMsg}
    (hms : staticAnswers site rootDir ssiPattern 0
      (batchesOf (statics site rootDir ssiPattern) (accepted 0 net) ps).flatten = some ms) :
    ∃ (w : World ℕ) (taken waiting : Bytes) (js : List HttpMsg) (rest : Bytes),
      Run.exec (mgMgrPoll (statics site rootDir ssiPattern)) (accepted 0 net) ps = some w ∧
      net = taken ++ (waiting ++ w.net) ∧
      (∃ rest e, Drains request taken
        (batchesOf (statics site rootDir ssiPattern) (accepted 0 net) ps).flatten rest e) ∧
      Drains request w.wire js rest none ∧ js <+: ms := by
  obtain ⟨w, taken, waiting, hw, hstream, hdrains, t, ht⟩ :=
    @exec_answers ℕ (statics site rootDir ssiPattern) net hnet 0 ps hps hlast
  have hall := drains_statics hms
  rw [← ht] at hall
  obtain ⟨js, rest, hjs, hpre⟩ := stable_request.drains_prefix hall
  exact ⟨w, taken, waiting, js, rest, hw, hstream, hdrains, hjs, hpre⟩

/-- A site with one file. -/
def helloTree : Tree where
  fs :=
    { access := fun _ => true
      realpath := fun p => .ok (if p = ascii "/w/a.txt" then p else ascii "/w")
      stat := fun p => some (if p = ascii "/w" then ⟨true, 0, 0⟩ else ⟨false, 11, 0⟩)
      openRead := fun _ => true
      stale := []
      realpath_room := by
        rintro p _ ⟨⟩
        by_cases h : p = ascii "/w/a.txt"
        · rw [if_pos h, h]
          decide
        · rw [if_neg h]
          decide
      realpath_str := by
        rintro p _ ⟨⟩
        by_cases h : p = ascii "/w/a.txt"
        · rw [if_pos h, h]
          decide
        · rw [if_neg h]
          decide }
  extra := extraHeaders
  data p := if p = ascii "/w" then [] else ascii "hello world"
  fopen _ := none
  stale _ _ _ := []
  list _ := []
  mod _ := []
  size_eq := by
    rintro p _ ⟨⟩
    by_cases h : p = ascii "/w"
    · rw [if_pos h, if_pos h]
      decide
    · rw [if_neg h, if_neg h]
      decide

/-- A handler for this site, and a request for its file. -/
def helloStatics : ℕ → HttpMsg → ℕ × Response :=
  statics (fun _ => helloTree) (ascii "w") shtmlPattern

theorem statics_in_order_hello :
    ∃ ms, staticAnswers (fun _ => helloTree) (ascii "w") shtmlPattern 0
        (batchesOf helloStatics (accepted 0 (ascii "GET /a.txt HTTP/1.1\r\n\r\n"))
          [⟨some (.bytes 30), none, fun _ => true⟩,
            ⟨none, some (.bytes 999), fun _ => true⟩]).flatten = some ms ∧ ms.length = 1 ∧
      ∃ (w : World ℕ) (taken waiting : Bytes) (js : List HttpMsg) (rest : Bytes),
      Run.exec (mgMgrPoll helloStatics) (accepted 0 (ascii "GET /a.txt HTTP/1.1\r\n\r\n"))
        [⟨some (.bytes 30), none, fun _ => true⟩, ⟨none, some (.bytes 999), fun _ => true⟩] =
          some w ∧
      ascii "GET /a.txt HTTP/1.1\r\n\r\n" = taken ++ (waiting ++ w.net) ∧
      (∃ rest e, Drains request taken
        (batchesOf helloStatics (accepted 0 (ascii "GET /a.txt HTTP/1.1\r\n\r\n"))
          [⟨some (.bytes 30), none, fun _ => true⟩,
            ⟨none, some (.bytes 999), fun _ => true⟩]).flatten rest e) ∧
      Drains request w.wire js rest none ∧ js <+: ms := by
  obtain ⟨ms, hms, hlen⟩ : ∃ ms, staticAnswers (fun _ => helloTree) (ascii "w") shtmlPattern 0
      (batchesOf helloStatics (accepted 0 (ascii "GET /a.txt HTTP/1.1\r\n\r\n"))
        [⟨some (.bytes 30), none, fun _ => true⟩,
          ⟨none, some (.bytes 999), fun _ => true⟩]).flatten = some ms ∧ ms.length = 1 := by
    obtain ⟨ms, hms, hlen⟩ := Option.map_eq_some_iff.mp (show
      (staticAnswers (fun _ => helloTree) (ascii "w") shtmlPattern 0
        (batchesOf helloStatics (accepted 0 (ascii "GET /a.txt HTTP/1.1\r\n\r\n"))
          [⟨some (.bytes 30), none, fun _ => true⟩,
            ⟨none, some (.bytes 999), fun _ => true⟩]).flatten).map List.length = some 1 by
      decide +kernel)
    exact ⟨ms, hms, hlen⟩
  exact ⟨ms, hms, hlen, statics_in_order _ _ _ (plain_of_drain 2 (by decide +kernel))
    (by simp [Allocates]) (filesLast_of_length_le (by decide +kernel)) hms⟩

end Statics

end Csrv.Mongoose
