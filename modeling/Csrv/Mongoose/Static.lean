import Csrv.Mongoose.Http
import Mathlib.Data.Nat.Digits.Defs

/-!
# Serving files

`mg_http_serve_dir` with `uri_to_path`, `mg_http_serve_file` and `mg_globmatch`, over a file system
that is what `realpath`, `stat` and `fopen` answer. `uri_to_path` decodes the URI into the buffer
that holds the resolved root, so the buffer is modelled with the bytes `realpath` leaves behind
its result. Rendering (mime types, listings, expansion of includes) is left out.

`mgUrlDecode_eq` says what the decoder leaves in a buffer, and `mgGlobmatch_shtml` what a path
that is served as a template looks like.
-/

namespace Csrv.Mongoose

/-- `MG_PATH_MAX`. -/
def mgPathMax : ℕ := 4096

structure Stat where
  isDir : Bool
  size : ℕ
  mtime : UInt64
  deriving DecidableEq

/-- The answers of the file system. A failed `realpath` leaves something in the buffer of its
result, and a successful one leaves the bytes `stale` behind it. -/
structure FileSystem where
  access : Bytes → Bool
  realpath : Bytes → Except Bytes Bytes
  stat : Bytes → Option Stat
  openRead : Bytes → Bool
  stale : Bytes
  realpath_room : ∀ {p r}, realpath p = .ok r → r.length < mgPathMax
  realpath_str : ∀ {p r}, realpath p = .ok r → 0 ∉ r

/-! ## `mg_globmatch` -/

/-- The loop of `mg_globmatch`; without fuel it has not ended. -/
def globLoop (s1 s2 : Bytes) : ℕ → ℕ → ℕ → ℕ → ℕ → Option Bool
  | 0, _, _, _, _ => none
  | fuel + 1, i, j, ni, nj =>
    if i < s1.length ∨ j < s2.length then
      if i < s1.length ∧ j < s2.length ∧ (s1[i]? = some 0x3f ∨ s2[j]? = s1[i]?) then
        globLoop s1 s2 fuel (i + 1) (j + 1) ni nj
      else if i < s1.length ∧ (s1[i]? = some 0x2a ∨ s1[i]? = some 0x23) then
        globLoop s1 s2 fuel (i + 1) j i (j + 1)
      else if nj > 0 ∧ nj ≤ s2.length ∧ (s1[i - 1]? = some 0x23 ∨ s2[j]? ≠ some 0x2f) then
        globLoop s1 s2 fuel ni nj ni nj
      else some false
    else some true

/-- `mg_globmatch`. The loop runs through states of four indices, so it never ends if it has not
ended after as many rounds as there are states. -/
def mgGlobmatch (s1 s2 : Bytes) : Option Bool :=
  globLoop s1 s2 ((s1.length + 1) ^ 2 * (s2.length + 2) ^ 2) 0 0 0 0

/-! ## `uri_to_path` -/

/-- `while (n2 > 0 && root_dir[n2 - 1] == '/') root_dir[--n2] = 0;` -/
def stripSlashes (s : Bytes) : Bytes := (s.reverse.dropWhile (· = 0x2f)).reverse

structure Reply where
  code : ℕ
  body : Bytes
  deriving DecidableEq

/-- The buffer of `root_dir` after `realpath`. -/
def rootBuffer (fs : FileSystem) (root : Bytes) : Bytes :=
  (root ++ 0 :: fs.stale ++ List.replicate mgPathMax 0).take mgPathMax

/-- `root_dir` with the decoded URI behind the root. -/
def unresolved (fs : FileSystem) (root uri : Bytes) : Bytes :=
  let buf := rootBuffer fs root
  let (_, dst) := mgUrlDecode uri (buf.drop root.length) false
  stripSlashes (cstr ((buf.take root.length ++ dst).set (mgPathMax - 1) 0))

/-- `snprintf(path + n2, plen - n2, …)`. -/
def indexPath (path name : Bytes) : Bytes := (path ++ name).take (mgPathMax - 1)

/-- The part of `uri_to_path` that resolves `root_dir` and looks for an index file. -/
def resolveIndex (fs : FileSystem) (rootDir : Bytes) : List Reply × Bytes × Option Stat :=
  match fs.realpath rootDir with
  | .error path => ([⟨404, ascii "Not found\n"⟩], path, none)
  | .ok path =>
    match fs.stat path with
    | none => ([⟨404, ascii "Not found\n"⟩], path, none)
    | some flags =>
      let html := indexPath path (ascii "/index.html")
      let shtml := indexPath path (ascii "/index.shtml")
      if flags.isDir then
        match fs.stat html, fs.stat shtml with
        | some tmp, _ => ([], html, some tmp)
        | none, some tmp => ([], shtml, some tmp)
        | none, none => ([], path, some flags)
      else ([], path, some flags)

/-- `strlen(path) < n1 || memcmp(root_dir, path, n1) != 0`. The bytes of the root are still in its
buffer, unless the slashes stripped were its own. -/
def outsideRoot (root src path : Bytes) : Bool :=
  path.length < root.length ||
    (src ++ List.replicate root.length 0).take root.length != path.take root.length

/-- `uri_to_path`: the replies it sends, the path, and its flags if they are not zero. -/
def uriToPath (fs : FileSystem) (uri rootDir : Bytes) : List Reply × Bytes × Option Stat :=
  match fs.realpath rootDir with
  | .error _ => ([⟨400, ascii "Bad web root [" ++ rootDir ++ ascii "]\n"⟩], [], none)
  | .ok root =>
    if (fs.stat root).map (·.isDir) = some true then
      let src := unresolved fs root uri
      let (rs, path, flags) := resolveIndex fs src
      if outsideRoot root src path then
        (rs ++ [⟨404, ascii "Invalid URI [" ++ uri ++ ascii "]\n"⟩], path, none)
      else (rs, path, flags)
    else ([⟨400, ascii "Invalid web root [" ++ root ++ ascii "]\n"⟩], [], none)

/-! ## `mg_http_serve_file` -/

/-- `snprintf` with `%lx` and `%lld`. -/
def mgHttpEtag (size : ℕ) (mtime : UInt64) : Bytes :=
  let digits := fun base n => (Nat.toDigits base n).map fun c => UInt8.ofNat c.toNat
  ascii "\"" ++ digits 16 mtime.toNat ++ ascii "." ++ digits 10 size ++ ascii "\""

/-- The part of `getrange` after `bytes=`. -/
def rangeBounds (p : Bytes) : ℕ × ℤ × ℤ :=
  let digit := fun p : Bytes => if p.head?.any isdigit then 1 else 0
  let p' := p.dropWhile isdigit
  let p' := if p'.head? = some 0x2d then p'.tail else p'
  (digit p + digit p', mgTo64 p, mgTo64 p')

def getrange : Bytes → ℕ × ℤ × ℤ
  | [] => (0, 0, 0)
  | c :: s =>
    if 6 < (c :: s).length then
      if (c :: s).take 6 = ascii "bytes=" then rangeBounds ((c :: s).drop 6) else getrange s
    else (0, 0, 0)

/-- What is sent of a file: nothing, only the headers, or the bytes from an offset on. -/
inductive Served
  | replies (rs : List Reply)
  | listing (path : Bytes)
  | ssi (path : Bytes)
  | notModified (path : Bytes)
  | headers (path : Bytes) (status : ℕ)
  | contents (path : Bytes) (status : ℕ) (offset : ℤ)
  deriving DecidableEq

/-- The status and the offset that the `Range` header selects. -/
def rangeStatus (range : Option Bytes) (size : ℕ) : ℕ × ℤ :=
  match range with
  | none => (200, 0)
  | some rh =>
    let (n, r1, r2) := getrange rh
    if n > 0 ∧ r1 ≥ 0 ∧ r2 ≥ 0 then
      let r2 := if n = 1 then (size : ℤ) - 1 else r2
      if r1 > r2 ∨ r2 ≥ size then (416, 0) else (206, r1)
    else (200, 0)

def mgHttpServeFile (fs : FileSystem) (hm : HttpMessage) (path : Bytes) : Served :=
  match fs.openRead path, fs.stat path with
  | true, some st =>
    if (mgHttpGetHeader hm.headers (ascii "If-None-Match")).any
        fun inm => mgVcasecmp inm (mgHttpEtag st.size st.mtime) = 0 then .notModified path
    else
      let (status, offset) := rangeStatus (mgHttpGetHeader hm.headers (ascii "Range")) st.size
      if mgVcasecmp hm.method (ascii "HEAD") = 0 then .headers path status
      else .contents path status offset
  | _, _ => .replies [⟨404, ascii "Not found\n"⟩]

/-- `mg_http_serve_dir`; `none` is a pattern match that never ends. -/
def mgHttpServeDir (fs : FileSystem) (hm : HttpMessage) (rootDir ssiPattern : Bytes) :
    Option Served :=
  let (rs, path, flags) := uriToPath fs hm.uri rootDir
  match flags with
  | none => some (.replies rs)
  | some st =>
    if st.isDir then some (.listing path)
    else
      (mgGlobmatch ssiPattern path).map fun ssi =>
        if ssi then .ssi path else mgHttpServeFile fs hm path

/-! ## Templates -/

/-- The pattern for server-side includes. -/
def shtmlPattern : Bytes := ascii "#.shtml"

theorem shtmlPattern_getElem {i : ℕ} : shtmlPattern[i]? ≠ some 0x3f ∧
    shtmlPattern[i + 1]? = (ascii ".shtml")[i]? := by
  refine ⟨fun h => ?_, rfl⟩
  exact absurd (List.mem_of_getElem? h) (by decide)

/-- What has been matched of `.shtml` is the end of what has been read of the path. -/
theorem globLoop_shtml {path : Bytes} : ∀ {fuel i j nj : ℕ}, i ≤ 7 → j ≤ path.length →
    (ascii ".shtml").take (i - 1) <:+ path.take j →
    globLoop shtmlPattern path fuel i j 0 nj = some true → ascii ".shtml" <:+ path := by
  intro fuel
  induction fuel with
  | zero => intro i j nj _ _ _ h; cases h
  | succ fuel ih =>
    intro i j nj hi hj hm h
    have hlen : shtmlPattern.length = 7 := by decide
    rw [globLoop, hlen] at h
    split_ifs at h with hend hlit hstar hback
    · refine ih (by omega) (by omega) ?_ h
      cases i with
      | zero => exact List.nil_suffix
      | succ i =>
        -- one more byte of `.shtml`
        obtain ⟨t, ht⟩ := hm
        have hbyte : path[j]? = (ascii ".shtml")[i]? :=
          (hlit.2.2.resolve_left shtmlPattern_getElem.1).trans shtmlPattern_getElem.2
        refine ⟨t, ?_⟩
        rw [List.take_add_one, hbyte, ← ht, List.append_assoc, Nat.add_sub_cancel,
          Nat.add_sub_cancel, ← List.take_add_one]
    · -- the star is at the start of the pattern
      have hi0 : i = 0 := by
        have hall : ∀ i < 7, shtmlPattern[i]? = some 0x2a ∨ shtmlPattern[i]? = some 0x23 → i = 0 := by
          decide
        exact hall i hstar.1 hstar.2
      subst hi0
      exact ih (i := 1) (by omega) hj List.nil_suffix h
    · exact ih (i := 0) (by omega) hback.2.1 List.nil_suffix h
    · cases h
    · have h7 : i = 7 := by omega
      have hjl : path.take j = path := List.take_of_length_le (by omega)
      subst h7
      rwa [hjl] at hm

/-- A path that matches ends in `.shtml`. -/
theorem mgGlobmatch_shtml {path : Bytes} (h : mgGlobmatch shtmlPattern path = some true) :
    ascii ".shtml" <:+ path :=
  globLoop_shtml (i := 0) (by omega) (by omega) List.nil_suffix h

/-! ## What the decoder leaves in a buffer -/

/-- Decoding at most `room` bytes: the bytes written, and whether no escape was malformed. -/
def percentDecode : ℕ → Bytes → Bytes × Bool
  | 0, _ => ([], true)
  | _ + 1, [] => ([], true)
  | room + 1, c :: src =>
    if c = 0x25 then
      match src with
      | hi :: lo :: src =>
        if isxdigit hi && isxdigit lo then
          let (w, ok) := percentDecode room src
          (mgUnhex hi lo :: w, ok)
        else ([], false)
      | _ => ([], false)
    else
      let (w, ok) := percentDecode room src
      (c :: w, ok)

/-- The string that the decoder leaves in front of the stale bytes of its buffer. -/
def decodedUri (room : ℕ) (stale uri : Bytes) : Bytes :=
  let (w, ok) := percentDecode room uri
  cstr (if ok then w else (w ++ (0 :: stale).drop w.length).take room)

theorem length_percentDecode : ∀ (room : ℕ) (src : Bytes), (percentDecode room src).1.length ≤ room
  | 0, _ => by simp [percentDecode]
  | _ + 1, [] => by simp [percentDecode]
  | room + 1, c :: src => by
    unfold percentDecode
    split_ifs
    · match src with
      | [] => simp
      | [_] => simp
      | hi :: lo :: src =>
        have := length_percentDecode room src
        by_cases h : (isxdigit hi && isxdigit lo) = true
        · simpa [h] using this
        · simp [h]
    · simpa using length_percentDecode room src

/-- The bytes of a buffer after the position the decoder has reached. -/
def decodeRest (dst : Bytes) (k : ℕ) (ok : Bool) : Bytes :=
  if ok then 0 :: dst.drop (k + 1) else dst.drop k

theorem take_succ_set {dst : Bytes} {j : ℕ} {b : UInt8} (h : j < dst.length) :
    (dst.set j b).take (j + 1) = dst.take j ++ [b] := by
  rw [List.take_add_one, List.take_set_of_le (le_refl j), List.getElem?_set_self h]
  rfl

theorem drop_set_succ {dst : Bytes} {j k : ℕ} {b : UInt8} (h : j < k) :
    (dst.set j b).drop k = dst.drop k := List.drop_set_of_lt h

theorem urlDecodeLoop_eq : ∀ (room : ℕ) (src dst : Bytes) (j : ℕ), dst.length = j + room + 1 →
    (urlDecodeLoop false src j dst).2 = dst.take j ++ ((percentDecode room src).1 ++
      decodeRest dst (j + (percentDecode room src).1.length) (percentDecode room src).2) := by
  have hend : ∀ (b : Bool) (dst : Bytes) (j : ℕ), j < dst.length →
      (urlDecodeEnd b j dst).2 = dst.take j ++ ([] ++ decodeRest dst (j + 0) true) := by
    intro b dst j hj
    simp [urlDecodeEnd, decodeRest, hj, List.set_eq_take_append_cons_drop]
  intro room
  induction room with
  | zero =>
    intro src dst j hlen
    cases src with
    | nil => exact hend true dst j (by omega)
    | cons c src =>
      unfold urlDecodeLoop
      rw [if_neg (by omega)]
      exact hend false dst j (by omega)
  | succ room ih =>
    intro src dst j hlen
    have hset : ∀ (b : UInt8) (w : Bytes) (ok : Bool),
        (dst.set j b).take (j + 1) ++ (w ++ decodeRest (dst.set j b) (j + 1 + w.length) ok) =
          dst.take j ++ (b :: w ++ decodeRest dst (j + (b :: w).length) ok) := by
      intro b w ok
      rw [take_succ_set (by omega), List.append_assoc]
      unfold decodeRest
      rw [drop_set_succ (by omega), drop_set_succ (by omega), List.length_cons,
        show j + 1 + w.length = j + (w.length + 1) by omega]
      rfl
    cases src with
    | nil => exact hend true dst j (by omega)
    | cons c src =>
      unfold urlDecodeLoop percentDecode
      rw [if_pos (by omega)]
      by_cases hc : c = 0x25
      · rw [if_pos hc, if_pos hc]
        -- an escape takes two more bytes
        cases src with
        | nil => simp [decodeRest]
        | cons hi src =>
          cases src with
          | nil => simp [decodeRest]
          | cons lo src =>
            by_cases hx : (isxdigit hi && isxdigit lo) = true
            · simp only [hx, if_true]
              rw [ih src _ (j + 1) (by rw [List.length_set]; omega)]
              exact hset _ _ _
            · simp [hx, decodeRest]
      · rw [if_neg hc, if_neg hc]
        simp only [Bool.false_and, Bool.false_eq_true, if_false]
        rw [ih src _ (j + 1) (by rw [List.length_set]; omega)]
        exact hset _ _ _

/-- **Decoding into a buffer.** -/
theorem mgUrlDecode_eq (src dst : Bytes) {room : ℕ} (h : dst.length = room + 1) :
    (mgUrlDecode src dst false).2 = (percentDecode room src).1 ++
      decodeRest dst (percentDecode room src).1.length (percentDecode room src).2 := by
  have := urlDecodeLoop_eq room src dst 0 (by omega)
  rwa [List.take_zero, List.nil_append, Nat.zero_add] at this

section Unresolved

variable {fs : FileSystem} {root uri f : Bytes} {room : ℕ}

theorem rootBuffer_split (fs : FileSystem) (h : root.length + room + 1 = mgPathMax) :
    (rootBuffer fs root).take root.length = root ∧ (rootBuffer fs root).drop root.length =
      ((0 :: fs.stale) ++ List.replicate mgPathMax 0).take (room + 1) := by
  unfold rootBuffer
  constructor
  · rw [List.take_take, Nat.min_eq_left (by omega), List.append_assoc, List.take_left]
  · rw [List.drop_take, List.append_assoc, List.drop_left, ← h]
    congr 1
    omega

/-- A buffer whose last byte is cleared holds the same string without it. -/
theorem cstr_set_last {dst : Bytes} (h : dst.length = room + 1) :
    cstr (dst.set room 0) = cstr (dst.take room) := by
  rw [List.set_eq_take_append_cons_drop, if_pos (by omega), cstr_append_zero]

/-- **The unresolved path** is the root with the decoded URI behind it. -/
theorem unresolved_eq (fs : FileSystem) (uri : Bytes) (h : root.length + room + 1 = mgPathMax)
    (h0 : 0 ∉ root) :
    unresolved fs root uri = stripSlashes (root ++ decodedUri room fs.stale uri) := by
  obtain ⟨htake, hdrop⟩ := rootBuffer_split fs h
  have hlen : ((rootBuffer fs root).drop root.length).length = room + 1 := by
    rw [hdrop, List.length_take, List.length_append, List.length_replicate]
    omega
  have hw := length_percentDecode room uri
  unfold unresolved decodedUri
  simp only [htake]
  rw [mgUrlDecode_eq _ _ hlen]
  generalize hpd : percentDecode room uri = wo at hw
  obtain ⟨w, ok⟩ := wo
  simp only at hw ⊢
  generalize (rootBuffer fs root).drop root.length = dst at hdrop hlen
  rw [List.set_append_right _ _ (by omega), show mgPathMax - 1 - root.length = room by omega,
    cstr_append h0]
  congr 2
  cases ok with
  | true =>
    simp only [decodeRest, if_true]
    rw [List.set_append]
    split_ifs with h
    · omega
    · obtain ⟨t, ht⟩ : ∃ t, (0 :: dst.drop (w.length + 1)).set (room - w.length) 0 = 0 :: t := by
        cases room - w.length with
        | zero => exact ⟨_, rfl⟩
        | succ n => exact ⟨_, rfl⟩
      rw [ht, cstr_append_zero]
  | false =>
    have hrest : (w ++ dst.drop w.length).length = room + 1 := by
      rw [List.length_append, List.length_drop]
      omega
    simp only [decodeRest, Bool.false_eq_true, if_false]
    -- behind the stale bytes the buffer is zero
    have htail : (dst.drop w.length).take (room - w.length) =
        ((0 :: fs.stale).drop w.length).take (room - w.length) ++ List.replicate
          (min (room - w.length - ((0 :: fs.stale).drop w.length).length)
            (mgPathMax - (w.length - (0 :: fs.stale).length))) 0 := by
      rw [hdrop, List.drop_take, List.take_take, Nat.min_eq_left (by omega), List.drop_append,
        List.take_append, List.drop_replicate, List.take_replicate]
    rw [cstr_set_last hrest, List.take_append, htail, ← List.append_assoc, cstr_append_zeros,
      List.take_append]

theorem stripSlashes_prefix (s : Bytes) : stripSlashes s <+: s := by
  unfold stripSlashes
  conv_rhs => rw [← s.reverse_reverse]
  exact List.reverse_prefix.mpr (List.dropWhile_suffix _)

/-- **The containment check.** -/
theorem outsideRoot_eq_false_iff {src path t : Bytes} (hs : src <+: root ++ t) (h0 : 0 ∉ path) :
    outsideRoot root src path = false ↔ root <+: src ∧ root <+: path := by
  have hroot : ∀ {s : Bytes}, root <+: s ↔ root.length ≤ s.length ∧ s.take root.length = root := by
    intro s
    rw [List.prefix_iff_eq_take]
    constructor
    · intro h
      have := congrArg List.length h
      rw [List.length_take] at this
      exact ⟨by omega, h.symm⟩
    · exact fun h => h.2.symm
  unfold outsideRoot
  rw [Bool.or_eq_false_iff, decide_eq_false_iff_not, not_lt, bne_eq_false_iff_eq]
  constructor
  · rintro ⟨hlen, htake⟩
    have hle : root.length ≤ src.length := by
      by_contra hlt
      -- a zero from the buffer would be a byte of the path
      have hz : (0 : UInt8) ∈ (src ++ List.replicate root.length 0).take root.length := by
        rw [List.take_append]
        refine List.mem_append_right _ ?_
        rw [List.take_replicate, List.mem_replicate]
        exact ⟨by omega, rfl⟩
      rw [htake] at hz
      exact h0 (List.mem_of_mem_take hz)
    have hsrc : root <+: src :=
      List.prefix_of_prefix_length_le (List.prefix_append root t) hs hle
    refine ⟨hsrc, hroot.mpr ⟨hlen, ?_⟩⟩
    rw [← htake, List.take_append_of_le_length hle]
    exact (hroot.mp hsrc).2
  · rintro ⟨hsrc, hpath⟩
    obtain ⟨hle, htake⟩ := hroot.mp hsrc
    obtain ⟨hlen, htake'⟩ := hroot.mp hpath
    rw [List.take_append_of_le_length hle, htake, htake']
    exact ⟨hlen, rfl⟩

end Unresolved

end Csrv.Mongoose
