import Csrv.App.Chunk
import Mathlib.Algebra.Order.Ring.Nat

/-!
# The metrics module

`entry` of `metrics/src/a.c` copies four files of `/proc` byte by byte. The result of `fgetc` is
stored in a `char` before it is compared with `EOF`: as a `signed char` the byte `0xff` ends the
loop, as an `unsigned char` nothing does. `streamsFiles_iff` gives the files that are streamed
exactly.
-/

namespace Csrv.App.Metrics

open Chunked Quickjs

/-- Whether plain `char` is signed. -/
inductive CharKind
  | signed
  | unsigned
  deriving DecidableEq

/-- What is read back from a `char` in which an `int` has been stored. -/
def CharKind.store : CharKind → ℤ → ℤ
  | .signed, i => i.bmod (2 ^ 8)
  | .unsigned, i => i % 2 ^ 8

def eof : ℤ := -1

/-- `fgetc` on the bytes of a stream still to be read. -/
def fgetc : Bytes → ℤ × Bytes
  | [] => (eof, [])
  | c :: fp => (c.toNat, fp)

/-- `while((ch=fgetc(fp))!=EOF)mg_http_write_chunk(c,&ch,1);`: the chunks and the bytes not read,
or `none` if it has not ended after so many reads. -/
def copyLoop (k : CharKind) : ℕ → Bytes → Option (List Bytes × Bytes)
  | 0, _ => none
  | reads + 1, fp =>
    let (i, fp) := fgetc fp
    let ch := k.store i
    if ch ≠ eof then (copyLoop k reads fp).map fun r => ([UInt8.ofInt ch] :: r.1, r.2)
    else some ([], fp)

/-- One block of `entry`, on a file or on a failed `fopen`. -/
def fileBlock (k : CharKind) (reads : ℕ) : Option Bytes → Option Bytes
  | none => some (mgHttpPrintfChunk (ascii "not\n"))
  | some file => (copyLoop k reads file).map fun r =>
    r.1.flatMap mgHttpWriteChunk ++ mgHttpWriteChunk (ascii "\n")

/-- The files of `/proc`, where they can be opened. -/
structure Proc where
  uptime : Option Bytes
  meminfo : Option Bytes
  cpuinfo : Option Bytes
  stat : Option Bytes

def Proc.files (proc : Proc) : List (Option Bytes) :=
  [proc.uptime, proc.meminfo, proc.cpuinfo, proc.stat]

/-- `tpl:%d\n`; the counter is an `int`. -/
def tpl (reqidx : Fin (2 ^ 31)) : Bytes := ascii "tpl:" ++ ascii (toString reqidx.val) ++ ascii "\n"

/-- What `entry` appends to the connection. -/
def entry (k : CharKind) (reads : ℕ) (reqidx : Fin (2 ^ 31)) (proc : Proc) : Option Bytes := do
  let uptime ← fileBlock k reads proc.uptime
  let meminfo ← fileBlock k reads proc.meminfo
  let cpuinfo ← fileBlock k reads proc.cpuinfo
  let stat ← fileBlock k reads proc.stat
  some (header ++ mgHttpPrintfChunk (tpl reqidx) ++ uptime ++ meminfo ++ cpuinfo ++ stat ++
    mgHttpPrintfChunk [])

/-! ## Streaming exactly -/

/-- The copy loop ends at the end of the file, and its chunks with the last one are the file and a
newline, none of them empty. -/
def Streams (k : CharKind) (file : Bytes) : Prop :=
  ∃ reads chunks, copyLoop k reads file = some (chunks, []) ∧
    (chunks ++ [ascii "\n"]).flatten = file ++ ascii "\n" ∧
    ∀ c ∈ chunks ++ [ascii "\n"], c ≠ []

/-- The body of the page. -/
def page (reqidx : Fin (2 ^ 31)) (proc : Proc) : Bytes :=
  tpl reqidx ++ proc.files.flatMap fun
    | none => ascii "not\n"
    | some file => file ++ ascii "\n"

/-- Every file is streamed exactly, and the page is one chunked response. -/
structure StreamsFiles (k : CharKind) (proc : Proc) : Prop where
  each : ∀ file, some file ∈ proc.files → Streams k file
  whole : ∀ reqidx, ∃ reads w, entry k reads reqidx proc = some w ∧
    Response w (page reqidx proc) []

/-! ## The copy loop -/

section Loop

variable {k : CharKind} {reads : ℕ} {file : Bytes}

theorem store_signed_of_ne {c : UInt8} (h : c ≠ 0xff) :
    CharKind.signed.store c.toNat ≠ eof ∧ UInt8.ofInt (CharKind.signed.store c.toNat) = c := by
  have hlt : c.toNat < 256 := c.toNat_lt
  have hmod : (c.toNat : ℤ).bmod (2 ^ 8) % 2 ^ 8 = c.toNat := by
    rw [Int.bmod_def]
    omega
  have hstore : CharKind.signed.store c.toNat = (c.toNat : ℤ).bmod (2 ^ 8) := rfl
  rw [hstore]
  refine ⟨fun he => h ?_, ?_⟩
  · have hval : (-1 : ℤ) % 2 ^ 8 = 255 := by decide
    have hff : c.toNat = 255 := by
      rw [he, eof, hval] at hmod
      omega
    rw [← UInt8.ofNat_toNat (x := c), hff]
    rfl
  · rw [UInt8.ofInt, hmod, Int.toNat_natCast, UInt8.ofNat_toNat]

theorem store_signed_ff : CharKind.signed.store (0xff : UInt8).toNat = eof := by decide

theorem store_unsigned_ne (i : ℤ) : CharKind.unsigned.store i ≠ eof := by
  unfold CharKind.store eof
  show i % 2 ^ 8 ≠ -1
  omega

/-- A signed `char` that is not `EOF`. -/
theorem copyLoop_signed_cons {c : UInt8} (h : c ≠ 0xff) :
    copyLoop .signed (reads + 1) (c :: file) =
      (copyLoop .signed reads file).map fun r => ([c] :: r.1, r.2) := by
  obtain ⟨hne, hc⟩ := store_signed_of_ne h
  have hstep : copyLoop .signed (reads + 1) (c :: file) =
      if CharKind.signed.store c.toNat ≠ eof then (copyLoop .signed reads file).map fun r =>
        ([UInt8.ofInt (CharKind.signed.store c.toNat)] :: r.1, r.2) else some ([], file) := rfl
  rw [hstep, if_pos hne, hc]

theorem copyLoop_signed_ff : copyLoop .signed (reads + 1) (0xff :: file) = some ([], file) := by
  have hstep : copyLoop .signed (reads + 1) (0xff :: file) =
      if CharKind.signed.store (0xff : UInt8).toNat ≠ eof then
        (copyLoop .signed reads file).map fun r =>
          ([UInt8.ofInt (CharKind.signed.store (0xff : UInt8).toNat)] :: r.1, r.2)
      else some ([], file) := rfl
  rw [hstep, if_neg (not_not.mpr store_signed_ff)]

theorem copyLoop_signed_nil : copyLoop .signed (reads + 1) [] = some ([], []) := rfl

/-- Without `0xff` a signed loop copies the file. -/
theorem copyLoop_signed (h : 0xff ∉ file) (hlen : file.length < reads) :
    copyLoop .signed reads file = some (file.map ([·]), []) := by
  induction file generalizing reads with
  | nil =>
    obtain ⟨reads, rfl⟩ := Nat.exists_eq_succ_of_ne_zero hlen.ne'
    rfl
  | cons c file ih =>
    obtain ⟨reads, rfl⟩ := Nat.exists_eq_succ_of_ne_zero (Nat.ne_of_gt (Nat.zero_lt_of_lt hlen))
    obtain ⟨hc, hfile⟩ := List.ne_and_not_mem_of_not_mem_cons h
    rw [copyLoop_signed_cons hc.symm, ih hfile (Nat.lt_of_succ_lt_succ hlen)]
    rfl

/-- A signed loop copies no more than what stands before the first `0xff`. -/
theorem copyLoop_signed_flatten {chunks : List Bytes} {rest : Bytes}
    (h : copyLoop .signed reads file = some (chunks, rest)) :
    chunks.flatten = file.takeWhile (· ≠ 0xff) := by
  induction reads generalizing file chunks with
  | zero => cases h
  | succ reads ih =>
    cases file with
    | nil =>
      rw [copyLoop_signed_nil] at h
      cases h
      rfl
    | cons c file =>
      by_cases hc : c = 0xff
      · rw [hc, copyLoop_signed_ff] at h
        cases h
        rw [hc]
        rfl
      · rw [copyLoop_signed_cons hc] at h
        obtain ⟨⟨chunks, rest⟩, hloop, he⟩ := Option.map_eq_some_iff.mp h
        cases he
        rw [List.takeWhile_cons_of_pos (by simpa using hc), List.flatten_cons, ih hloop]
        rfl

/-- An unsigned loop does not end. -/
theorem copyLoop_unsigned : copyLoop .unsigned reads file = none := by
  induction reads generalizing file with
  | zero => rfl
  | succ reads ih =>
    have hstep : copyLoop .unsigned (reads + 1) file =
        if CharKind.unsigned.store (fgetc file).1 ≠ eof then
          (copyLoop .unsigned reads (fgetc file).2).map fun r =>
            ([UInt8.ofInt (CharKind.unsigned.store (fgetc file).1)] :: r.1, r.2)
        else some ([], (fgetc file).2) := rfl
    rw [hstep, if_pos (store_unsigned_ne _), ih]
    rfl

theorem flatten_singletons (s : Bytes) : (s.map ([·])).flatten = s := by
  induction s with
  | nil => rfl
  | cons c s ih => rw [List.map_cons, List.flatten_cons, ih, List.singleton_append]

/-- The chunks of a file and of what follows it. -/
theorem ne_nil_of_mem_singletons {s c t : Bytes} (ht : t ≠ []) (hc : c ∈ s.map ([·]) ++ [t]) :
    c ≠ [] := by
  rcases List.mem_append.mp hc with hc | hc
  · obtain ⟨b, -, rfl⟩ := List.mem_map.mp hc
    exact List.cons_ne_nil _ _
  · rw [List.mem_singleton.mp hc]
    exact ht

/-- For which `char`s and files the loop is exact. -/
theorem streams_iff : Streams k file ↔ k = .signed ∧ 0xff ∉ file := by
  constructor
  · rintro ⟨reads, chunks, hloop, hflat, -⟩
    cases k with
    | signed =>
      refine ⟨rfl, fun hff => ?_⟩
      rw [List.flatten_append, copyLoop_signed_flatten hloop] at hflat
      have hall : file.takeWhile (· ≠ 0xff) = file := List.append_cancel_right hflat
      simpa using List.takeWhile_eq_self_iff.mp hall _ hff
    | unsigned =>
      rw [copyLoop_unsigned] at hloop
      cases hloop
  · rintro ⟨rfl, hff⟩
    refine ⟨file.length + 1, _, copyLoop_signed hff (Nat.lt_succ_self _), ?_, ?_⟩
    · rw [List.flatten_append, flatten_singletons, List.flatten_singleton]
    · exact fun c hc => ne_nil_of_mem_singletons (by decide) hc

end Loop

/-! ## The page -/

section Page

variable {k : CharKind} {reads : ℕ} {file : Option Bytes} {proc : Proc}

/-- The chunks of one block. -/
def blockChunks : Option Bytes → List Bytes
  | none => [ascii "not\n"]
  | some file => file.map ([·]) ++ [ascii "\n"]

theorem blockChunks_ne_nil : ∀ c ∈ blockChunks file, c ≠ [] := by
  intro c hc
  cases file with
  | none =>
    rw [List.mem_singleton.mp hc]
    decide
  | some file => exact ne_nil_of_mem_singletons (by decide) hc

/-- A block that ends writes its chunks. -/
theorem fileBlock_eq (h : ∀ f, file = some f → (k = .signed ∧ 0xff ∉ f) ∧ f.length < reads) :
    fileBlock k reads file = some ((blockChunks file).flatMap (encode hexUpper)) := by
  cases file with
  | none =>
    show some (mgHttpPrintfChunk (ascii "not\n")) = _
    rw [mgHttpPrintfChunk_eq (by decide)]
    exact congrArg some (List.flatMap_singleton _ _).symm
  | some file =>
    obtain ⟨⟨rfl, hff⟩, hlen⟩ := h file rfl
    show (copyLoop .signed reads file).map _ = _
    rw [copyLoop_signed hff hlen, Option.map_some]
    show _ = some ((file.map ([·]) ++ [ascii "\n"]).flatMap (encode hexUpper))
    rw [List.flatMap_append, List.flatMap_singleton]
    rfl

theorem length_tpl (reqidx : Fin (2 ^ 31)) : (tpl reqidx).length < 2 ^ 31 := by
  have htpl : (ascii "tpl:").length = 4 := by decide
  have hend : (ascii "\n").length = 1 := by decide
  have hnumber := length_toString_le reqidx
  unfold tpl
  rw [List.length_append, List.length_append, htpl, hend]
  omega

theorem tpl_ne_nil (reqidx : Fin (2 ^ 31)) : tpl reqidx ≠ [] := by
  unfold tpl
  rw [List.append_assoc]
  exact List.append_ne_nil_of_left_ne_nil (by decide) _

theorem flatten_blockChunks : (blockChunks file).flatten =
    match file with
    | none => ascii "not\n"
    | some file => file ++ ascii "\n" := by
  cases file with
  | none => exact List.flatten_singleton
  | some file =>
    show (file.map ([·]) ++ [ascii "\n"]).flatten = _
    rw [List.flatten_append, flatten_singletons, List.flatten_singleton]

/-- Files that can be copied make one response. -/
theorem entry_response (h : ∀ f, some f ∈ proc.files → (k = .signed ∧ 0xff ∉ f) ∧ f.length < reads)
    (reqidx : Fin (2 ^ 31)) :
    ∃ w, entry k reads reqidx proc = some w ∧ Response w (page reqidx proc) [] := by
  have hblock : ∀ file ∈ proc.files,
      fileBlock k reads file = some ((blockChunks file).flatMap (encode hexUpper)) :=
    fun file hfile => fileBlock_eq fun f hf => h f (hf ▸ hfile)
  let cs := tpl reqidx :: proc.files.flatMap blockChunks
  have hne : ∀ d ∈ cs, d ≠ [] := by
    intro d hd
    rcases List.mem_cons.mp hd with rfl | hd
    · exact tpl_ne_nil reqidx
    · obtain ⟨file, -, hd⟩ := List.mem_flatMap.mp hd
      exact blockChunks_ne_nil d hd
  have hflat : cs.flatten = page reqidx proc := by
    have hpage : ∀ fs : List (Option Bytes), (fs.flatMap blockChunks).flatten = fs.flatMap fun
        | none => ascii "not\n"
        | some file => file ++ ascii "\n" := by
      intro fs
      induction fs with
      | nil => rfl
      | cons file fs ih =>
        rw [List.flatMap_cons, List.flatMap_cons, List.flatten_append, flatten_blockChunks, ih]
    show tpl reqidx ++ (proc.files.flatMap blockChunks).flatten = _
    rw [hpage]
    rfl
  refine ⟨header ++ (cs.flatMap (encode hexUpper) ++ encode hexUpper [] ++ []), ?_, ?_⟩
  · unfold entry
    rw [hblock proc.uptime (by simp [Proc.files]), hblock proc.meminfo (by simp [Proc.files]),
      hblock proc.cpuinfo (by simp [Proc.files]), hblock proc.stat (by simp [Proc.files]),
      mgHttpPrintfChunk_eq (length_tpl reqidx), mgHttpPrintfChunk_eq (by decide)]
    simp only [Option.bind_eq_bind, Option.bind_some, cs, Proc.files, List.flatMap_cons,
      List.flatMap_nil, List.flatMap_append, List.append_assoc, List.append_nil]
  · rw [← hflat]
    exact response_header (body_encode cs [] cr_not_mem_hexUpper chunkSize_hexUpper hne)

end Page

/-- Which files are streamed exactly, and when. -/
theorem streamsFiles_iff (k : CharKind) (proc : Proc) :
    StreamsFiles k proc ↔ ∀ file, some file ∈ proc.files → k = .signed ∧ 0xff ∉ file := by
  constructor
  · intro h file hfile
    exact streams_iff.mp (h.each file hfile)
  · intro h
    refine ⟨fun file hfile => streams_iff.mpr (h file hfile), fun reqidx => ?_⟩
    have hlen : ∀ f, some f ∈ proc.files →
        f.length < (proc.files.map fun f => (f.getD []).length).sum + 1 := by
      intro f hf
      exact Nat.lt_succ_of_le (List.le_sum_of_mem (List.mem_map.mpr ⟨some f, hf, rfl⟩))
    exact ⟨_, entry_response (fun f hf => ⟨h f hf, hlen f hf⟩) reqidx⟩

/-- A file with the byte `0xff`. -/
theorem not_streamsFiles_ff :
    ¬ StreamsFiles .signed ⟨some [0x31, 0xff, 0x32], none, none, none⟩ := fun h =>
  absurd (streams_iff.mp (h.each [0x31, 0xff, 0x32] (by decide))).2 (by decide)

end Csrv.App.Metrics
