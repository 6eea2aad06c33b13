import Csrv.CString
import Csrv.Lib.Pe

/-!
# The exports of a library

`readlib.cpp` on Windows. `readlib` loads a library and lists the names of its export directory. The
loop over the name table ends at `NumberOfFunctions`, which is another number than that of the
names, and takes this number and the RVAs of the names for `int`s.

`lists_names_iff`: the entries read are those of the table and the list is that of the exported
names if and only if the loop has as many rounds as there are names and no RVA is taken for another
position.
-/

namespace Csrv.Readlib.Windows

open Elf Pe

/-- The list, what is written to `std::cerr`, and the entries of the name table that are read. -/
structure Output where
  vsym : List Bytes
  cerr : Bytes
  reads : List ℕ

def error (text : Bytes) : Output := ⟨[], text, []⟩

/-- The string that `names[i]` leads to. -/
def entry (lib : Image) (i : ℕ) : Bytes :=
  str lib.mem (lib.va ((lib.nameRva i : ℤ).bmod (2 ^ 32)))

def push (lib : Image) (out : Output) (i : ℕ) : Output :=
  { out with vsym := out.vsym ++ [entry lib i], reads := out.reads ++ [i] }

def listExports (lib : Image) : Output :=
  if lib.e_magic = IMAGE_DOS_SIGNATURE then
    if lib.signature = IMAGE_NT_SIGNATURE then
      if lib.numberOfRvaAndSizes > 0 then
        if lib.addressOfNames ≠ 0 then
          -- the loop is `for(int i=0;i<(int)(exports->NumberOfFunctions);i++)`
          (List.range ((lib.numberOfFunctions : ℤ).bmod (2 ^ 32)).toNat).foldl (push lib)
            ⟨[], [], []⟩
        else error (ascii "error:readlib:failed to obtain names address\n")
      else error (ascii "error:readlib:invalid NumberOfRvaAndSizes\n")
    else error (ascii "error:readlib:invalid header signature\n")
  else error (ascii "error:readlib:invalid magic bytes\n")

/-- A library that cannot be loaded has no image: its headers are read from address 0, which ends
the process. -/
def readlib (LoadLibrary : Bytes → Option Image) (path : Bytes) : Option Output :=
  (LoadLibrary (cstr path)).map listExports

/-! ## What it should list -/

structure ListsNames (lib : Image) (out : Output) : Prop where
  inside : ∀ i ∈ out.reads, i < lib.numberOfNames
  names : out.vsym = lib.exportedNames

/-- The loop has as many rounds as there are names. -/
def Counted (lib : Image) : Prop :=
  lib.numberOfNames =
    if lib.addressOfNames = 0 ∨ 2 ^ 31 ≤ lib.numberOfFunctions then 0 else lib.numberOfFunctions

/-- The RVAs that are negative as `int`s lead to the same strings. -/
def Near (lib : Image) : Prop := ∀ i < lib.numberOfNames,
  lib.nameRva i < 2 ^ 31 ∨ lib.format = .pe32 ∨
    str lib.mem (lib.va (lib.nameRva i - 2 ^ 32)) = lib.name i

section Loop

variable {lib : Image} {i n : ℕ}

theorem bmod_of_lt (h : n < 2 ^ 31) : (n : ℤ).bmod (2 ^ 32) = n := by
  rw [Int.bmod_def]
  omega

theorem bmod_of_le (h : 2 ^ 31 ≤ n) (hlt : n < 2 ^ 32) : (n : ℤ).bmod (2 ^ 32) = n - 2 ^ 32 := by
  rw [Int.bmod_def]
  omega

theorem foldl_push (out : Output) : (List.range n).foldl (push lib) out =
    { out with
      vsym := out.vsym ++ (List.range n).map (entry lib)
      reads := out.reads ++ List.range n } := by
  induction n with
  | zero =>
    rw [List.range_zero, List.map_nil, List.append_nil, List.append_nil]
    rfl
  | succ n ih =>
    rw [List.range_succ, List.foldl_append, ih, List.map_append, ← List.append_assoc,
      ← List.append_assoc]
    rfl

/-- When `(int)names[i]` leads to the name. -/
theorem entry_eq_iff : entry lib i = lib.name i ↔
    lib.nameRva i < 2 ^ 31 ∨ lib.format = .pe32 ∨
      str lib.mem (lib.va (lib.nameRva i - 2 ^ 32)) = lib.name i := by
  unfold entry
  rcases Nat.lt_or_ge (lib.nameRva i) (2 ^ 31) with hlt | hle
  · rw [bmod_of_lt hlt]
    exact ⟨fun _ => Or.inl hlt, fun _ => rfl⟩
  · rw [bmod_of_le hle (Image.dword_lt _)]
    constructor
    · exact fun h => Or.inr (Or.inr h)
    · rintro (hlt | hformat | h)
      · omega
      · rw [Image.va_sub hformat]
        rfl
      · exact h

/-- The number of rounds of the loop. -/
def rounds (lib : Image) : ℕ :=
  if lib.addressOfNames = 0 ∨ 2 ^ 31 ≤ lib.numberOfFunctions then 0 else lib.numberOfFunctions

theorem toNat_numberOfFunctions (h : lib.addressOfNames ≠ 0) :
    ((lib.numberOfFunctions : ℤ).bmod (2 ^ 32)).toNat = rounds lib := by
  unfold rounds
  rcases Nat.lt_or_ge lib.numberOfFunctions (2 ^ 31) with hlt | hle
  · rw [bmod_of_lt hlt, if_neg (by omega), Int.toNat_natCast]
  · have hbound : lib.numberOfFunctions < 2 ^ 32 := Image.dword_lt _
    rw [bmod_of_le hle hbound, if_pos (Or.inr hle)]
    omega

/-- Behind the checks the list is that of the rounds. -/
theorem listExports_eq (h : lib.Valid) :
    (listExports lib).vsym = (List.range (rounds lib)).map (entry lib) ∧
      (listExports lib).reads = List.range (rounds lib) := by
  unfold listExports
  rw [if_pos h.magic, if_pos h.signature, if_pos h.directories]
  by_cases hnames : lib.addressOfNames = 0
  · have hrounds : rounds lib = 0 := if_pos (Or.inl hnames)
    rw [if_neg (not_not_intro hnames), hrounds]
    exact ⟨rfl, rfl⟩
  · rw [if_pos hnames, toNat_numberOfFunctions hnames, foldl_push]
    exact ⟨List.nil_append _, List.nil_append _⟩

/-- The entries read are those of the table if and only if there are not more rounds than names. -/
theorem inside_iff (h : lib.Valid) :
    (∀ i ∈ (listExports lib).reads, i < lib.numberOfNames) ↔ rounds lib ≤ lib.numberOfNames := by
  rw [(listExports_eq h).2]
  constructor
  · intro hinside
    by_contra hlt
    exact absurd (hinside lib.numberOfNames (List.mem_range.mpr (by omega))) (lt_irrefl _)
  · exact fun hle i hi => lt_of_lt_of_le (List.mem_range.mp hi) hle

theorem names_iff (h : lib.Valid) :
    (listExports lib).vsym = lib.exportedNames ↔ Counted lib ∧ Near lib := by
  rw [(listExports_eq h).1]
  constructor
  · intro hnames
    -- the lists are equally long, so the rounds are as many as the names
    have hcount := congrArg List.length hnames
    rw [List.length_map, List.length_range, Image.exportedNames_length] at hcount
    unfold Image.exportedNames at hnames
    rw [hcount, List.map_inj_left] at hnames
    exact ⟨hcount.symm, fun i hi => entry_eq_iff.mp (hnames i (List.mem_range.mpr hi))⟩
  · rintro ⟨hcount, hnear⟩
    have hrounds : rounds lib = lib.numberOfNames := hcount.symm
    unfold Image.exportedNames
    rw [hrounds, List.map_inj_left]
    exact fun i hi => entry_eq_iff.mpr (hnear i (List.mem_range.mp hi))

end Loop

/-- **The exports.** For an image with valid headers and an export directory, the entries read are
those of the name table, and the list is that of the exported names in the order of the table, if
and only if the loop has as many rounds as there are names and the RVAs that are negative as `int`s
lead to the same strings. -/
theorem lists_names_iff {LoadLibrary : Bytes → Option Image} {path : Bytes} {lib : Image}
    (hload : LoadLibrary (cstr path) = some lib) (h : lib.Valid) :
    (∃ out, readlib LoadLibrary path = some out ∧ ListsNames lib out) ↔
      Counted lib ∧ Near lib := by
  have hout : readlib LoadLibrary path = some (listExports lib) := congrArg (Option.map _) hload
  rw [hout]
  constructor
  · rintro ⟨out, hsome, hlists⟩
    obtain rfl := Option.some.inj hsome
    exact (names_iff h).mp hlists.names
  · intro hcond
    have hrounds : rounds lib = lib.numberOfNames := hcond.1.symm
    exact ⟨_, rfl, (inside_iff h).mpr hrounds.le, (names_iff h).mpr hcond⟩

/-- A number in four bytes. -/
def dword (n : ℕ) : Bytes := (List.range 4).map fun i => UInt8.ofNat (n / 256 ^ i)

def zeros (n : ℕ) : Bytes := List.replicate n 0

/-- A library with the name `f` and a number of functions, at most two. The tables of the export
directory are those of the names, at 248, of the functions, at 256, and of the ordinals, at 264. -/
def image (functions : ℕ) : Image where
  format := .pe32plus
  base := 16
  mem := zeros 16 ++ ([0x4d, 0x5a] ++ zeros 58 ++ dword 64) ++
    (dword IMAGE_NT_SIGNATURE ++ zeros 128 ++ dword 1 ++ dword 208 ++ dword 40) ++
    (zeros 16 ++ dword 1 ++ dword functions ++ dword 1 ++ dword 256 ++ dword 248 ++ dword 264) ++
    (dword 268 ++ dword 0) ++ (dword 16 ++ dword 32) ++ zeros 4 ++ [0x66, 0]

def libraries (functions : ℕ) (name : Bytes) : Option Image :=
  if name = ascii "m.dll" then some (image functions) else none

theorem load_image (functions : ℕ) :
    libraries functions (cstr (ascii "m.dll")) = some (image functions) := if_pos (by decide)

theorem image_valid (functions : Fin 3) : (image functions).Valid where
  magic := by revert functions; decide +kernel
  signature := by revert functions; decide +kernel
  directories := by revert functions; decide +kernel
  exports := by revert functions; decide +kernel

/-- A library all of whose functions have a name. -/
theorem lists_named : ∃ out, readlib (libraries 1) (ascii "m.dll") = some out ∧
    ListsNames (image 1) out := by
  have hcounted : Counted (image 1) := by
    unfold Counted
    decide +kernel
  have hnear : Near (image 1) := by
    unfold Near
    decide +kernel
  exact (lists_names_iff (load_image 1) (image_valid 1)).mpr ⟨hcounted, hnear⟩

/-- A library with two functions, one of which is exported by its ordinal alone. -/
theorem lists_ordinal : ¬ ∀ (LoadLibrary : Bytes → Option Image) (path : Bytes) (lib : Image),
    LoadLibrary (cstr path) = some lib → lib.Valid →
      ∃ out, readlib LoadLibrary path = some out ∧ ListsNames lib out := by
  intro hall
  obtain ⟨out, hout, hlists⟩ := hall _ _ _ (load_image 2) (image_valid 2)
  have hlist : readlib (libraries 2) (ascii "m.dll") = some (listExports (image 2)) :=
    congrArg (Option.map _) (load_image 2)
  obtain rfl := Option.some.inj (hlist.symm.trans hout)
  have hle : rounds (image 2) ≤ (image 2).numberOfNames :=
    (inside_iff (image_valid 2)).mp hlists.inside
  exact absurd hle (by decide +kernel)

end Csrv.Readlib.Windows
