import Csrv.Lib.Elf
import Mathlib.Algebra.Order.Ring.Int

/-!
# Export directories of loaded PE images

The DOS header at the start of an image says where the NT headers are. The first of their data
directories is the export directory. It counts the functions and, apart from them, the names: a
function may be exported by its ordinal alone or under several names. What an image says of a
position is its distance from the base (RVA).
-/

namespace Pe

open Elf

/-- The images of 32-bit processes, and those of 64-bit processes. -/
inductive Format
  | pe32
  | pe32plus
deriving DecidableEq

/-- The bits of an address. -/
def Format.bits : Format → ℕ
  | pe32 => 32
  | pe32plus => 64

/-- The distance of `NumberOfRvaAndSizes` from the NT headers. The data directories follow it. -/
def Format.directories : Format → ℕ
  | pe32 => 116
  | pe32plus => 132

/-- An image in memory. -/
structure Image where
  format : Format
  mem : Memory
  base : ℕ

def IMAGE_DOS_SIGNATURE : ℕ := 0x5a4d
def IMAGE_NT_SIGNATURE : ℕ := 0x4550

namespace Image

variable (lib : Image)

/-- The address at a distance from the base. -/
def va (d : ℤ) : ℕ := ((lib.base + d) % 2 ^ lib.format.bits).toNat

/-- A `WORD`. -/
def word (d : ℤ) : ℕ := read lib.mem (lib.va d) 2

/-- A `DWORD`. -/
def dword (d : ℤ) : ℕ := read lib.mem (lib.va d) 4

def e_magic : ℕ := lib.word 0

def e_lfanew : ℤ := (lib.dword 0x3c : ℤ).bmod (2 ^ 32)

def signature : ℕ := lib.dword lib.e_lfanew

def numberOfRvaAndSizes : ℕ := lib.dword (lib.e_lfanew + lib.format.directories)

/-- The `VirtualAddress` of the export directory. -/
def exports : ℕ := lib.dword (lib.e_lfanew + lib.format.directories + 4)

def numberOfFunctions : ℕ := lib.dword (lib.exports + 20)

def numberOfNames : ℕ := lib.dword (lib.exports + 24)

def addressOfNames : ℕ := lib.dword (lib.exports + 32)

/-- An entry of the name table. -/
def nameRva (i : ℕ) : ℕ := lib.dword (lib.addressOfNames + 4 * i)

/-- An exported name. -/
def name (i : ℕ) : List UInt8 := str lib.mem (lib.va (lib.nameRva i))

/-- The exported names in the order of the name table. -/
def exportedNames : List (List UInt8) := (List.range lib.numberOfNames).map lib.name

/-- The headers are those of an image with an export directory. -/
structure Valid : Prop where
  magic : lib.e_magic = IMAGE_DOS_SIGNATURE
  signature : lib.signature = IMAGE_NT_SIGNATURE
  directories : 0 < lib.numberOfRvaAndSizes
  exports : lib.exports ≠ 0

variable {lib}

theorem dword_lt (d : ℤ) : lib.dword d < 2 ^ 32 := read_lt lib.mem (lib.va d) 4

theorem exportedNames_length : lib.exportedNames.length = lib.numberOfNames := by
  unfold exportedNames
  rw [List.length_map, List.length_range]

/-- In 32 bits a distance counts up to `2 ^ 32`. -/
theorem va_sub (h : lib.format = .pe32) (d : ℤ) : lib.va (d - 2 ^ 32) = lib.va d := by
  unfold va
  rw [h, ← add_sub_assoc]
  congr 1
  exact Int.sub_emod_right _ _

end Image

end Pe
