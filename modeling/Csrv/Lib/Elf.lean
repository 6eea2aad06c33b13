import Mathlib.Algebra.Order.Ring.Nat
import Mathlib.Data.List.Basic

/-!
# Dynamic sections of loaded ELF-64 objects

A dynamic section is an array of tagged values that ends at `DT_NULL`. It names the symbol table,
its entry size and the string table. Memory is little-endian; what lies outside reads as zero.
-/

namespace Elf

/-- Memory from address 0. -/
abbrev Memory : Type := List UInt8

/-- The number in `n` bytes. -/
def read (mem : Memory) (a : ℕ) : ℕ → ℕ
  | 0 => 0
  | n + 1 => (mem.getD a 0).toNat + 256 * read mem (a + 1) n

/-- The string at an address. -/
def str (mem : Memory) (a : ℕ) : List UInt8 := (mem.drop a).takeWhile (· ≠ 0)

/-- An `Elf64_Dyn`. -/
structure Dyn where
  tag : ℕ
  val : ℕ
deriving DecidableEq

def DT_NULL : ℕ := 0
def DT_STRTAB : ℕ := 5
def DT_SYMTAB : ℕ := 6
def DT_SYMENT : ℕ := 11

/-- The array of `n` entries at `a`. -/
def dyns (mem : Memory) (a n : ℕ) : List Dyn :=
  (List.range n).map fun k => ⟨read mem (a + 16 * k) 8, read mem (a + 16 * k + 8) 8⟩

/-- What belongs to the section: the entries before `DT_NULL`. -/
def live (ds : List Dyn) : List Dyn := ds.takeWhile (·.tag ≠ DT_NULL)

/-- A symbol table of `size` entries with its string table. -/
structure Table where
  symtab : ℕ
  strtab : ℕ
  syment : ℕ
  size : ℕ

/-- The name of an entry: its first four bytes are an offset in the string table. -/
def Table.name (t : Table) (mem : Memory) (k : ℕ) : List UInt8 :=
  str mem (t.strtab + read mem (t.symtab + t.syment * k) 4)

/-- The names that are not empty. -/
def Table.names (t : Table) (mem : Memory) : List (List UInt8) :=
  ((List.range t.size).map (t.name mem)).filter (· ≠ [])

/-- A value that stands in a section, as the only one under its tag. -/
def Holds (ds : List Dyn) (tag val : ℕ) : Prop :=
  ⟨tag, val⟩ ∈ ds ∧ ∀ d ∈ ds, d.tag = tag → d.val = val

/-- The section names the table, and the string table starts where the symbol table ends. -/
structure Table.NamedBy (t : Table) (ds : List Dyn) : Prop where
  symtab : Holds (live ds) DT_SYMTAB t.symtab
  strtab : Holds (live ds) DT_STRTAB t.strtab
  syment : Holds (live ds) DT_SYMENT t.syment
  positive : 0 < t.syment
  adjacent : t.strtab = t.symtab + t.syment * t.size

variable {ds : List Dyn} {tag val : ℕ}

instance : Decidable (Holds ds tag val) := inferInstanceAs (Decidable (_ ∧ _))

theorem read_lt (mem : Memory) (a n : ℕ) : read mem a n < 256 ^ n := by
  induction n generalizing a with
  | zero => exact Nat.one_pos
  | succ n ih =>
    have hbyte := (mem.getD a 0).toNat_lt
    have hrest := ih (a + 1)
    unfold read
    rw [Nat.pow_succ]
    omega

theorem live_subset : live ds ⊆ ds := (List.takeWhile_sublist _).subset

/-- What a scan that overwrites finds under a tag, if the tag has one value. -/
theorem foldl_eq_of_holds {σ α : Type} (read : σ → Dyn → σ) (get : σ → α) (f : ℕ → α)
    (hread : ∀ s d, get (read s d) = if d.tag = tag then f d.val else get s)
    (h : Holds ds tag val) (s : σ) : get (ds.foldl read s) = f val := by
  have hkeep : ∀ ds : List Dyn, (∀ d ∈ ds, d.tag = tag → d.val = val) → ∀ s, get s = f val →
      get (ds.foldl read s) = f val := by
    intro ds
    induction ds with
    | nil => exact fun _ s hs => hs
    | cons d ds ih =>
      intro hval s hs
      refine ih (fun e he => hval e (List.mem_cons_of_mem d he)) _ ?_
      rw [hread]
      split_ifs with htag
      · rw [hval d List.mem_cons_self htag]
      · exact hs
  obtain ⟨hmem, hval⟩ := h
  obtain ⟨before, after, rfl⟩ := List.append_of_mem hmem
  rw [List.foldl_append, List.foldl_cons]
  refine hkeep after (fun d hd => hval d (by simp [hd])) _ ?_
  rw [hread, if_pos rfl]

end Elf
