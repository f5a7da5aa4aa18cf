import Mathlib
import SimpleOs.Lib.RadixTree
import SimpleOs.Mem.Build

/-!
# The 5-level page table

The page-table functions of `mm64.c`. Every setter walks from `mm->pgd` through
four levels of tables and allocates the missing ones on its way; `pte_get_entry`
walks the same way and gives up at a missing one. What `malloc` answers is a
parameter: the `k`-th request for a table in a run gets `reply k`.
-/

namespace SimpleOs.Mem.Mm64

open Bitfield RadixTree

/-- `addr_t`, `pte_t` and `uint64_t` -/
abbrev Word : Type := BitVec 64

abbrev Slot : Type := Fin 512

/-- An answer of `malloc(sizeof(uint64_t) * 512)`: `NULL`, or a block and what it
happens to contain. -/
abbrev Reply : Type := Option (Word × (Slot → Word))

/-- What the page-table functions use of `struct mm_struct` and of the C heap. -/
structure Mm where
  pgd : Word
  tables : Heap Word Slot
  mallocs : Nat

/-- The directory indices of a page number. -/
structure PageDirs where
  pgd : Word
  p4d : Word
  pud : Word
  pmd : Word
  pt : Word

/-- `get_pd_from_address` -/
def getPdFromAddress (addr : Word) : PageDirs where
  pgd := (addr &&& genmask 56 48) >>> 48
  p4d := (addr &&& genmask 47 39) >>> 39
  pud := (addr &&& genmask 38 30) >>> 30
  pmd := (addr &&& genmask 29 21) >>> 21
  pt := (addr &&& genmask 20 12) >>> 12

/-- `get_pd_from_pagenum` -/
def getPdFromPagenum (pgn : Word) : PageDirs := getPdFromAddress (pgn <<< 12)

/-- A table index; no directory index reaches 512, so this loses nothing. -/
def slot (idx : Word) : Slot := Fin.ofNat 512 idx.toNat

/-- The slots that lead from `mm->pgd` to the last-level table. -/
def PageDirs.path (dirs : PageDirs) : List Slot :=
  [slot dirs.pgd, slot dirs.p4d, slot dirs.pud, slot dirs.pmd]

section

variable (reply : Nat → Reply)

/-- `malloc` of a table. It never hands out `NULL` as a block nor a block that is
live, so a reply of that kind counts as a refusal. -/
def malloc (mm : Mm) : Mm × Word :=
  let after := { mm with mallocs := mm.mallocs + 1 }
  match reply mm.mallocs with
  | none => (after, 0)
  | some (block, garbage) =>
      if block = 0 ∨ (mm.tables block).isSome then (after, 0)
      else ({ after with tables := mm.tables.alloc block garbage }, block)

/-- "Access or allocate": the table in a slot, a fresh cleared one where there
was none. -/
def accessOrAllocate (mm : Mm) (table : Word) (idx : Slot) : Mm × Option Word :=
  if mm.tables.read table idx = 0 then
    let (mm, block) := malloc reply mm
    let mm := { mm with tables := mm.tables.write table idx block }
    if block = 0 then (mm, none)
    else ({ mm with tables := mm.tables.clear block (List.finRange 512) }, some block)
  else (mm, some (mm.tables.read table idx))

/-- The walk the setters share, level by level. -/
def walk : Mm → Word → List Slot → Mm × Option Word
  | mm, table, [] => (mm, some table)
  | mm, table, idx :: path =>
      match accessOrAllocate reply mm table idx with
      | (mm, none) => (mm, none)
      | (mm, some next) => walk mm next path

/-- The body the setters share: walk to the entry and replace it, `-1` where the
walk fails. -/
def setEntryBy (mm : Mm) (pgn : Word) (update : Word → Word) : Mm × Int :=
  let dirs := getPdFromPagenum pgn
  if mm.pgd = 0 then (mm, -1)
  else
    match walk reply mm mm.pgd dirs.path with
    | (mm, none) => (mm, -1)
    | (mm, some pt) =>
        let pte := mm.tables.read pt (slot dirs.pt)
        ({ mm with tables := mm.tables.write pt (slot dirs.pt) (update pte) }, 0)

/-- `pte_set_swap` -/
def pteSetSwap (mm : Mm) (pgn : Word) (swptyp : BitVec 32) (swpoff : Word) : Mm × Int :=
  setEntryBy reply mm pgn fun pte => Build.mm64.swapEntry pte (swptyp.signExtend 64) swpoff

/-- `pte_set_fpn` -/
def pteSetFpn (mm : Mm) (pgn fpn : Word) : Mm × Int :=
  setEntryBy reply mm pgn fun pte => Build.mm64.fpnEntry pte fpn

/-- `pte_set_entry` -/
def pteSetEntry (mm : Mm) (pgn pteVal : Word) : Mm × Int :=
  setEntryBy reply mm pgn fun _ => pteVal

/-- `pte_get_entry` -/
def pteGetEntry (mm : Mm) (pgn : Word) : Word :=
  let dirs := getPdFromPagenum pgn
  if mm.pgd = 0 then 0 else mm.tables.lookup mm.pgd dirs.path (slot dirs.pt)

/-- `PAGING_PGN(addr + pgit * PAGING_PAGESZ)`. The product is one of two `int`s
and wraps before it is widened to `addr_t`. -/
def pageAt (addr : Word) (pgit : Nat) : Word :=
  Build.mm64.pagingPgn (addr + (BitVec.ofNat 32 pgit * BitVec.ofNat 32 4096).signExtend 64)

/-- The loop of `vmap_pgd_memset`, with `left` iterations to go. -/
def memsetFrom (addr : Word) : Mm → (pgit left : Nat) → Mm × Int
  | mm, _, 0 => (mm, 0)
  | mm, pgit, left + 1 =>
      let (mm, ret) := pteSetEntry reply mm (pageAt addr pgit) 0
      if ret < 0 then (mm, -1) else memsetFrom addr mm (pgit + 1) left

/-- `vmap_pgd_memset` -/
def vmapPgdMemset (mm : Mm) (addr : Word) (pgnum : BitVec 32) : Mm × Int :=
  memsetFrom reply addr mm 0 pgnum.toInt.toNat

/-- What `init_mm` does for the page table: a cleared top-level table, or failure. -/
def initMm : Option Mm :=
  let (mm, pgd) := malloc reply ⟨0, fun _ => none, 0⟩
  if pgd = 0 then none
  else some { mm with pgd := pgd, tables := mm.tables.clear pgd (List.finRange 512) }

end

end SimpleOs.Mem.Mm64
