import SimpleOs.Mem.Memphy

/-!
# The memory side of the kernel

The state behind `libmem.c`: every process has a page table, its areas and
regions and a FIFO list of pages, and all share one RAM and one active swap
device. The page table is the flat array that both `mm.c` and `mm64.c` provide;
requests to the host's `malloc` are granted.

A function that returns an `Option` at its outermost gives `none` where the code
dereferences `NULL` or writes outside its tables.
-/

namespace SimpleOs.Mem

/-- `PAGING_MAX_SYMTBL_SZ` -/
abbrev pagingMaxSymtblSz : Nat := 30

instance : NeZero pagingMaxSymtblSz := ⟨by decide⟩

/-- `struct vm_rg_struct`, the interval from `rg_start` up to `rg_end`. -/
structure Region (b : Build) where
  rgStart : b.Word
  rgEnd : b.Word
  deriving DecidableEq

/-- `struct vm_area_struct` -/
structure Vma (b : Build) where
  vmId : Int
  vmStart : b.Word
  vmEnd : b.Word
  sbrk : b.Word
  vmFreergList : List (Region b)

/-- The list `fifo_pgn`, newest page first. It is `wild` when its last link is no
pointer to a page node. -/
structure Fifo (b : Build) where
  pgns : List b.Word
  wild : Bool

/-- `struct mm_struct` -/
structure Mm (b : Build) where
  pgd : Fin (2 ^ b.indexBits) → b.Word
  mmap : List (Vma b)
  symrgtbl : Fin pagingMaxSymtblSz → Region b
  fifoPgn : Fifo b

/-- `struct krnl_t` with the `mm` of every process. -/
structure Machine (b : Build) (P : Type) where
  mm : P → Mm b
  mram : Memphy b
  activeMswp : Memphy b
  activeMswpId : BitVec 32
  /-- `krnl->mm`, which no code sets. -/
  krnlMm : Option P

variable {b : Build}

/-- The page-table index of a page number. -/
def Build.index (b : Build) (pgn : b.Word) : Fin (2 ^ b.indexBits) :=
  ⟨pgn.toNat % 2 ^ b.indexBits, Nat.mod_lt _ (Nat.two_pow_pos _)⟩

/-- `pgn >= PAGING_MAX_PGN`, where the build checks it. -/
def Build.outOfTable (b : Build) (pgn : b.Word) : Bool :=
  b.refuses && decide (2 ^ b.indexBits ≤ pgn.toNat)

namespace Mm

/-- `pte_get_entry` -/
def pteGetEntry (mm : Mm b) (pgn : b.Word) : b.Word :=
  if b.outOfTable pgn then 0 else mm.pgd (b.index pgn)

/-- The body of the setters. -/
def setEntryBy (mm : Mm b) (pgn : b.Word) (update : b.Word → b.Word) : Mm b :=
  if b.outOfTable pgn then mm
  else { mm with
    pgd := Function.update mm.pgd (b.index pgn) (update (mm.pgd (b.index pgn))) }

/-- `pte_set_entry` -/
def pteSetEntry (mm : Mm b) (pgn pteVal : b.Word) : Mm b := mm.setEntryBy pgn fun _ => pteVal

/-- `pte_set_swap` -/
def pteSetSwap (mm : Mm b) (pgn : b.Word) (swptyp : BitVec 32) (swpoff : b.Word) : Mm b :=
  mm.setEntryBy pgn fun pte => b.swapEntry pte (swptyp.signExtend b.width) swpoff

/-- `pte_set_fpn` -/
def pteSetFpn (mm : Mm b) (pgn fpn : b.Word) : Mm b :=
  mm.setEntryBy pgn fun pte => b.fpnEntry pte fpn

/-- `enlist_pgn_node(&mm->fifo_pgn, pgn)` -/
def enlistPgnNode (mm : Mm b) (pgn : b.Word) : Mm b :=
  { mm with fifoPgn := { mm.fifoPgn with pgns := pgn :: mm.fifoPgn.pgns } }

/-- What `init_mm` sets up: an empty page table, area 0 with one empty free
region, no symbols and no pages in RAM. -/
def init (b : Build) : Mm b where
  pgd := fun _ => 0
  mmap := [⟨0, 0, 0, 0, [⟨0, 0⟩]⟩]
  symrgtbl := fun _ => ⟨0, 0⟩
  fifoPgn := ⟨[], false⟩

end Mm

namespace Machine

variable {P : Type} [DecidableEq P]

def setMm (m : Machine b P) (p : P) (mm : Mm b) : Machine b P :=
  { m with mm := Function.update m.mm p mm }

/-- Processes fresh from `init_mm` on a RAM and a swap device. -/
def boot (mram activeMswp : Memphy b) : Machine b P where
  mm := fun _ => .init b
  mram := mram
  activeMswp := activeMswp
  activeMswpId := 0
  krnlMm := none

@[simp] theorem mm_setMm_self (m : Machine b P) (p : P) (mm : Mm b) : (m.setMm p mm).mm p = mm := by
  simp [setMm]

@[simp] theorem setMm_mm (m : Machine b P) (p : P) : m.setMm p (m.mm p) = m := by
  simp [setMm]

theorem mm_setMm_of_ne (m : Machine b P) {p q : P} (other : q ≠ p) (mm : Mm b) :
    (m.setMm p mm).mm q = m.mm q := by
  simp [setMm, other]

@[simp] theorem activeMswp_setMm (m : Machine b P) (p : P) (mm : Mm b) :
    (m.setMm p mm).activeMswp = m.activeMswp := rfl

end Machine

end SimpleOs.Mem
