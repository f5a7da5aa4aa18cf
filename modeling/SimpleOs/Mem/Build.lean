import Mathlib.Order.Basic
import Mathlib.Order.Nat
import SimpleOs.Lib.Bitfield

/-!
# The two builds

`mm.h` gives the 32-bit build and the MM64 build the same macros over different
constants. A `Layout` is such a list of constants, and a `Build` is one whose
fields fit the word and keep clear of the flags.
-/

namespace SimpleOs.Mem

open Bitfield

/-- The constants of `mm.h` that depend on `MM64`. -/
structure Layout where
  /-- Bits of `addr_t` and of `pte_t`. -/
  width : Nat
  /-- `NBITS(PAGING_PAGESZ)`, which is also `PAGING_ADDR_PGN_LOBIT`. -/
  pageBits : Nat
  /-- `PAGING_ADDR_PGN_HIBIT` -/
  pgnHibit : Nat
  present : Nat
  swapped : Nat
  dirty : Nat
  fpnHibit : Nat
  swptypHibit : Nat
  swpoffLobit : Nat
  swpoffHibit : Nat
  usrnumLobit : Nat
  usrnumHibit : Nat
  /-- Bits of a page number that index the page table. -/
  indexBits : Nat
  /-- `mm.c` refuses a page number from `PAGING_MAX_PGN` on, `mm64.c` ignores
  the bits beyond its five indices. -/
  refuses : Bool

/-- `PAGING_SWPFPN_OFFSET` -/
def swpfpnOffset : Nat := 5

namespace Layout

/-- The fields of an entry lie below its flags, the flags are distinct bits of
the word, and the swap type lies below the swap offset. -/
structure WellFormed (l : Layout) : Prop where
  offst : 0 < l.pageBits
  page : l.pageBits ≤ l.pgnHibit
  address : l.pgnHibit < l.width
  fpn : l.fpnHibit < l.dirty
  swptyp : l.swptypHibit < l.swpoffLobit
  swpoff : l.swpoffLobit ≤ l.swpoffHibit
  swpoff_flags : l.swpoffHibit < l.dirty
  swapped : l.dirty < l.swapped
  present : l.swapped < l.present
  word : l.present < l.width
  index : l.indexBits ≤ l.pgnHibit + 1 - l.pageBits
  /-- Where page numbers are refused, an address never yields such a number. -/
  refusal : l.refuses = true → l.pgnHibit + 1 - l.pageBits ≤ l.indexBits
  /-- Every byte of every frame an entry can name has an address. -/
  frame : l.fpnHibit + 1 + l.pageBits ≤ l.width
  /-- An `addr_t` is at least an `int`. -/
  int : 32 ≤ l.width
  /-- `PAGING_SWP` shifts by a constant of its own, which agrees with the field. -/
  offset : l.swpoffLobit = swpfpnOffset
  usrnum : l.fpnHibit < l.usrnumLobit
  usrnum_flags : l.usrnumHibit < l.dirty
  /-- Every byte of every swap frame an entry can name has an address. -/
  swapFrame : l.swpoffHibit + 1 - l.swpoffLobit + l.pageBits ≤ l.width

/-- Without `MM64`: a 22-bit bus, pages of 256 bytes and 32-bit entries. -/
def bits32 : Layout where
  width := 32
  pageBits := 8
  pgnHibit := 21
  present := 31
  swapped := 30
  dirty := 28
  fpnHibit := 12
  swptypHibit := 4
  swpoffLobit := 5
  swpoffHibit := 25
  usrnumLobit := 15
  usrnumHibit := 27
  indexBits := 14
  refuses := true

/-- With `MM64`: 64-bit addresses, pages of 4096 bytes and 64-bit entries. -/
def bits64 : Layout where
  width := 64
  pageBits := 12
  pgnHibit := 63
  present := 63
  swapped := 62
  dirty := 60
  fpnHibit := 31
  swptypHibit := 4
  swpoffLobit := 5
  swpoffHibit := 31
  usrnumLobit := 32
  usrnumHibit := 59
  indexBits := 45
  refuses := false

theorem bits32_wellFormed : bits32.WellFormed := by
  constructor <;> decide

theorem bits64_wellFormed : bits64.WellFormed := by
  constructor <;> decide

end Layout

/-- A layout that passes its own checks. -/
structure Build extends Layout where
  wellFormed : toLayout.WellFormed

namespace Build

def mm32 : Build := ⟨.bits32, Layout.bits32_wellFormed⟩

def mm64 : Build := ⟨.bits64, Layout.bits64_wellFormed⟩

variable (b : Build)

/-- `addr_t` and `pte_t` -/
abbrev Word : Type := BitVec b.width

/-- `PAGING_PAGESZ` -/
def pageSz : Nat := 2 ^ b.pageBits

/-- `PAGING_PGN` -/
def pagingPgn (addr : b.Word) : b.Word :=
  getval addr (genmask b.pgnHibit b.pageBits) b.pageBits

/-- `PAGING_OFFST` -/
def pagingOffst (addr : b.Word) : b.Word := getval addr (genmask (b.pageBits - 1) 0) 0

/-- `PAGING_PAGE_PRESENT` -/
def pagePresent (pte : b.Word) : Bool := pte &&& bit b.present != 0

/-- `pte & PAGING_PTE_SWAPPED_MASK` -/
def pageSwapped (pte : b.Word) : Bool := pte &&& bit b.swapped != 0

/-- `PAGING_FPN` -/
def pagingFpn (pte : b.Word) : b.Word := getval pte (genmask b.fpnHibit 0) 0

/-- `PAGING_SWP` -/
def pagingSwp (pte : b.Word) : b.Word :=
  getval pte (genmask b.swpoffHibit b.swpoffLobit) swpfpnOffset

/-- The swap type of an entry, under `PAGING_PTE_SWPTYP_MASK`. -/
def pagingSwptyp (pte : b.Word) : b.Word := getval pte (genmask b.swptypHibit 0) 0

/-- `pte & PAGING_PTE_DIRTY_MASK` -/
def pageDirty (pte : b.Word) : Bool := pte &&& bit b.dirty != 0

/-- The user number of an entry, under `PAGING_PTE_USRNUM_MASK`. -/
def usrnum (pte : b.Word) : b.Word :=
  getval pte (genmask b.usrnumHibit b.usrnumLobit) b.usrnumLobit

/-- `pte |= PAGING_PTE_DIRTY_MASK` -/
def dirtyEntry (pte : b.Word) : b.Word := setbit pte (bit b.dirty)

/-- `pte &= ~PAGING_PTE_DIRTY_MASK` -/
def cleanEntry (pte : b.Word) : b.Word := clrbit pte (bit b.dirty)

/-- The entry `pte_set_swap` leaves behind. -/
def swapEntry (pte swptyp swpoff : b.Word) : b.Word :=
  let pte := setbit pte (bit b.present)
  let pte := setbit pte (bit b.swapped)
  let pte := setval pte swptyp (genmask b.swptypHibit 0) 0
  setval pte swpoff (genmask b.swpoffHibit b.swpoffLobit) b.swpoffLobit

/-- The entry `pte_set_fpn` leaves behind. -/
def fpnEntry (pte fpn : b.Word) : b.Word :=
  let pte := setbit pte (bit b.present)
  let pte := clrbit pte (bit b.swapped)
  setval pte fpn (genmask b.fpnHibit 0) 0

/-- Frames whose number fits the `FPN` field. -/
def frames : Nat := 2 ^ (b.fpnHibit + 1)

/-- Swap frames whose number fits the `SWPOFF` field. -/
def swapFrames : Nat := 2 ^ (b.swpoffHibit + 1 - b.swpoffLobit)

theorem toNat_pagingPgn (addr : b.Word) :
    (b.pagingPgn addr).toNat =
      addr.toNat / 2 ^ b.pageBits % 2 ^ (b.pgnHibit + 1 - b.pageBits) :=
  toNat_getval b.wellFormed.address addr

theorem toNat_pagingOffst (addr : b.Word) : (b.pagingOffst addr).toNat = addr.toNat % b.pageSz := by
  have wf := b.wellFormed
  have hibit : b.pageBits - 1 < b.width := by
    have := wf.page; have := wf.address
    omega
  rw [pagingOffst, toNat_getval hibit, pow_zero, Nat.div_one, Nat.sub_zero, Nat.sub_add_cancel wf.offst,
    pageSz]

theorem pageSz_pos : 0 < b.pageSz := Nat.two_pow_pos _

theorem pageSz_lt : b.pageSz < 2 ^ b.width :=
  Nat.pow_lt_pow_right (by decide) (b.wellFormed.page.trans_lt b.wellFormed.address)

/-- An address is a page and an offset into it. -/
theorem addr_eq_iff {addr page off : Nat} (inPage : off < b.pageSz) :
    addr = page * b.pageSz + off ↔ addr / b.pageSz = page ∧ addr % b.pageSz = off := by
  rw [Nat.div_mod_unique b.pageSz_pos, Nat.mul_comm, Nat.add_comm]
  exact ⟨fun same => ⟨same.symm, inPage⟩, fun same => same.1.symm⟩

/-- A byte of a frame has an address where the frame number has a bounded number of bits. -/
theorem cell_lt {bits fpn off : Nat} (room : bits + b.pageBits ≤ b.width) (fits : fpn < 2 ^ bits)
    (inPage : off < b.pageSz) : fpn * b.pageSz + off < 2 ^ b.width := by
  have below : (fpn + 1) * b.pageSz ≤ 2 ^ bits * b.pageSz := Nat.mul_le_mul_right _ fits
  have whole : 2 ^ bits * b.pageSz ≤ 2 ^ b.width := by
    rw [pageSz, ← pow_add]
    exact Nat.pow_le_pow_right (by decide) room
  rw [Nat.add_mul, one_mul] at below
  omega

theorem frame_lt {fpn off : Nat} (fits : fpn < b.frames) (inPage : off < b.pageSz) :
    fpn * b.pageSz + off < 2 ^ b.width :=
  b.cell_lt b.wellFormed.frame fits inPage

section Entries

variable (pte : b.Word)

theorem dirty_lt : b.dirty < b.width :=
  b.wellFormed.swapped.trans (b.wellFormed.present.trans b.wellFormed.word)

theorem swapped_lt : b.swapped < b.width := b.wellFormed.present.trans b.wellFormed.word

theorem fpnHibit_lt : b.fpnHibit < b.width := b.wellFormed.fpn.trans b.dirty_lt

theorem swpoffHibit_lt : b.swpoffHibit < b.width := b.wellFormed.swpoff_flags.trans b.dirty_lt

theorem swptypHibit_lt : b.swptypHibit < b.width :=
  (b.wellFormed.swptyp.trans_le b.wellFormed.swpoff).trans b.swpoffHibit_lt

theorem pagePresent_eq : b.pagePresent pte = pte.getLsbD b.present :=
  and_bit_ne_zero b.wellFormed.word pte

theorem pageSwapped_eq : b.pageSwapped pte = pte.getLsbD b.swapped :=
  and_bit_ne_zero b.swapped_lt pte

/-- The bits of an entry after `pte_set_swap`. -/
theorem getLsbD_swapEntry (swptyp swpoff : b.Word) (i : Nat) :
    (b.swapEntry pte swptyp swpoff).getLsbD i =
      if b.swpoffLobit ≤ i ∧ i ≤ b.swpoffHibit then swpoff.getLsbD (i - b.swpoffLobit)
      else if i ≤ b.swptypHibit then swptyp.getLsbD i
      else pte.getLsbD i || decide (i = b.present) || decide (i = b.swapped) := by
  simp only [swapEntry, getLsbD_setval b.swpoffHibit_lt, getLsbD_setval b.swptypHibit_lt,
    getLsbD_setbit b.swapped_lt, getLsbD_setbit b.wellFormed.word, Nat.zero_le, true_and,
    Nat.sub_zero]

/-- The bits of an entry after `pte_set_fpn`. -/
theorem getLsbD_fpnEntry (fpn : b.Word) (i : Nat) :
    (b.fpnEntry pte fpn).getLsbD i =
      if i ≤ b.fpnHibit then fpn.getLsbD i
      else (pte.getLsbD i || decide (i = b.present)) && !decide (i = b.swapped) := by
  simp only [fpnEntry, getLsbD_setval b.fpnHibit_lt, getLsbD_clrbit b.swapped_lt,
    getLsbD_setbit b.wellFormed.word, Nat.zero_le, true_and, Nat.sub_zero]

/-- The bits above `DIRTY` lie in no field. -/
theorem above_fields {i : Nat} (above : b.dirty < i) :
    ¬ (b.swpoffLobit ≤ i ∧ i ≤ b.swpoffHibit) ∧ ¬ i ≤ b.swptypHibit ∧ ¬ i ≤ b.fpnHibit := by
  obtain ⟨_, _, _, fpn, swptyp, swpoff, swpoff_flags⟩ := b.wellFormed
  omega

theorem dirty_lt_present : b.dirty < b.present := b.wellFormed.swapped.trans b.wellFormed.present

@[simp] theorem pagePresent_zero : b.pagePresent 0#b.width = false := by
  rw [pagePresent_eq]
  exact BitVec.getLsbD_zero

@[simp] theorem pageSwapped_zero : b.pageSwapped 0#b.width = false := by
  rw [pageSwapped_eq]
  exact BitVec.getLsbD_zero

@[simp] theorem pagePresent_swapEntry (swptyp swpoff : b.Word) :
    b.pagePresent (b.swapEntry pte swptyp swpoff) = true := by
  obtain ⟨field, typ, -⟩ := b.above_fields b.dirty_lt_present
  rw [pagePresent_eq, getLsbD_swapEntry, if_neg field, if_neg typ]
  simp

@[simp] theorem pageSwapped_swapEntry (swptyp swpoff : b.Word) :
    b.pageSwapped (b.swapEntry pte swptyp swpoff) = true := by
  obtain ⟨field, typ, -⟩ := b.above_fields b.wellFormed.swapped
  rw [pageSwapped_eq, getLsbD_swapEntry, if_neg field, if_neg typ]
  simp

/-- A swap frame number is read back where it fits its field. -/
theorem pagingSwp_swapEntry (swptyp : b.Word) {swpoff : b.Word}
    (fits : swpoff.toNat < b.swapFrames) :
    b.pagingSwp (b.swapEntry pte swptyp swpoff) = swpoff := by
  rw [pagingSwp, ← b.wellFormed.offset]
  exact getval_setval b.swpoffHibit_lt b.wellFormed.swpoff _ fits

@[simp] theorem pagePresent_fpnEntry (fpn : b.Word) :
    b.pagePresent (b.fpnEntry pte fpn) = true := by
  obtain ⟨-, -, field⟩ := b.above_fields b.dirty_lt_present
  have apart : b.present ≠ b.swapped := b.wellFormed.present.ne'
  rw [pagePresent_eq, getLsbD_fpnEntry, if_neg field]
  simp [apart]

@[simp] theorem pageSwapped_fpnEntry (fpn : b.Word) :
    b.pageSwapped (b.fpnEntry pte fpn) = false := by
  obtain ⟨-, -, field⟩ := b.above_fields b.wellFormed.swapped
  rw [pageSwapped_eq, getLsbD_fpnEntry, if_neg field]
  simp

theorem frames_le : b.frames ≤ 2 ^ b.width := Nat.pow_le_pow_right (by decide) b.fpnHibit_lt

theorem pagingFpn_lt (pte : b.Word) : (b.pagingFpn pte).toNat < b.frames := by
  rw [pagingFpn, toNat_getval b.fpnHibit_lt]
  exact Nat.mod_lt _ (Nat.two_pow_pos _)

/-- A frame number is read back where it fits its field. -/
theorem pagingFpn_fpnEntry {fpn : b.Word} (fits : fpn.toNat < b.frames) :
    b.pagingFpn (b.fpnEntry pte fpn) = fpn :=
  getval_setval b.fpnHibit_lt (Nat.zero_le _) _ fits

/-- A frame number is read back only where it fits its field. -/
theorem pagingFpn_fpnEntry_iff (fpn : b.Word) :
    b.pagingFpn (b.fpnEntry pte fpn) = fpn ↔ fpn.toNat < b.frames :=
  getval_setval_iff b.fpnHibit_lt (Nat.zero_le _) _ fpn

/-- What is read back of a frame number is at most the number. -/
theorem pagingFpn_fpnEntry_le (fpn : b.Word) :
    (b.pagingFpn (b.fpnEntry pte fpn)).toNat ≤ fpn.toNat := by
  have field : b.pagingFpn (b.fpnEntry pte fpn) = b.pagingFpn fpn := by
    apply getval_congr b.fpnHibit_lt
    intro i _ inField
    rw [getLsbD_fpnEntry, if_pos inField]
  rw [field, pagingFpn, toNat_getval b.fpnHibit_lt, pow_zero, Nat.div_one]
  exact Nat.mod_le _ _

theorem pageDirty_eq : b.pageDirty pte = pte.getLsbD b.dirty := and_bit_ne_zero b.dirty_lt pte

@[simp] theorem pageDirty_fpnEntry (fpn : b.Word) :
    b.pageDirty (b.fpnEntry pte fpn) = b.pageDirty pte := by
  have field : ¬ b.dirty ≤ b.fpnHibit := Nat.not_le.mpr b.wellFormed.fpn
  rw [pageDirty_eq, pageDirty_eq, getLsbD_fpnEntry, if_neg field]
  simp [b.dirty_lt_present.ne, b.wellFormed.swapped.ne]

@[simp] theorem usrnum_fpnEntry (fpn : b.Word) : b.usrnum (b.fpnEntry pte fpn) = b.usrnum pte := by
  have wf := b.wellFormed
  refine getval_congr (wf.usrnum_flags.trans b.dirty_lt) ?_
  intro i low high
  have below : i < b.dirty := high.trans_lt wf.usrnum_flags
  have field : ¬ i ≤ b.fpnHibit := Nat.not_le.mpr (wf.usrnum.trans_le low)
  rw [getLsbD_fpnEntry, if_neg field]
  simp [(below.trans b.dirty_lt_present).ne, (below.trans wf.swapped).ne]

/-- A swap type is read back where it fits its field. -/
theorem pagingSwptyp_swapEntry {swptyp : b.Word} (fits : swptyp.toNat < 2 ^ (b.swptypHibit + 1))
    (swpoff : b.Word) : b.pagingSwptyp (b.swapEntry pte swptyp swpoff) = swptyp := by
  refine Eq.trans (getval_congr b.swptypHibit_lt ?_)
    (getval_setval b.swptypHibit_lt (Nat.zero_le _) pte fits)
  intro i _ below
  have field : ¬ (b.swpoffLobit ≤ i ∧ i ≤ b.swpoffHibit) := by
    have := b.wellFormed.swptyp
    omega
  rw [getLsbD_swapEntry, if_neg field, if_pos below, getLsbD_setval b.swptypHibit_lt,
    if_pos ⟨Nat.zero_le i, below⟩, Nat.sub_zero]

@[simp] theorem pageDirty_swapEntry (swptyp swpoff : b.Word) :
    b.pageDirty (b.swapEntry pte swptyp swpoff) = b.pageDirty pte := by
  have wf := b.wellFormed
  have field : ¬ (b.swpoffLobit ≤ b.dirty ∧ b.dirty ≤ b.swpoffHibit) := by
    have := wf.swpoff_flags
    omega
  have typ : ¬ b.dirty ≤ b.swptypHibit :=
    Nat.not_le.mpr ((wf.swptyp.trans_le wf.swpoff).trans wf.swpoff_flags)
  rw [pageDirty_eq, pageDirty_eq, getLsbD_swapEntry, if_neg field, if_neg typ]
  simp [b.dirty_lt_present.ne, wf.swapped.ne]

/-- The user number survives where it lies above the swap offset. -/
theorem usrnum_swapEntry (above : b.swpoffHibit < b.usrnumLobit) (swptyp swpoff : b.Word) :
    b.usrnum (b.swapEntry pte swptyp swpoff) = b.usrnum pte := by
  have wf := b.wellFormed
  refine getval_congr (wf.usrnum_flags.trans b.dirty_lt) ?_
  intro i low high
  have below : i < b.dirty := high.trans_lt wf.usrnum_flags
  have field : ¬ (b.swpoffLobit ≤ i ∧ i ≤ b.swpoffHibit) := by omega
  have typ : ¬ i ≤ b.swptypHibit := by
    have := wf.swptyp
    have := wf.swpoff
    omega
  rw [getLsbD_swapEntry, if_neg field, if_neg typ]
  simp [(below.trans b.dirty_lt_present).ne, (below.trans wf.swapped).ne]

theorem getLsbD_dirtyEntry {i : Nat} (other : i ≠ b.dirty) :
    (b.dirtyEntry pte).getLsbD i = pte.getLsbD i := by
  rw [dirtyEntry, getLsbD_setbit b.dirty_lt]
  simp [other]

@[simp] theorem pagePresent_dirtyEntry : b.pagePresent (b.dirtyEntry pte) = b.pagePresent pte := by
  rw [pagePresent_eq, pagePresent_eq, getLsbD_dirtyEntry b pte b.dirty_lt_present.ne']

@[simp] theorem pageSwapped_dirtyEntry : b.pageSwapped (b.dirtyEntry pte) = b.pageSwapped pte := by
  rw [pageSwapped_eq, pageSwapped_eq, getLsbD_dirtyEntry b pte b.wellFormed.swapped.ne']

@[simp] theorem pagingFpn_dirtyEntry : b.pagingFpn (b.dirtyEntry pte) = b.pagingFpn pte := by
  refine getval_congr b.fpnHibit_lt ?_
  intro i _ below
  exact getLsbD_dirtyEntry b pte (below.trans_lt b.wellFormed.fpn).ne

@[simp] theorem pagingSwp_dirtyEntry : b.pagingSwp (b.dirtyEntry pte) = b.pagingSwp pte := by
  rw [pagingSwp, pagingSwp, ← b.wellFormed.offset]
  refine getval_congr b.swpoffHibit_lt ?_
  intro i _ below
  exact getLsbD_dirtyEntry b pte (below.trans_lt b.wellFormed.swpoff_flags).ne

end Entries

end Build
end SimpleOs.Mem
