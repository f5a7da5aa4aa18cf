import SimpleOs.Lib.Transition
import SimpleOs.Mem.Frames

/-!
# What an entry decodes to

`pte_set_fpn`, `pte_set_swap` and updates of the dirty flag, in any order on one
page. An entry is to say afterwards what the setter was told, and to keep its
marks, the dirty flag and the user number. `pte_set_fpn` does this for frame
numbers that fit the field. `pte_set_swap` never does: it sets `PRESENT`, which
the fault handler asks first, and in the 32-bit build the swap offset lies across
the user number.
-/

namespace SimpleOs.Mem

variable {b : Build}

inductive EntryOp (b : Build) where
  | pteSetFpn (fpn : b.Word)
  | pteSetSwap (swptyp : BitVec 32) (swpoff : b.Word)
  | dirty (on : Bool)

namespace EntryOp

/-- The operation on page `pgn`; the dirty flag is changed by `pte_get_entry` and
`pte_set_entry`. -/
def apply (mm : Mm b) (pgn : b.Word) : EntryOp b → Mm b
  | pteSetFpn fpn => mm.pteSetFpn pgn fpn
  | pteSetSwap swptyp swpoff => mm.pteSetSwap pgn swptyp swpoff
  | dirty on =>
      let pte := mm.pteGetEntry pgn
      mm.pteSetEntry pgn (if on then b.dirtyEntry pte else b.cleanEntry pte)

/-- Frame numbers come from the free lists of RAM and swap, and there are four types
of swap. -/
def Issued (mram mswp : Memphy b) : EntryOp b → Prop
  | pteSetFpn fpn => fpn ∈ mram.freeFpList
  | pteSetSwap swptyp swpoff => swptyp.toNat ≤ 3 ∧ swpoff ∈ mswp.freeFpList
  | dirty _ => True

/-- The dirty flag and the user number are as before. -/
def SameMarks (before after : b.Word) : Prop :=
  b.pageDirty after = b.pageDirty before ∧ b.usrnum after = b.usrnum before

/-- The entry after the operation says what the operation was told. -/
def Decodes (before after : b.Word) : EntryOp b → Prop
  | pteSetFpn fpn => b.pagePresent after = true ∧ b.pageSwapped after = false ∧
      b.pagingFpn after = fpn ∧ SameMarks before after
  | pteSetSwap swptyp swpoff => b.pageSwapped after = true ∧ b.pagePresent after = false ∧
      b.pagingSwptyp after = swptyp.signExtend b.width ∧ b.pagingSwp after = swpoff ∧
      SameMarks before after
  | dirty _ => True

/-- A frame number fits the field `FPN`, and no page is entered as swapped. -/
def Fits : EntryOp b → Prop
  | pteSetFpn fpn => fpn.toNat < b.frames
  | pteSetSwap _ _ => False
  | dirty _ => True

end EntryOp

/-- Operations on the entry of one page. -/
def entrySystem (pgn : b.Word) : TransitionSystem (Mm b) (EntryOp b) where
  init _ := True
  step mm op := some (op.apply mm pgn)

/-- Each operation of the sequence leaves an entry that decodes to what it was told. -/
def EntriesDecode (mm : Mm b) (pgn : b.Word) (ops : List (EntryOp b)) : Prop :=
  (entrySystem pgn).StepsMeet
    (fun mm op => op.Decodes (mm.pteGetEntry pgn) ((op.apply mm pgn).pteGetEntry pgn)) mm ops

section Entries

variable {pgn : b.Word}

/-- What holds of an entry after `pte_set_swap`: all that is to hold, but for `PRESENT`,
and for the user number where the swap offset lies across it. -/
theorem swapEntry_decodes (pte : b.Word) {swptyp swpoff : b.Word}
    (typ : swptyp.toNat < 2 ^ (b.swptypHibit + 1)) (fits : swpoff.toNat < b.swapFrames)
    (above : b.swpoffHibit < b.usrnumLobit) :
    b.pageSwapped (b.swapEntry pte swptyp swpoff) = true ∧
      b.pagingSwptyp (b.swapEntry pte swptyp swpoff) = swptyp ∧
      b.pagingSwp (b.swapEntry pte swptyp swpoff) = swpoff ∧
      EntryOp.SameMarks pte (b.swapEntry pte swptyp swpoff) :=
  ⟨b.pageSwapped_swapEntry _ _ _, b.pagingSwptyp_swapEntry pte typ swpoff,
    b.pagingSwp_swapEntry pte swptyp fits, b.pageDirty_swapEntry _ _ _,
    b.usrnum_swapEntry pte above _ _⟩

theorem decodes_iff_fits (inTable : b.outOfTable pgn = false) (mm : Mm b) (op : EntryOp b) :
    op.Decodes (mm.pteGetEntry pgn) ((op.apply mm pgn).pteGetEntry pgn) ↔ op.Fits := by
  cases op with
  | pteSetFpn fpn =>
      have entry : ((mm.pteSetFpn pgn fpn).pteGetEntry pgn) = b.fpnEntry (mm.pteGetEntry pgn) fpn :=
        pteGetEntry_setEntryBy_self inTable
      show _ ∧ _ ∧ b.pagingFpn ((mm.pteSetFpn pgn fpn).pteGetEntry pgn) = fpn ∧ _ ↔ _
      rw [EntryOp.apply, entry, b.pagingFpn_fpnEntry_iff]
      constructor
      · exact fun decodes => decodes.2.2.1
      · exact fun fits => ⟨b.pagePresent_fpnEntry _ _, b.pageSwapped_fpnEntry _ _, fits,
          b.pageDirty_fpnEntry _ _, b.usrnum_fpnEntry _ _⟩
  | pteSetSwap swptyp swpoff =>
      have entry : ((mm.pteSetSwap pgn swptyp swpoff).pteGetEntry pgn) =
          b.swapEntry (mm.pteGetEntry pgn) (swptyp.signExtend b.width) swpoff :=
        pteGetEntry_setEntryBy_self inTable
      constructor
      · rintro ⟨-, absent, -⟩
        rw [EntryOp.apply, entry, b.pagePresent_swapEntry] at absent
        cases absent
      · exact False.elim
  | dirty on => exact Iff.rfl

/-- The entry of a page decodes to what it was told throughout a sequence of operations
exactly where every frame number fits and the page is never entered as swapped. -/
theorem entriesDecode_iff (inTable : b.outOfTable pgn = false) (mm : Mm b)
    (ops : List (EntryOp b)) : EntriesDecode mm pgn ops ↔ ∀ op ∈ ops, op.Fits := by
  induction ops generalizing mm with
  | nil => simp [EntriesDecode, TransitionSystem.StepsMeet]
  | cons op ops ih =>
      have later : (∀ mm', (entrySystem pgn).step mm op = some mm' → EntriesDecode mm' pgn ops) ↔
          EntriesDecode (op.apply mm pgn) pgn ops := by
        simp [entrySystem]
      rw [List.forall_mem_cons, ← ih (op.apply mm pgn), ← decodes_iff_fits inTable mm op, ← later]
      rfl

theorem entriesDecode_iff_pageZero :
    EntriesDecode (Mm.init .mm32) 0 [.pteSetFpn 5, .dirty true, .pteSetFpn 8191] ↔
      ∀ op ∈ [EntryOp.pteSetFpn (b := .mm32) 5, .dirty true, .pteSetFpn 8191], op.Fits :=
  entriesDecode_iff (by decide) _ _

/-- After `pte_set_swap` the page still passes for one in RAM. -/
theorem swapped_stays_present :
    ¬ ∀ (ramSz swpSz : Nat) (mm : Mm .mm32) (pgn : Build.mm32.Word) (ops : List (EntryOp .mm32)),
      Build.mm32.outOfTable pgn = false →
      (∀ op ∈ ops, op.Issued (.init .mm32 ramSz true) (.init .mm32 swpSz true)) →
      EntriesDecode mm pgn ops := by
  intro decode
  have issued : ∀ op ∈ [EntryOp.pteSetSwap (b := .mm32) 0 0],
      op.Issued (.init .mm32 256 true) (.init .mm32 256 true) := by
    intro op member
    rw [List.mem_singleton.mp member]
    exact ⟨by decide, List.mem_singleton.mpr rfl⟩
  have decodes := decode 256 256 (.init .mm32) 0 _ (by decide) issued
  exact (entriesDecode_iff (by decide) _ _).mp decodes _ List.mem_cons_self

end Entries

end SimpleOs.Mem
