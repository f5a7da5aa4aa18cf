import SimpleOs.Mem.Exclusive

/-!
# What a page fault does

A fault that succeeds moves at most one page out and brings one page in, and
nothing else moves. A fault that fails changes nothing, unless it fails at the
last step before it would succeed: when swap is full the victim has already left
the FIFO list, and no later fault finds it.
-/

namespace SimpleOs.Mem

variable {b : Build} {P : Type}

namespace Machine

variable [DecidableEq P] {m m' : Machine b P} {p : P} {pgn : b.Word} {junk : Nat → Byte}
  {result : Option b.Word}

/-- Everything a page fault could change is as before, seen from process `p`. -/
structure Intact (p : P) (m m' : Machine b P) : Prop where
  entries : ∀ q, (m'.mm q).pgd = (m.mm q).pgd
  fifo : (m'.mm p).fifoPgn = (m.mm p).fifoPgn
  ramFree : m'.mram.freeFpList = m.mram.freeFpList
  swapFree : m'.activeMswp.freeFpList = m.activeMswp.freeFpList
  ram : m'.mram.storage = m.mram.storage
  swap : m'.activeMswp.storage = m.activeMswp.storage

/-- The page is not in RAM, there is a victim for it, and no swap frame for the victim. -/
structure VictimStuck (m : Machine b P) (caller : P) (pgn : b.Word) : Prop where
  absent : b.pagePresent ((m.mm caller).pteGetEntry pgn) = false
  ramFull : m.mram.freeFpList = []
  swapFull : m.activeMswp.freeFpList = []
  proper : (m.mm caller).fifoPgn.wild = false
  victim : 2 ≤ (m.mm caller).fifoPgn.pgns.length

theorem VictimStuck.unlists (stuck : m.VictimStuck p pgn) (junk : Nat → Byte) :
    ∃ m', m.pgGetpage p pgn junk = some (m', none) ∧
      (m'.mm p).fifoPgn ≠ (m.mm p).fifoPgn := by
  obtain ⟨absent, ramFull, swapFull, proper, victim⟩ := stuck
  have noFrame : m.mram.getFreefp = none := Memphy.getFreefp_eq_none.mpr ramFull
  have noSwap : m.activeMswp.getFreefp = none := Memphy.getFreefp_eq_none.mpr swapFull
  obtain ⟨⟨vicpgn, fifo⟩, found⟩ := exists_victim proper victim
  refine ⟨m.setMm p { m.mm p with fifoPgn := fifo }, ?_, ?_⟩
  · simp [pgGetpage, absent, takeFrame, noFrame, swapOut, found, noSwap]
  · obtain ⟨list, -⟩ := findVictimPage_spec found
    rw [mm_setMm_self]
    intro same
    have length := congrArg (fun fifo => fifo.pgns.length) same
    simp [list] at length

/-- A failed fault leaves the state as it was, except where it found a victim and
no swap frame for it. -/
theorem failed_fault_intact_iff (m : Machine b P) (p : P) (pgn : b.Word) (junk : Nat → Byte) :
    (∀ m', m.pgGetpage p pgn junk = some (m', none) → Intact p m m') ↔
      ¬ m.VictimStuck p pgn := by
  constructor
  · intro intact stuck
    obtain ⟨m', failed, changed⟩ := stuck.unlists junk
    exact changed (intact m' failed).fifo
  · intro unstuck m' done
    obtain ⟨-, -, found⟩ | ⟨absent, ⟨failed, -⟩ | ⟨_, _, -, -, found⟩⟩ := pgGetpage_cases done
    · cases found
    · obtain ⟨_, _, -, -, got⟩ | ⟨noFrame, swapped⟩ := takeFrame_cases failed
      · cases got
      · obtain ⟨-, rfl, -⟩ | ⟨vicpgn, fifo, found, action⟩ := swapOut_cases swapped
        · exact ⟨fun _ => rfl, rfl, rfl, rfl, rfl, rfl⟩
        · obtain ⟨noSwap, -, -⟩ | ⟨_, _, -, -, got⟩ := action
          · obtain ⟨-, -, proper, victim⟩ := findVictimPage_spec found
            exact absurd ⟨absent, Memphy.getFreefp_eq_none.mp noFrame,
              Memphy.getFreefp_eq_none.mp noSwap, proper, victim⟩ unstuck
          · cases got
    · cases found

/-- Four pages have gone through a RAM of two frames, and swap is full. -/
def fourPages : List (MemCall .mm32 Unit) :=
  threePages ++ [.libwrite () 4 0 768 0 fun _ => 0]

/-- The fault on a fifth page fails, and one of the two pages in RAM is unlisted. -/
theorem full_swap_unlists :
    ¬ ∀ (calls : List (MemCall .mm32 Unit)) (m m' : Machine .mm32 Unit) (pgn : Build.mm32.Word),
      (memSystem .mm32 Unit).run (boot (.init .mm32 512 true) (.init .mm32 512 true)) calls =
        some m → m.pgGetpage () pgn (fun _ => 0) = some (m', none) → Intact () m m' := by
  intro intact
  have replay : ((memSystem .mm32 Unit).run
      (boot (.init .mm32 512 true) (.init .mm32 512 true)) fourPages).any (fun m =>
        (m.pgGetpage () 4 fun _ => 0).any fun (m', result) =>
          result == none && (m'.mm ()).fifoPgn.pgns != (m.mm ()).fifoPgn.pgns) = true := by
    decide +kernel
  obtain ⟨m, run, fault⟩ := (Option.any_eq_true _ _).mp replay
  obtain ⟨⟨m', result⟩, done, unlisted⟩ := (Option.any_eq_true _ _).mp fault
  rw [Bool.and_eq_true, beq_iff_eq, bne_iff_ne] at unlisted
  obtain ⟨rfl, changed⟩ := unlisted
  exact changed (congrArg Fifo.pgns (intact _ m m' 4 run done).fifo)

/-- No entry but those of the pages in `pgns` of process `p` changed. -/
def OnlyEntries (p : P) (pgns : List b.Word) (m m' : Machine b P) : Prop :=
  ∀ q j, (q = p → ∀ pgn ∈ pgns, j ≠ b.index pgn) → (m'.mm q).pgd j = (m.mm q).pgd j

/-- Both devices allow random access and have room for their frames. -/
structure Formatted (n k : Nat) (m : Machine b P) : Prop where
  ramRdm : m.mram.rdmflg = true
  ramRoom : n * b.pageSz ≤ m.mram.maxsz
  swapRdm : m.activeMswp.rdmflg = true
  swapRoom : k * b.pageSz ≤ m.activeMswp.maxsz

omit [DecidableEq P] in
theorem Formatted.congr {n k : Nat} (formatted : m.Formatted n k) (kinds : m'.kinds = m.kinds) :
    m'.Formatted n k := by
  obtain ⟨ram, swap⟩ := Prod.mk.inj kinds
  obtain ⟨ramRdm, ramSz⟩ := Prod.mk.inj ram
  obtain ⟨swapRdm, swapSz⟩ := Prod.mk.inj swap
  refine ⟨ramRdm.trans formatted.ramRdm, ?_, swapRdm.trans formatted.swapRdm, ?_⟩
  · exact formatted.ramRoom.trans_eq ramSz.symm
  · exact formatted.swapRoom.trans_eq swapSz.symm

theorem OnlyEntries.of_setMm {mm : Mm b} {v : b.Word}
    (pgd : mm.pgd = Function.update (m.mm p).pgd (b.index pgn) v) :
    OnlyEntries p [pgn] m (m.setMm p mm) := by
  intro q j other
  rw [pgd_setMm pgd, if_neg]
  intro here
  obtain ⟨rfl, rfl⟩ := Prod.mk.inj here
  exact other rfl pgn List.mem_cons_self rfl

theorem OnlyEntries.mapPage (m : Machine b P) (p : P) (inTable : b.outOfTable pgn = false)
    (fpn : b.Word) : OnlyEntries p [pgn] m (m.mapPage p pgn fpn) :=
  .of_setMm (pgd_setEntryBy inTable)

omit [DecidableEq P] in
theorem OnlyEntries.trans {m'' : Machine b P} {pgns pgns' : List b.Word}
    (first : OnlyEntries p pgns m m') (second : OnlyEntries p pgns' m' m'') :
    OnlyEntries p (pgns' ++ pgns) m m'' := by
  intro q j others
  refine (second q j ?_).trans (first q j ?_)
  · exact fun here pgn member => others here pgn (List.mem_append_left _ member)
  · exact fun here pgn member => others here pgn (List.mem_append_right _ member)

section Effect

variable [Fintype P] {n k : Nat} {f : b.Word} (ramFits : n ≤ b.frames) (swapFits : k ≤ b.swapFrames)

include ramFits swapFits

end Effect

end Machine

section Runs

open Machine

variable [Fintype P] [DecidableEq P] {m m' : Machine b P} {p : P} {pgn f : b.Word}
  {junk : Nat → Byte}

omit [Fintype P] [DecidableEq P] in
/-- `boot` starts random-access devices whose frames lie on them. -/
theorem formatted_boot {mram activeMswp : Memphy b} (ramRdm : mram.rdmflg = true)
    (swapRdm : activeMswp.rdmflg = true) :
    (boot mram activeMswp : Machine b P).Formatted (mram.maxsz / b.pageSz)
      (activeMswp.maxsz / b.pageSz) :=
  ⟨ramRdm, Nat.div_mul_le_self _ _, swapRdm, Nat.div_mul_le_self _ _⟩

end Runs

end SimpleOs.Mem
