import SimpleOs.Lib.Transition
import SimpleOs.Mem.Frames

/-!
# Exclusive ownership of frames

Processes allocate, free, read and write, one call at a time. Every frame of RAM
and of the swap device is on its free list or in one page-table entry, and a FIFO
list names pages that are in RAM, as long as `__alloc` and `__free` stay within
the symbol table. In the 32-bit build `__alloc` overwrites the head of the FIFO
list where it is asked for entry 30.
-/

namespace SimpleOs.Mem

open Custody (occurrences)

variable {b : Build} {P : Type}

/-- The swap frame an entry holds. -/
def Build.swapOf (b : Build) (pte : b.Word) : List b.Word :=
  if b.pageSwapped pte then [b.pagingSwp pte] else []

theorem swapOf_resident {pte : b.Word} (resident : b.pageSwapped pte = false) : b.swapOf pte = [] := by
  simp [Build.swapOf, resident]

theorem swapOf_swapEntry (pte swptyp : b.Word) {swpoff : b.Word}
    (fits : swpoff.toNat < b.swapFrames) : b.swapOf (b.swapEntry pte swptyp swpoff) = [swpoff] := by
  simp [Build.swapOf, b.pagingSwp_swapEntry pte swptyp fits]

theorem swapOf_dirtyEntry (pte : b.Word) : b.swapOf (b.dirtyEntry pte) = b.swapOf pte := by
  simp [Build.swapOf]

inductive MemCall (b : Build) (P : Type) where
  | liballoc (proc : P) (size : b.Word) (regIndex : Int)
  | libfree (proc : P) (regIndex : Int)
  | libread (proc : P) (source : Int) (offset overlay : b.Word) (junk : Nat → Byte)
  | libwrite (proc : P) (data : Byte) (destination : Int) (offset overlay : b.Word)
      (junk : Nat → Byte)

/-- `ALLOC` and `FREE` name an entry of the symbol table, or `FREE` one that its
own check rejects. -/
def MemCall.InTable : MemCall b P → Prop
  | .liballoc _ _ regIndex => 0 ≤ regIndex ∧ regIndex < pagingMaxSymtblSz
  | .libfree _ regIndex => regIndex ≠ pagingMaxSymtblSz
  | .libread .. => True
  | .libwrite .. => True

namespace Machine

/-- The frames of RAM and of the swap device are each in one place, and the FIFO
lists name pages in RAM. -/
structure FramesExclusive [Fintype P] (n k : Nat) (m : Machine b P) : Prop where
  ram : (m.mram.freeFpList ++ Finset.univ.toList.flatMap (m.held b.frameOf)).Perm (stock b n)
  swap : (m.activeMswp.freeFpList ++ Finset.univ.toList.flatMap (m.held b.swapOf)).Perm
    (stock b k)
  fifo : ∀ p, (m.mm p).fifoPgn.wild = false ∧ (m.mm p).fifoPgn.pgns.Nodup ∧
    ∀ pgn ∈ (m.mm p).fifoPgn.pgns, b.pagePresent ((m.mm p).pteGetEntry pgn) = true ∧
      b.pageSwapped ((m.mm p).pteGetEntry pgn) = false

/-- Swap frames `0..k-1` are accounted for. -/
abbrev SwapKept [Fintype P] (k : Nat) (hand : List b.Word) (m : Machine b P) : Prop :=
  Conserved k b.swapOf m.activeMswp.freeFpList hand m

/-- No FIFO list is wild. -/
def Proper (m : Machine b P) : Prop := ∀ p, (m.mm p).fifoPgn.wild = false

/-- Where an access faults, the frames it may take fit in entries. -/
def FaultFits (m : Machine b P) (p : P) (addr : b.Word) : Prop :=
  b.pagePresent ((m.mm p).pteGetEntry (b.pagingPgn addr)) = false → m.FrameFits

/-- What every call keeps. -/
structure Kept [Fintype P] (n k : Nat) (m : Machine b P) : Prop where
  ram : RamKept n [] m
  swap : SwapKept k [] m
  krnlMm : m.krnlMm = none

variable [Fintype P] {m m' : Machine b P} {n k : Nat} {p : P} {pgn : b.Word} {junk : Nat → Byte}
  {result : Option b.Word}

/-- The accounts give the permutations. -/
theorem Kept.framesExclusive (kept : Kept n k m) (proper : Proper m) : FramesExclusive n k m := by
  refine ⟨Custody.append_flatMap_perm_iff.mpr ?_, Custody.append_flatMap_perm_iff.mpr ?_, ?_⟩
  · intro f
    simpa using kept.ram.frames f
  · intro f
    simpa using kept.swap f
  · intro p
    have pages := kept.ram.pages p
    refine ⟨proper p, pages.nodup.of_map, ?_⟩
    intro pgn member
    simpa [Build.online] using pages.listed pgn member

/-- The boot state has all frames free. -/
theorem kept_boot {mram activeMswp : Memphy b} (ramFree : mram.freeFpList = stock b n)
    (swapFree : activeMswp.freeFpList = stock b k) :
    Kept n k (boot mram activeMswp : Machine b P) :=
  ⟨ramKept_boot ramFree, conserved_boot (swapOf_resident b.pageSwapped_zero) swapFree, rfl⟩

variable [DecidableEq P]

namespace SwapKept

variable {hand : List b.Word} {f : b.Word} {mswp : Memphy b}

theorem evict (kept : SwapKept k [f] m) (below : f.toNat < b.swapFrames)
    (online : b.online ((m.mm p).pteGetEntry pgn) = true) : SwapKept k [] (m.evict p pgn f junk) := by
  have inTable := inTable_of_online online
  have resident : b.pageSwapped ((m.mm p).pteGetEntry pgn) = false := by
    simp only [Build.online, Bool.and_eq_true, Bool.not_eq_true'] at online
    exact online.2
  let copied := m.mmSwapPage (b.pagingFpn ((m.mm p).pteGetEntry pgn)) f junk
  have free : copied.activeMswp.freeFpList = m.activeMswp.freeFpList :=
    m.activeMswp.freeFpList_swapCpPage _ _ _ _
  have still : SwapKept k [f] copied := by
    show Conserved k b.swapOf copied.activeMswp.freeFpList [f] copied
    rw [free]
    exact kept.congr fun _ => rfl
  refine still.setEntry (pgd_setEntryBy inTable) ?_
  intro f'
  rw [swapOf_swapEntry _ _ below]
  show _ = (b.swapOf ((m.mm p).pgd (b.index pgn))).count f' + _
  rw [← pteGetEntry_eq inTable, swapOf_resident resident]
  exact Nat.add_comm _ _

theorem takeFrame (kept : SwapKept k [] m) (fits : m.FrameFits) (pages : (m.mm p).PagesKept)
    (done : m.takeFrame p junk = some (m', result)) : SwapKept k [] m' := by
  obtain ⟨fpn, mram, -, rfl, -⟩ | ⟨full, swapped⟩ := takeFrame_cases done
  · exact kept.congr fun _ => rfl
  · obtain ⟨-, rfl, -⟩ | ⟨vicpgn, fifo, found, action⟩ := swapOut_cases swapped
    · exact kept
    · obtain ⟨-, online, -⟩ := pages.findVictimPage found
      obtain ⟨-, rfl, -⟩ | ⟨swpfpn, mswp, popped, rfl, -⟩ := action
      · exact kept.congr (pgd_setFifo fifo)
      · have inHand : SwapKept k [swpfpn]
            { m.setMm p { m.mm p with fifoPgn := fifo } with activeMswp := mswp } := by
          rw [SwapKept, (Memphy.getFreefp_cases popped).1] at kept
          exact kept.pop.congr (pgd_setFifo fifo)
        have below : swpfpn.toNat < b.swapFrames := by
          apply fits.swap (Memphy.getFreefp_eq_none.mp full)
          rw [(Memphy.getFreefp_cases popped).1]
          rfl
        refine inHand.evict below ?_
        show b.online (((m.setMm p _).mm p).pteGetEntry vicpgn) = true
        rw [mm_setMm_self]
        exact online

/-- The branch of `pg_getpage` that copies a page back is never reached. -/
theorem pgGetpage (kept : SwapKept k [] m)
    (fits : b.pagePresent ((m.mm p).pteGetEntry pgn) = false → m.FrameFits)
    (pages : (m.mm p).PagesKept) (inTable : b.outOfTable pgn = false)
    (done : m.pgGetpage p pgn junk = some (m', result)) : SwapKept k [] m' := by
  obtain ⟨-, rfl, -⟩ | ⟨absent, ⟨failed, -⟩ | ⟨taken, tgtfpn, took, rfl, -⟩⟩ := pgGetpage_cases done
  · exact kept
  · exact kept.takeFrame (fits absent) pages failed
  · have resident := pages.not_swapped absent
    have after := kept.takeFrame (fits absent) pages took
    have still := (takeFrame_evicts pages took).absent absent
    have filled : SwapKept k [] (taken.fillFrame ((m.mm p).pteGetEntry pgn) tgtfpn junk) := by
      rw [fillFrame, if_neg (ne_true_of_eq_false resident)]
      exact after.congr fun _ => rfl
    refine filled.setEntry (pgd_setEntryBy inTable) ?_
    intro f
    rw [swapOf_resident (b.pageSwapped_fpnEntry _ _), ← pteGetEntry_eq inTable, mm_fillFrame, still,
      swapOf_resident resident]

theorem dirty (kept : SwapKept k hand m) (inTable : b.outOfTable pgn = false) :
    SwapKept k hand
      (m.setMm p ((m.mm p).pteSetEntry pgn (b.dirtyEntry ((m.mm p).pteGetEntry pgn)))) := by
  refine kept.setEntry (pgd_setEntryBy inTable) ?_
  intro f
  rw [swapOf_dirtyEntry, pteGetEntry_eq inTable]

end SwapKept

namespace Kept

variable {mm : Mm b} {addr : b.Word} {value : Byte} {size : b.Word} {rgid : Int}

/-- A change to the areas and regions of a process. -/
theorem setRegions (kept : Kept n k m) (pgd : mm.pgd = (m.mm p).pgd)
    (fifo : mm.fifoPgn = (m.mm p).fifoPgn) : Kept n k (m.setMm p mm) := by
  have pgds : ∀ q, ((m.setMm p mm).mm q).pgd = (m.mm q).pgd := by
    intro q
    by_cases same : q = p
    · rw [same, mm_setMm_self, pgd]
    · rw [mm_setMm_of_ne m same]
  have fifos : ∀ q, ((m.setMm p mm).mm q).fifoPgn = (m.mm q).fifoPgn := by
    intro q
    by_cases same : q = p
    · rw [same, mm_setMm_self, fifo]
    · rw [mm_setMm_of_ne m same]
  exact ⟨kept.ram.congr rfl pgds fifos, kept.swap.congr pgds, kept.krnlMm⟩

omit [DecidableEq P] in
/-- Where the devices have no more frames than entries can number, all frames fit. -/
theorem frameFits (kept : Kept n k m) (ramFits : n ≤ b.frames) (swapFits : k ≤ b.swapFrames) :
    m.FrameFits := by
  constructor
  · intro f first
    have account := kept.ram.frames f
    have counted := List.count_pos_iff.mpr (List.mem_of_mem_head? first)
    refine (lt_of_mem_stock (List.count_pos_iff.mp ?_)).trans_le ramFits
    omega
  · intro _ f first
    have account := kept.swap f
    have counted := List.count_pos_iff.mpr (List.mem_of_mem_head? first)
    refine (lt_of_mem_stock (List.count_pos_iff.mp ?_)).trans_le swapFits
    omega

theorem pgGetpage (kept : Kept n k m)
    (fits : b.pagePresent ((m.mm p).pteGetEntry pgn) = false → m.FrameFits)
    (inTable : b.outOfTable pgn = false)
    (done : m.pgGetpage p pgn junk = some (m', result)) : Kept n k m' :=
  ⟨kept.ram.pgGetpage fits inTable done,
    kept.swap.pgGetpage fits (kept.ram.pages p) inTable done,
    (Beside.pgGetpage done).krnlMm.trans kept.krnlMm⟩

theorem pgGetval (kept : Kept n k m) (fits : m.FaultFits p addr) {data : Option Byte}
    (done : m.pgGetval p addr junk = some (m', data)) : Kept n k m' := by
  obtain ⟨result, paged, -⟩ := pgGetval_cases done
  exact kept.pgGetpage fits (inTable_pagingPgn addr) paged

theorem pgSetval (kept : Kept n k m) (fits : m.FaultFits p addr) {ret : Int}
    (done : m.pgSetval p addr value junk = some (m', ret)) : Kept n k m' := by
  have inTable := inTable_pagingPgn addr
  obtain ⟨failed, -⟩ | ⟨paged, fpn, got, -, rfl⟩ := pgSetval_cases done
  · exact kept.pgGetpage fits inTable failed
  · have after := kept.pgGetpage fits inTable got
    have ram : RamKept n [] (paged.ioWrite (phyaddr fpn (b.pagingOffst addr)) value) :=
      after.ram.congr (Memphy.freeFpList_store _ _ _) (fun _ => rfl) fun _ => rfl
    have swap : SwapKept k [] (paged.ioWrite (phyaddr fpn (b.pagingOffst addr)) value) :=
      after.swap.congr fun _ => rfl
    exact ⟨ram.dirty inTable, swap.dirty inTable, after.krnlMm⟩

theorem read (kept : Kept n k m) {offset overlay : b.Word} {ret : Int}
    (fits : ∀ start ∈ m.symrgStart p rgid overlay, m.FaultFits p (start + offset))
    (done : m.read p rgid offset overlay junk = some (m', ret)) : Kept n k m' := by
  obtain ⟨start, data, region, got⟩ := read_cases done
  exact kept.pgGetval (fits start region) got

theorem write (kept : Kept n k m) {vmaid : Int} {offset overlay : b.Word} {ret : Int}
    (fits : ∀ start ∈ m.symrgStart p rgid overlay, m.FaultFits p (start + offset))
    (done : m.write p vmaid rgid offset overlay value junk = some (m', ret)) : Kept n k m' := by
  obtain rfl | ⟨start, code, region, set⟩ := write_cases done
  · exact kept
  · exact kept.pgSetval (fits start region) set

/-- A region is entered in the symbol table, or the FIFO list is overwritten and lists
nothing any more. -/
theorem setSymrg (kept : Kept n k m) {rg : Region b}
    (done : setSymrg (m.mm p) rgid rg = some mm) : Kept n k (m.setMm p mm) := by
  obtain ⟨symrgtbl, rfl⟩ | ⟨wild, rfl⟩ := setSymrg_cases done
  · exact kept.setRegions rfl rfl
  · have forgotten : { m.mm p with fifoPgn := ⟨[], wild⟩ }.PagesKept := by
      refine ⟨(kept.ram.pages p).swapped, List.nodup_nil, ?_⟩
      intro pgn member
      cases member
    exact ⟨kept.ram.setFifo forgotten, kept.swap.congr (pgd_setFifo _), kept.krnlMm⟩

theorem alloc (kept : Kept n k m) {vmaid ret : Int}
    (done : m.alloc p vmaid rgid size = some (m', ret)) : Kept n k m' := by
  obtain ⟨mmap, rfl | ⟨rg, mm, entered, rfl⟩⟩ := alloc_cases kept.krnlMm done
  · exact kept.setRegions rfl rfl
  · have searched : Kept n k (m.setMm p { m.mm p with mmap := mmap }) := kept.setRegions rfl rfl
    exact searched.setSymrg entered

theorem free (kept : Kept n k m) {ret : Int}
    (done : m.free p rgid = some (m', ret)) : Kept n k m' := by
  obtain rfl | ⟨mm, pgd, fifo, rfl⟩ := free_cases done
  · exact kept
  · exact kept.setRegions pgd fifo

end Kept

namespace Proper

variable {rgid ret : Int}

omit [Fintype P]

theorem setMm (proper : Proper m) {mm : Mm b} (here : mm.fifoPgn.wild = false) :
    Proper (m.setMm p mm) :=
  forall_setMm (R := fun mm => mm.fifoPgn.wild = false) here proper

theorem takeFrame (proper : Proper m) (done : m.takeFrame p junk = some (m', result)) :
    Proper m' := by
  obtain ⟨fpn, mram, -, rfl, -⟩ | ⟨-, swapped⟩ := takeFrame_cases done
  · exact proper
  · obtain ⟨-, rfl, -⟩ | ⟨vicpgn, fifo, found, action⟩ := swapOut_cases swapped
    · exact proper
    · have unlisted : Proper (m.setMm p { m.mm p with fifoPgn := fifo }) :=
        proper.setMm (findVictimPage_spec found).2.1
      obtain ⟨-, rfl, -⟩ | ⟨swpfpn, mswp, -, rfl, -⟩ := action
      · exact unlisted
      · refine setMm (m := _) unlisted ?_
        exact (congrArg Fifo.wild fifoPgn_setEntryBy).trans (unlisted p)

theorem pgGetpage (proper : Proper m) (done : m.pgGetpage p pgn junk = some (m', result)) :
    Proper m' := by
  obtain ⟨-, rfl, -⟩ | ⟨-, ⟨failed, -⟩ | ⟨taken, tgtfpn, took, rfl, -⟩⟩ := pgGetpage_cases done
  · exact proper
  · exact proper.takeFrame failed
  · have filled : Proper (taken.fillFrame ((m.mm p).pteGetEntry pgn) tgtfpn junk) := by
      rw [Proper, mm_fillFrame]
      exact proper.takeFrame took
    apply filled.setMm
    exact (congrArg Fifo.wild fifoPgn_setEntryBy).trans (filled p)

theorem pgSetval (proper : Proper m) {addr : b.Word} {value : Byte}
    (done : m.pgSetval p addr value junk = some (m', ret)) : Proper m' := by
  obtain ⟨failed, -⟩ | ⟨paged, fpn, got, -, rfl⟩ := pgSetval_cases done
  · exact proper.pgGetpage failed
  · have after := proper.pgGetpage got
    refine setMm (m := _) after ?_
    exact (congrArg Fifo.wild fifoPgn_setEntryBy).trans (after p)

theorem alloc (proper : Proper m) (unset : m.krnlMm = none)
    (inTable : 0 ≤ rgid ∧ rgid < pagingMaxSymtblSz) {vmaid : Int} {size : b.Word}
    (done : m.alloc p vmaid rgid size = some (m', ret)) : Proper m' := by
  obtain ⟨mmap, action⟩ := alloc_cases unset done
  have searched : Proper (m.setMm p { m.mm p with mmap := mmap }) := proper.setMm (proper p)
  obtain rfl | ⟨rg, mm, entered, rfl⟩ := action
  · exact searched
  · rw [setSymrg, Build.symslot_of_inTable inTable] at entered
    cases entered
    exact searched.setMm (searched p)

theorem free (proper : Proper m) (done : m.free p rgid = some (m', ret)) : Proper m' := by
  obtain rfl | ⟨mm, -, fifo, rfl⟩ := free_cases done
  · exact proper
  · apply proper.setMm
    rw [fifo]
    exact proper p

end Proper

end Machine

variable [DecidableEq P]

/-- The process that makes a call. -/
def MemCall.caller : MemCall b P → P
  | .liballoc proc .. => proc
  | .libfree proc .. => proc
  | .libread proc .. => proc
  | .libwrite proc .. => proc

/-- The page that a call touches is in RAM, or the frames for it fit in entries. -/
def MemCall.Fits (m : Machine b P) : MemCall b P → Prop
  | .liballoc .. => True
  | .libfree .. => True
  | .libread proc source offset overlay _ =>
      ∀ start ∈ m.symrgStart proc source overlay, m.FaultFits proc (start + offset)
  | .libwrite proc _ destination offset overlay _ =>
      ∀ start ∈ m.symrgStart proc destination overlay, m.FaultFits proc (start + offset)

/-- The calls of any number of processes, each atomic under `mmvm_lock`. -/
def memSystem (b : Build) (P : Type) [DecidableEq P] :
    TransitionSystem (Machine b P) (MemCall b P) where
  init m := ∃ mram activeMswp, m = .boot mram activeMswp
  step m
    | .liballoc proc size regIndex => (m.liballoc proc size regIndex).map Prod.fst
    | .libfree proc regIndex => (m.libfree proc regIndex).map Prod.fst
    | .libread proc source offset overlay junk =>
        (m.libread proc source offset overlay junk).map Prod.fst
    | .libwrite proc data destination offset overlay junk =>
        (m.libwrite proc data destination offset overlay junk).map Prod.fst

variable [Fintype P] {m m' : Machine b P} {n k : Nat}

open Machine (Kept FramesExclusive Proper)

omit [DecidableEq P] in
theorem Machine.Kept.fits (kept : Kept n k m) (ramFits : n ≤ b.frames) (swapFits : k ≤ b.swapFrames)
    (call : MemCall b P) : call.Fits m := by
  have fits := kept.frameFits ramFits swapFits
  cases call with
  | liballoc => trivial
  | libfree => trivial
  | libread => exact fun _ _ _ => fits
  | libwrite => exact fun _ _ _ => fits

theorem Machine.Kept.step (kept : Kept n k m) {call : MemCall b P} (fits : call.Fits m)
    (step : (memSystem b P).step m call = some m') : Kept n k m' := by
  cases call with
  | liballoc proc size regIndex =>
      obtain ⟨⟨_, ret⟩, done, rfl⟩ := Option.map_eq_some_iff.mp step
      exact kept.alloc done
  | libfree proc regIndex =>
      obtain ⟨⟨_, ret⟩, done, rfl⟩ := Option.map_eq_some_iff.mp step
      exact kept.free done
  | libread proc source offset overlay junk =>
      obtain ⟨⟨_, ret⟩, done, rfl⟩ := Option.map_eq_some_iff.mp step
      exact kept.read fits done
  | libwrite proc data destination offset overlay junk =>
      obtain ⟨⟨_, ret⟩, done, rfl⟩ := Option.map_eq_some_iff.mp step
      exact kept.write fits done

omit [Fintype P] in
theorem Machine.Proper.step (proper : Proper m) (unset : m.krnlMm = none) {call : MemCall b P}
    (inTable : call.InTable) (step : (memSystem b P).step m call = some m') : Proper m' := by
  cases call with
  | liballoc proc size regIndex =>
      obtain ⟨⟨_, ret⟩, done, rfl⟩ := Option.map_eq_some_iff.mp step
      exact proper.alloc unset inTable done
  | libfree proc regIndex =>
      obtain ⟨⟨_, ret⟩, done, rfl⟩ := Option.map_eq_some_iff.mp step
      exact proper.free done
  | libread proc source offset overlay junk =>
      obtain ⟨⟨_, ret⟩, done, rfl⟩ := Option.map_eq_some_iff.mp step
      obtain ⟨addr, data, -, got⟩ := Machine.read_cases done
      obtain ⟨result, paged, -⟩ := Machine.pgGetval_cases got
      exact proper.pgGetpage paged
  | libwrite proc data destination offset overlay junk =>
      obtain ⟨⟨_, ret⟩, done, rfl⟩ := Option.map_eq_some_iff.mp step
      obtain rfl | ⟨addr, code, -, set⟩ := Machine.write_cases done
      · exact proper
      · exact proper.pgSetval set

omit [Fintype P] in
/-- A call works on the process that makes it. -/
theorem Machine.Beside.step (unset : m.krnlMm = none) {call : MemCall b P}
    (step : (memSystem b P).step m call = some m') : Machine.Beside call.caller m m' := by
  cases call with
  | liballoc proc size regIndex =>
      obtain ⟨⟨_, ret⟩, done, rfl⟩ := Option.map_eq_some_iff.mp step
      obtain ⟨mmap, rfl | ⟨rg, mm, -, rfl⟩⟩ := Machine.alloc_cases unset done
      · exact setMm m proc _
      · exact (setMm m proc _).trans (setMm _ proc mm)
  | libfree proc regIndex =>
      obtain ⟨⟨_, ret⟩, done, rfl⟩ := Option.map_eq_some_iff.mp step
      obtain rfl | ⟨mm, -, -, rfl⟩ := Machine.free_cases done
      · exact refl proc _
      · exact setMm m proc mm
  | libread proc source offset overlay junk =>
      obtain ⟨⟨_, ret⟩, done, rfl⟩ := Option.map_eq_some_iff.mp step
      obtain ⟨start, data, -, got⟩ := Machine.read_cases done
      obtain ⟨result, paged, -⟩ := Machine.pgGetval_cases got
      exact pgGetpage paged
  | libwrite proc data destination offset overlay junk =>
      obtain ⟨⟨_, ret⟩, done, rfl⟩ := Option.map_eq_some_iff.mp step
      obtain rfl | ⟨start, code, -, set⟩ := Machine.write_cases done
      · exact refl proc _
      · exact pgSetval set

theorem Machine.kept_and_proper_of_run (ramFits : n ≤ b.frames) (swapFits : k ≤ b.swapFrames)
    {mram activeMswp : Memphy b} (ramFree : mram.freeFpList = stock b n)
    (swapFree : activeMswp.freeFpList = stock b k) {calls : List (MemCall b P)}
    (inTable : ∀ call ∈ calls, call.InTable)
    (run : (memSystem b P).run (Machine.boot mram activeMswp) calls = some m') :
    Kept n k m' ∧ Proper m' := by
  refine TransitionSystem.run_of_stepsMeet (P := fun m => Kept n k m ∧ Proper m) ?_
    ⟨Machine.kept_boot ramFree swapFree, fun _ => rfl⟩
    (TransitionSystem.stepsMeet_of_forall inTable _) run
  intro m call next both inTable step
  have fits := both.1.fits ramFits swapFits call
  exact ⟨both.1.step fits step, both.2.step both.1.krnlMm inTable step⟩

/-- Frames stay in exclusive ownership and are conserved, whatever the processes do,
while `ALLOC` and `FREE` stay within the symbol table. -/
theorem frames_exclusive (ramFits : n ≤ b.frames) (swapFits : k ≤ b.swapFrames)
    {mram activeMswp : Memphy b} (ramFree : mram.freeFpList = stock b n)
    (swapFree : activeMswp.freeFpList = stock b k) {calls : List (MemCall b P)}
    (inTable : ∀ call ∈ calls, call.InTable)
    (run : (memSystem b P).run (Machine.boot mram activeMswp) calls = some m') :
    FramesExclusive n k m' := by
  obtain ⟨kept, proper⟩ :=
    Machine.kept_and_proper_of_run ramFits swapFits ramFree swapFree inTable run
  exact kept.framesExclusive proper

/-- Three pages on two frames: the third write evicts the first page. -/
def threePages : List (MemCall .mm32 Unit) :=
  [.liballoc () 768 0, .libwrite () 1 0 0 0 fun _ => 0, .libwrite () 2 0 256 0 fun _ => 0,
    .libwrite () 3 0 512 0 fun _ => 0]

theorem frames_exclusive_threePages :
    ∃ m, (memSystem .mm32 Unit).run (Machine.boot (.init .mm32 512 true) (.init .mm32 512 true))
      threePages = some m ∧ FramesExclusive 2 2 m := by
  have replay : ((memSystem .mm32 Unit).run
      (Machine.boot (.init .mm32 512 true) (.init .mm32 512 true)) threePages).isSome = true := by
    decide +kernel
  obtain ⟨m, run⟩ := Option.isSome_iff_exists.mp replay
  refine ⟨m, run, frames_exclusive (by decide) (by decide) rfl rfl ?_ run⟩
  simp [threePages, MemCall.InTable]

/-- `ALLOC 100 30` leaves a list whose head is no page. -/
theorem alloc_overwrites_fifo : ¬ ∀ (calls : List (MemCall .mm32 Unit)) (m : Machine .mm32 Unit),
    (memSystem .mm32 Unit).run (Machine.boot (.init .mm32 512 true) (.init .mm32 512 true)) calls =
      some m → FramesExclusive 2 2 m := by
  intro exclusive
  have replay : ((memSystem .mm32 Unit).run
      (Machine.boot (.init .mm32 512 true) (.init .mm32 512 true)) [.liballoc () 100 30]).any
        (fun m => (m.mm ()).fifoPgn.wild) = true := by
    decide +kernel
  obtain ⟨m, run, wild⟩ := (Option.any_eq_true _ _).mp replay
  have proper := (exclusive _ m run).fifo ()
  rw [wild] at proper
  exact Bool.noConfusion proper.1

end SimpleOs.Mem
