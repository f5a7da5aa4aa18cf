import SimpleOs.Mem.Region

/-!
# Demand paging

`pg_getpage`, `pg_getval` and `pg_setval` of `libmem.c` and the branches of
`__sys_memmap` they reach through system call 17, then `__read` and `__write`.
What the code reads from variables it never set is a parameter `junk`.
-/

namespace SimpleOs.Mem

variable {b : Build}

/-- `find_victim_page`: the last page of the list and the list without it, `none`
inside for an empty list. With a single node the code stores through a `NULL`
`prev`. -/
def findVictimPage (fifo : Fifo b) : Option (Option (b.Word × Fifo b)) :=
  if fifo.wild then none
  else
    match fifo.pgns with
    | [] => some none
    | [_] => none
    | pgn :: next :: rest =>
        some (some ((next :: rest).getLastD pgn, ⟨(pgn :: next :: rest).dropLast, false⟩))

namespace Machine

variable {P : Type} [DecidableEq P]

/-- `SYSMEM_SWP_OP`: copy a RAM frame to a frame of the active swap device. -/
def mmSwapPage (m : Machine b P) (vicfpn swpfpn : b.Word) (junk : Nat → Byte) : Machine b P :=
  { m with activeMswp := m.mram.swapCpPage vicfpn m.activeMswp swpfpn junk }

/-- `SYSMEM_IO_READ`, the byte as `pg_getval` takes it from the register. -/
def ioRead (m : Machine b P) (phyaddr : b.Word) (junk : Byte) : Byte :=
  (((m.mram.read phyaddr).getD junk).signExtend b.width).setWidth 8

/-- `SYSMEM_IO_WRITE` of a byte that was put in a register. -/
def ioWrite (m : Machine b P) (phyaddr : b.Word) (value : Byte) : Machine b P :=
  { m with mram := m.mram.store phyaddr ((value.signExtend b.width).setWidth 8) }

/-- Copy the frame of a page to a swap frame and mark the page as swapped. -/
def evict (m : Machine b P) (caller : P) (vicpgn victimSwpfpn : b.Word) (junk : Nat → Byte) :
    Machine b P :=
  let vicfpn := b.pagingFpn ((m.mm caller).pteGetEntry vicpgn)
  let m := m.mmSwapPage vicfpn victimSwpfpn junk
  m.setMm caller ((m.mm caller).pteSetSwap vicpgn m.activeMswpId victimSwpfpn)

/-- Where RAM is full: take the frame of a page of the caller. -/
def swapOut (m : Machine b P) (caller : P) (junk : Nat → Byte) :
    Option (Machine b P × Option b.Word) :=
  match findVictimPage (m.mm caller).fifoPgn with
  | none => none
  | some none => some (m, none)
  | some (some (vicpgn, fifo)) =>
      let m := m.setMm caller { m.mm caller with fifoPgn := fifo }
      let vicfpn := b.pagingFpn ((m.mm caller).pteGetEntry vicpgn)
      match m.activeMswp.getFreefp with
      | none => some (m, none)
      | some (victimSwpfpn, mswp) =>
          some (({ m with activeMswp := mswp }).evict caller vicpgn victimSwpfpn junk, some vicfpn)

/-- A frame for a page that is not in RAM. -/
def takeFrame (m : Machine b P) (caller : P) (junk : Nat → Byte) :
    Option (Machine b P × Option b.Word) :=
  match m.mram.getFreefp with
  | some (fpn, mram) => some ({ m with mram := mram }, some fpn)
  | none => m.swapOut caller junk

/-- Fill a frame for the page with entry `pte`: the branch for a swapped page
copies as if to swap the frame out, and frees the swap frame. -/
def fillFrame (m : Machine b P) (pte tgtfpn : b.Word) (junk : Nat → Byte) : Machine b P :=
  if b.pageSwapped pte then
    let m := m.mmSwapPage tgtfpn (b.pagingSwp pte) junk
    { m with activeMswp := m.activeMswp.putFreefp (b.pagingSwp pte) }
  else { m with mram := m.mram.zeroFill tgtfpn }

omit [DecidableEq P] in
@[simp] theorem mm_fillFrame (m : Machine b P) (pte tgtfpn : b.Word) (junk : Nat → Byte) :
    (m.fillFrame pte tgtfpn junk).mm = m.mm := by
  rw [fillFrame]
  split <;> rfl

omit [DecidableEq P] in
@[simp] theorem freeFpList_fillFrame (m : Machine b P) (pte tgtfpn : b.Word) (junk : Nat → Byte) :
    (m.fillFrame pte tgtfpn junk).mram.freeFpList = m.mram.freeFpList := by
  rw [fillFrame]
  split
  · rfl
  · obtain ⟨storage, filled⟩ := m.mram.zeroFill_eq tgtfpn
    rw [filled]

/-- Enter a page as present in a frame and list it as the newest. -/
def mapPage (m : Machine b P) (caller : P) (pgn tgtfpn : b.Word) : Machine b P :=
  m.setMm caller (((m.mm caller).pteSetFpn pgn tgtfpn).enlistPgnNode pgn)

/-- `pg_getpage`, with the frame of the page or `none` where it returns `-1`. -/
def pgGetpage (m : Machine b P) (caller : P) (pgn : b.Word) (junk : Nat → Byte) :
    Option (Machine b P × Option b.Word) :=
  let pte := (m.mm caller).pteGetEntry pgn
  if b.pagePresent pte then some (m, some (b.pagingFpn pte))
  else
    match m.takeFrame caller junk with
    | none => none
    | some (m, none) => some (m, none)
    | some (m, some tgtfpn) =>
        let m := (m.fillFrame pte tgtfpn junk).mapPage caller pgn tgtfpn
        some (m, some (b.pagingFpn ((m.mm caller).pteGetEntry pgn)))

section Cases

variable {m m' : Machine b P} {caller : P} {pgn : b.Word} {junk : Nat → Byte}
  {result : Option b.Word}

/-- What `swapOut` can do. A victim stays unlisted also where swap is full. -/
theorem swapOut_cases (done : m.swapOut caller junk = some (m', result)) :
    (findVictimPage (m.mm caller).fifoPgn = some none ∧ m' = m ∧ result = none) ∨
    ∃ vicpgn fifo, findVictimPage (m.mm caller).fifoPgn = some (some (vicpgn, fifo)) ∧
      ((m.activeMswp.getFreefp = none ∧
        m' = m.setMm caller { m.mm caller with fifoPgn := fifo } ∧ result = none) ∨
      ∃ swpfpn mswp, m.activeMswp.getFreefp = some (swpfpn, mswp) ∧
        m' = ({ m.setMm caller { m.mm caller with fifoPgn := fifo } with
          activeMswp := mswp }).evict caller vicpgn swpfpn junk ∧
        result = some (b.pagingFpn ((m.mm caller).pteGetEntry vicpgn))) := by
  rw [swapOut] at done
  split at done
  next => cases done
  next none =>
    obtain ⟨rfl, rfl⟩ := Prod.mk.inj (Option.some.inj done)
    exact .inl ⟨none, rfl, rfl⟩
  next vicpgn fifo found =>
    refine .inr ⟨vicpgn, fifo, found, ?_⟩
    dsimp only at done
    rw [activeMswp_setMm] at done
    split at done
    next full =>
      obtain ⟨rfl, rfl⟩ := Prod.mk.inj (Option.some.inj done)
      exact .inl ⟨full, rfl, rfl⟩
    next swpfpn mswp popped =>
      obtain ⟨rfl, rfl⟩ := Prod.mk.inj (Option.some.inj done)
      refine .inr ⟨swpfpn, mswp, popped, rfl, ?_⟩
      rw [mm_setMm_self]
      rfl

theorem takeFrame_cases (done : m.takeFrame caller junk = some (m', result)) :
    (∃ fpn mram, m.mram.getFreefp = some (fpn, mram) ∧ m' = { m with mram := mram } ∧
      result = some fpn) ∨
    (m.mram.getFreefp = none ∧ m.swapOut caller junk = some (m', result)) := by
  rw [takeFrame] at done
  split at done
  next fpn mram popped =>
    obtain ⟨rfl, rfl⟩ := Prod.mk.inj (Option.some.inj done)
    exact .inl ⟨fpn, mram, popped, rfl, rfl⟩
  next full => exact .inr ⟨full, done⟩

/-- `pg_getpage` finds the page, fails, or fills a frame for it. -/
theorem pgGetpage_cases (done : m.pgGetpage caller pgn junk = some (m', result)) :
    (b.pagePresent ((m.mm caller).pteGetEntry pgn) = true ∧ m' = m ∧
      result = some (b.pagingFpn ((m.mm caller).pteGetEntry pgn))) ∨
    (b.pagePresent ((m.mm caller).pteGetEntry pgn) = false ∧
      ((m.takeFrame caller junk = some (m', none) ∧ result = none) ∨
      ∃ taken tgtfpn, m.takeFrame caller junk = some (taken, some tgtfpn) ∧
        m' = (taken.fillFrame ((m.mm caller).pteGetEntry pgn) tgtfpn junk).mapPage caller pgn
          tgtfpn ∧
        result = some (b.pagingFpn ((m'.mm caller).pteGetEntry pgn)))) := by
  rw [pgGetpage] at done
  split at done
  next present =>
    obtain ⟨rfl, rfl⟩ := Prod.mk.inj (Option.some.inj done)
    exact .inl ⟨present, rfl, rfl⟩
  next absent =>
    refine .inr ⟨eq_false_of_ne_true absent, ?_⟩
    split at done
    next => cases done
    next taken failed =>
      obtain ⟨rfl, rfl⟩ := Prod.mk.inj (Option.some.inj done)
      exact .inl ⟨failed, rfl⟩
    next taken tgtfpn took =>
      obtain ⟨rfl, rfl⟩ := Prod.mk.inj (Option.some.inj done)
      exact .inr ⟨taken, tgtfpn, took, rfl, rfl⟩

end Cases

/-- The kinds of RAM and of the swap device. -/
def kinds (m : Machine b P) : (Bool × Nat) × Bool × Nat := (m.mram.kind, m.activeMswp.kind)

/-- What a call of process `p` leaves alone: the other processes, `krnl->mm`, and the
size of a device and how it is accessed. -/
structure Beside (p : P) (m m' : Machine b P) : Prop where
  mm : ∀ q ≠ p, m'.mm q = m.mm q
  krnlMm : m'.krnlMm = m.krnlMm
  kinds : m'.kinds = m.kinds

namespace Beside

variable {m m' m'' : Machine b P} {p : P} {pgn : b.Word} {junk : Nat → Byte}
  {result : Option b.Word}

omit [DecidableEq P] in
theorem refl (p : P) (m : Machine b P) : Beside p m m := ⟨fun _ _ => rfl, rfl, rfl⟩

omit [DecidableEq P] in
theorem trans (first : Beside p m m') (second : Beside p m' m'') : Beside p m m'' :=
  ⟨fun q other => (second.mm q other).trans (first.mm q other), second.krnlMm.trans first.krnlMm,
    second.kinds.trans first.kinds⟩

theorem setMm (m : Machine b P) (p : P) (mm : Mm b) : Beside p m (m.setMm p mm) :=
  ⟨fun _ other => mm_setMm_of_ne m other mm, rfl, rfl⟩

omit [DecidableEq P] in
theorem fillFrame (m : Machine b P) (p : P) (pte f : b.Word) (junk : Nat → Byte) :
    Beside p m (m.fillFrame pte f junk) := by
  rw [Machine.fillFrame]
  split
  · exact ⟨fun _ _ => rfl, rfl, Prod.ext rfl (m.activeMswp.kind_swapCpPage m.mram f _ junk)⟩
  · exact ⟨fun _ _ => rfl, rfl, Prod.ext (m.mram.kind_zeroFill f) rfl⟩

theorem evict (m : Machine b P) (p : P) (vicpgn swpfpn : b.Word) (junk : Nat → Byte) :
    Beside p m (m.evict p vicpgn swpfpn junk) := by
  have copied : Beside p m
      (m.mmSwapPage (b.pagingFpn ((m.mm p).pteGetEntry vicpgn)) swpfpn junk) :=
    ⟨fun _ _ => rfl, rfl, Prod.ext rfl (m.activeMswp.kind_swapCpPage _ _ _ _)⟩
  exact copied.trans (setMm _ p _)

theorem takeFrame (done : m.takeFrame p junk = some (m', result)) : Beside p m m' := by
  obtain ⟨fpn, mram, popped, rfl, -⟩ | ⟨-, swapped⟩ := takeFrame_cases done
  · exact ⟨fun _ _ => rfl, rfl, Prod.ext (Memphy.kind_getFreefp popped) rfl⟩
  · obtain ⟨-, rfl, -⟩ | ⟨vicpgn, fifo, -, action⟩ := swapOut_cases swapped
    · exact refl p _
    · have unlisted := setMm m p { m.mm p with fifoPgn := fifo }
      obtain ⟨-, rfl, -⟩ | ⟨swpfpn, mswp, popped, rfl, -⟩ := action
      · exact unlisted
      · have taken : Beside p (m.setMm p { m.mm p with fifoPgn := fifo })
            { m.setMm p { m.mm p with fifoPgn := fifo } with activeMswp := mswp } :=
          ⟨fun _ _ => rfl, rfl, Prod.ext rfl (Memphy.kind_getFreefp popped)⟩
        exact (unlisted.trans taken).trans (evict _ p vicpgn swpfpn junk)

theorem pgGetpage (done : m.pgGetpage p pgn junk = some (m', result)) : Beside p m m' := by
  obtain ⟨-, rfl, -⟩ | ⟨-, ⟨failed, -⟩ | ⟨taken, tgtfpn, took, rfl, -⟩⟩ := pgGetpage_cases done
  · exact refl p _
  · exact takeFrame failed
  · exact ((takeFrame took).trans (fillFrame taken p _ tgtfpn junk)).trans (setMm _ p _)

end Beside

/-- `(fpn << PAGING_ADDR_FPN_LOBIT) + off` -/
def phyaddr (fpn off : b.Word) : b.Word := (fpn <<< b.pageBits) + off

/-- `pg_getval`, with the byte it delivers or `none` where it returns `-1`. -/
def pgGetval (m : Machine b P) (caller : P) (addr : b.Word) (junk : Nat → Byte) :
    Option (Machine b P × Option Byte) :=
  match m.pgGetpage caller (b.pagingPgn addr) junk with
  | none => none
  | some (m, none) => some (m, none)
  | some (m, some fpn) =>
      some (m, some (m.ioRead (phyaddr fpn (b.pagingOffst addr)) (junk b.pageSz)))

/-- `pg_setval`, with its return value. -/
def pgSetval (m : Machine b P) (caller : P) (addr : b.Word) (value : Byte) (junk : Nat → Byte) :
    Option (Machine b P × Int) :=
  let pgn := b.pagingPgn addr
  match m.pgGetpage caller pgn junk with
  | none => none
  | some (m, none) => some (m, -1)
  | some (m, some fpn) =>
      let m := m.ioWrite (phyaddr fpn (b.pagingOffst addr)) value
      let pte := b.dirtyEntry ((m.mm caller).pteGetEntry pgn)
      some (m.setMm caller ((m.mm caller).pteSetEntry pgn pte), 0)

section Cases

variable {m m' : Machine b P} {caller : P} {addr : b.Word} {value : Byte} {junk : Nat → Byte}

/-- `pg_getval` is `pg_getpage`, and a read from the frame it gives. -/
theorem pgGetval_cases {data : Option Byte} (done : m.pgGetval caller addr junk = some (m', data)) :
    ∃ result, m.pgGetpage caller (b.pagingPgn addr) junk = some (m', result) ∧
      data = result.map fun fpn => m'.ioRead (phyaddr fpn (b.pagingOffst addr)) (junk b.pageSz) := by
  rw [pgGetval] at done
  split at done
  next => cases done
  next paged =>
    obtain ⟨rfl, rfl⟩ := Prod.mk.inj (Option.some.inj done)
    exact ⟨none, paged, rfl⟩
  next fpn paged =>
    obtain ⟨rfl, rfl⟩ := Prod.mk.inj (Option.some.inj done)
    exact ⟨some fpn, paged, rfl⟩

/-- `pg_setval` is `pg_getpage`, and where that succeeds a write to the frame it gives
and the dirty flag. -/
theorem pgSetval_cases {ret : Int} (done : m.pgSetval caller addr value junk = some (m', ret)) :
    (m.pgGetpage caller (b.pagingPgn addr) junk = some (m', none) ∧ ret = -1) ∨
    ∃ paged fpn, m.pgGetpage caller (b.pagingPgn addr) junk = some (paged, some fpn) ∧ ret = 0 ∧
      let written := paged.ioWrite (phyaddr fpn (b.pagingOffst addr)) value
      m' = written.setMm caller ((written.mm caller).pteSetEntry (b.pagingPgn addr)
        (b.dirtyEntry ((written.mm caller).pteGetEntry (b.pagingPgn addr)))) := by
  rw [pgSetval] at done
  split at done
  next => cases done
  next paged =>
    obtain ⟨rfl, rfl⟩ := Prod.mk.inj (Option.some.inj done)
    exact .inl ⟨paged, rfl⟩
  next paged fpn got =>
    obtain ⟨rfl, rfl⟩ := Prod.mk.inj (Option.some.inj done)
    exact .inr ⟨paged, fpn, got, rfl, rfl⟩

end Cases

theorem Beside.pgSetval {m m' : Machine b P} {p : P} {addr : b.Word} {value : Byte}
    {junk : Nat → Byte} {ret : Int} (done : m.pgSetval p addr value junk = some (m', ret)) :
    Beside p m m' := by
  obtain ⟨failed, -⟩ | ⟨paged, fpn, got, -, rfl⟩ := pgSetval_cases done
  · exact pgGetpage failed
  · have written : Beside p paged (paged.ioWrite (phyaddr fpn (b.pagingOffst addr)) value) :=
      ⟨fun _ _ => rfl, rfl, Prod.ext (paged.mram.kind_store _ _) rfl⟩
    exact ((pgGetpage got).trans written).trans (setMm _ p _)

/-- `rg_start` of `get_symrg_byid`, `none` for `NULL`. Entry 30 overlays the
pointer `fifo_pgn`, which reads as `overlay`. -/
def symrgStart (m : Machine b P) (caller : P) (rgid : Int) (overlay : b.Word) : Option b.Word :=
  if rgid < 0 ∨ pagingMaxSymtblSz < rgid then none
  else if rgid = pagingMaxSymtblSz then some overlay
  else some ((m.mm caller).symrgtbl (Fin.ofNat _ rgid.toNat)).rgStart

omit [DecidableEq P] in
theorem symrgStart_eq_none {m : Machine b P} {caller : P} {rgid : Int} {overlay : b.Word} :
    m.symrgStart caller rgid overlay = none ↔ rgid < 0 ∨ pagingMaxSymtblSz < rgid := by
  rw [symrgStart]
  split
  next out => exact iff_of_true rfl out
  next within =>
    refine iff_of_false ?_ within
    split <;> exact Option.some_ne_none _

/-- `__read`, which looks into the region it got unchecked. The byte is lost in
the instruction; the return value is always `0`. -/
def read (m : Machine b P) (caller : P) (rgid : Int) (offset overlay : b.Word)
    (junk : Nat → Byte) : Option (Machine b P × Int) :=
  match m.symrgStart caller rgid overlay with
  | none => none
  | some rgStart => (m.pgGetval caller (rgStart + offset) junk).map fun (m, _) => (m, 0)

/-- `__write`, which returns `0` also where `pg_setval` failed. -/
def write (m : Machine b P) (caller : P) (vmaid rgid : Int) (offset overlay : b.Word)
    (value : Byte) (junk : Nat → Byte) : Option (Machine b P × Int) :=
  match m.symrgStart caller rgid overlay, getVmaByNum (m.mm caller).mmap vmaid with
  | _, none => none
  | none, _ => some (m, -1)
  | _, some none => some (m, -1)
  | some rgStart, some (some _) =>
      (m.pgSetval caller (rgStart + offset) value junk).map fun (m, _) => (m, 0)

section Cases

variable {m m' : Machine b P} {caller : P} {rgid ret : Int} {offset overlay : b.Word}
  {junk : Nat → Byte}

/-- Where `__read` returns at all, it is a `pg_getval`. -/
theorem read_cases (done : m.read caller rgid offset overlay junk = some (m', ret)) :
    ∃ rgStart data, m.symrgStart caller rgid overlay = some rgStart ∧
      m.pgGetval caller (rgStart + offset) junk = some (m', data) := by
  rw [read] at done
  split at done
  next => cases done
  next rgStart region =>
    obtain ⟨⟨after, data⟩, got, same⟩ := Option.map_eq_some_iff.mp done
    obtain ⟨rfl, -⟩ := Prod.mk.inj same
    exact ⟨rgStart, data, region, got⟩

theorem write_cases {vmaid : Int} {value : Byte}
    (done : m.write caller vmaid rgid offset overlay value junk = some (m', ret)) :
    m' = m ∨ ∃ rgStart code, m.symrgStart caller rgid overlay = some rgStart ∧
      m.pgSetval caller (rgStart + offset) value junk = some (m', code) := by
  rw [write] at done
  split at done
  next => cases done
  next =>
    obtain ⟨rfl, -⟩ := Prod.mk.inj (Option.some.inj done)
    exact .inl rfl
  next =>
    obtain ⟨rfl, -⟩ := Prod.mk.inj (Option.some.inj done)
    exact .inl rfl
  next rgStart _ region _ =>
    obtain ⟨⟨after, code⟩, set, same⟩ := Option.map_eq_some_iff.mp done
    obtain ⟨rfl, -⟩ := Prod.mk.inj same
    exact .inr ⟨rgStart, code, region, set⟩

end Cases

/-- `libread` -/
def libread (m : Machine b P) (proc : P) (source : Int) (offset overlay : b.Word)
    (junk : Nat → Byte) : Option (Machine b P × Int) := m.read proc source offset overlay junk

/-- `libwrite` -/
def libwrite (m : Machine b P) (proc : P) (data : Byte) (destination : Int)
    (offset overlay : b.Word) (junk : Nat → Byte) : Option (Machine b P × Int) :=
  m.write proc 0 destination offset overlay data junk

end Machine

end SimpleOs.Mem
