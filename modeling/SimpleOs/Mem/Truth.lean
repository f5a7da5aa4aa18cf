import SimpleOs.Mem.Access
import SimpleOs.Mem.Growth
import SimpleOs.Mem.Settled

/-!
# What a return value of zero says

`__write`, `__read`, `__alloc` and system call 17 return zero whatever became of the request:
`pg_setval` and `pg_getval` are asked and not listened to, the growth that `__alloc` asks for
is never granted, and `__sys_memmap` drops the result of every operation. In a state that user
programs reach, the zero is true exactly where nothing could go wrong.
-/

namespace SimpleOs.Mem

variable {b : Build} {P : Type} [DecidableEq P]

namespace Machine

/-! ## Pages that cannot be served -/

section Pages

variable {m m' : Machine b P} {p : P} {pgn addr : b.Word} {junk : Nat → Byte} {n k : Nat}
  {result : Option b.Word}

/-- No frame is free, and the process has no page to swap out, or there is no place for it. -/
structure Starved (m : Machine b P) (p : P) : Prop where
  ramFull : m.mram.freeFpList = []
  proper : (m.mm p).fifoPgn.wild = false
  noVictim : (m.mm p).fifoPgn.pgns = [] ∨
    (2 ≤ (m.mm p).fifoPgn.pgns.length ∧ m.activeMswp.freeFpList = [])

/-- Touching the page does not bring it into RAM, and does not fault: it was swapped out, or it
has no frame and gets none. -/
def Unserved (m : Machine b P) (p : P) (pgn : b.Word) : Prop :=
  b.pageSwapped ((m.mm p).pteGetEntry pgn) = true ∨
    (b.pagePresent ((m.mm p).pteGetEntry pgn) = false ∧ m.Starved p)

theorem takeFrame_starved_iff (junk : Nat → Byte) :
    (∃ m', m.takeFrame p junk = some (m', none)) ↔ m.Starved p := by
  constructor
  · rintro ⟨m', done⟩
    obtain ⟨_, _, -, -, found⟩ | ⟨full, swapped⟩ := takeFrame_cases done
    · cases found
    · have ramFull := Memphy.getFreefp_eq_none.mp full
      obtain ⟨none, -, -⟩ | ⟨_, _, found, ⟨noSwap, -, -⟩ | ⟨_, _, -, -, got⟩⟩ :=
        swapOut_cases swapped
      · obtain ⟨pgns, proper⟩ := findVictimPage_eq_null.mp none
        exact ⟨ramFull, proper, .inl pgns⟩
      · obtain ⟨-, -, proper, victim⟩ := findVictimPage_spec found
        exact ⟨ramFull, proper, .inr ⟨victim, Memphy.getFreefp_eq_none.mp noSwap⟩⟩
      · cases got
  · rintro ⟨ramFull, proper, noVictim⟩
    have full := Memphy.getFreefp_eq_none.mpr ramFull
    obtain empty | ⟨victim, swapFull⟩ := noVictim
    · have none := findVictimPage_eq_null.mpr ⟨empty, proper⟩
      exact ⟨m, by rw [takeFrame, full, swapOut, none]⟩
    · obtain ⟨⟨vicpgn, fifo⟩, found⟩ := exists_victim proper victim
      have noSwap := Memphy.getFreefp_eq_none.mpr swapFull
      refine ⟨m.setMm p { m.mm p with fifoPgn := fifo }, ?_⟩
      simp only [takeFrame, full, swapOut, found, activeMswp_setMm, noSwap]

/-- A page that can be served is in RAM afterwards, in the frame that `pg_getpage` gives. -/
theorem pgGetpage_online (inTable : b.outOfTable pgn = false)
    (served : ¬ m.Unserved p pgn) (done : m.pgGetpage p pgn junk = some (m', result)) :
    b.online ((m'.mm p).pteGetEntry pgn) = true ∧
      result = some (b.pagingFpn ((m'.mm p).pteGetEntry pgn)) := by
  obtain ⟨present, rfl, got⟩ | ⟨absent, ⟨failed, -⟩ | ⟨taken, tgtfpn, took, rfl, got⟩⟩ :=
    pgGetpage_cases done
  · refine ⟨?_, got⟩
    have resident := mt Or.inl served
    simp only [Build.online, present, eq_false_of_ne_true resident, Bool.not_false, Bool.and_self]
  · exact absurd (.inr ⟨absent, (takeFrame_starved_iff junk).mp ⟨_, failed⟩⟩) served
  · refine ⟨?_, got⟩
    rw [pteGetEntry_eq inTable, pgd_mapPage inTable, if_pos rfl]
    exact online_fpnEntry _ _

/-- One that cannot be served is not, and `pg_getpage` returns. -/
theorem Settled.pgGetpage_offline (settled : Settled n m) (inTable : b.outOfTable pgn = false)
    (unserved : m.Unserved p pgn) (junk : Nat → Byte) :
    ∃ m' result, m.pgGetpage p pgn junk = some (m', result) ∧
      b.online ((m'.mm p).pteGetEntry pgn) = false := by
  obtain swapped | ⟨absent, starved⟩ := unserved
  · have present : b.pagePresent ((m.mm p).pteGetEntry pgn) = true := by
      rw [pteGetEntry_eq inTable] at swapped ⊢
      exact (settled.mm p).pages.swapped _ swapped
    refine ⟨m, some (b.pagingFpn ((m.mm p).pteGetEntry pgn)), ?_, ?_⟩
    · simp only [Machine.pgGetpage, present, if_true]
    · simp only [Build.online, swapped, Bool.not_true, Bool.and_false]
  · obtain ⟨m', failed⟩ := (takeFrame_starved_iff junk).mpr starved
    have still := (takeFrame_evicts (settled.mm p).pages failed).absent absent
    refine ⟨m', none, ?_, ?_⟩
    · simp only [Machine.pgGetpage, absent, Bool.false_eq_true, if_false, failed]
    · simp only [still, Build.online, absent, Bool.false_and]

end Pages

/-! ## Bytes -/

section Bytes

variable {m m' : Machine b P} {p : P} {rgid vmaid ret : Int} {addr offset overlay : b.Word}
  {junk : Nat → Byte} {value : Byte} {n k : Nat}

/-- The byte of RAM that backs an address of a process, where its page is in RAM. -/
def backing (m : Machine b P) (p : P) (addr : b.Word) : Option Byte :=
  if b.online ((m.mm p).pteGetEntry (b.pagingPgn addr)) then m.mram.read (m.presentAddr p addr)
  else none

/-- `__read`, with what it leaves in `*data`. -/
def readData (m : Machine b P) (caller : P) (rgid : Int) (offset overlay : b.Word)
    (junk : Nat → Byte) : Option (Machine b P × Option Byte × Int) :=
  match m.symrgStart caller rgid overlay with
  | none => none
  | some rgStart =>
      (m.pgGetval caller (rgStart + offset) junk).map fun (m, data) => (m, data, 0)

/-- The machine and the code are those of `__read`. -/
theorem readData_forget (m : Machine b P) (caller : P) (rgid : Int) (offset overlay : b.Word)
    (junk : Nat → Byte) :
    (m.readData caller rgid offset overlay junk).map (fun r => (r.1, r.2.2)) =
      m.read caller rgid offset overlay junk := by
  rw [readData, read]
  cases m.symrgStart caller rgid overlay with
  | none => rfl
  | some rgStart => exact Option.map_map _ _ _

omit [DecidableEq P] in
/-- The byte behind an address whose page is in RAM is on the device. -/
theorem Settled.presentAddr_inside (settled : Settled n m) (formatted : m.Formatted n k)
    (online : b.online ((m.mm p).pteGetEntry (b.pagingPgn addr)) = true) :
    (m.presentAddr p addr).toNat < m.mram.maxsz := by
  have below := (settled.mm p).fpn_lt_of_online online
  have whole := (Nat.mul_le_mul_right b.pageSz below).trans formatted.ramRoom
  have inPage := Nat.mod_lt addr.toNat b.pageSz_pos
  rw [Nat.succ_mul] at whole
  rw [presentAddr, toNat_phyaddr addr (b.pagingFpn_lt _)]
  omega

omit [DecidableEq P] in
theorem backing_of_offline
    (offline : b.online ((m.mm p).pteGetEntry (b.pagingPgn addr)) = false) :
    m.backing p addr = none := by
  rw [backing, if_neg (ne_true_of_eq_false offline)]

/-- `__read` returns zero and has delivered the byte that backs the address, exactly where the
page can be served. -/
theorem Settled.readData_iff (settled : Settled n m) (formatted : m.Formatted n k) :
    (∀ m' data, m.readData p rgid offset overlay junk = some (m', data, 0) →
      ∃ rgStart byte, m.symrgStart p rgid overlay = some rgStart ∧ data = some byte ∧
        m'.backing p (rgStart + offset) = some byte) ↔
    ∀ rgStart, m.symrgStart p rgid overlay = some rgStart →
      ¬ m.Unserved p (b.pagingPgn (rgStart + offset)) := by
  constructor
  · intro truthful rgStart region unserved
    obtain ⟨m', result, paged, offline⟩ :=
      settled.pgGetpage_offline (inTable_pagingPgn _) unserved junk
    obtain ⟨data, got⟩ : ∃ data, m.pgGetval p (rgStart + offset) junk = some (m', data) := by
      cases result with
      | none => exact ⟨none, by simp only [pgGetval, paged]⟩
      | some fpn => exact ⟨_, by simp only [pgGetval, paged]; rfl⟩
    obtain ⟨start, byte, found, -, backed⟩ :=
      truthful m' data (by simp only [readData, region, got, Option.map_some])
    obtain rfl := Option.some.inj (region.symm.trans found)
    rw [backing_of_offline offline] at backed
    cases backed
  · intro served m' data done
    cases region : m.symrgStart p rgid overlay with
    | none => simp [readData, region] at done
    | some rgStart =>
        simp only [readData, region] at done
        obtain ⟨⟨after, data'⟩, got, same⟩ := Option.map_eq_some_iff.mp done
        obtain ⟨rfl, rfl⟩ : after = m' ∧ data' = data :=
          ⟨(Prod.mk.inj same).1, (Prod.mk.inj (Prod.mk.inj same).2).1⟩
        have inTable := inTable_pagingPgn (rgStart + offset)
        obtain ⟨result, paged, rfl⟩ := pgGetval_cases got
        obtain ⟨online, rfl⟩ := pgGetpage_online inTable (served rgStart region) paged
        have onDevice := formatted.congr (Beside.pgGetpage paged).kinds
        have inside := (settled.pgGetpage inTable paged).presentAddr_inside onDevice online
        have byte := Memphy.read_inside onDevice.ramRdm inside
        have delivered : after.ioRead (after.presentAddr p (rgStart + offset)) (junk b.pageSz) =
            after.mram.storage (after.presentAddr p (rgStart + offset)).toNat := by
          rw [ioRead, byte, Option.getD_some, setWidth_signExtend]
        refine ⟨rgStart, _, rfl, rfl, ?_⟩
        rw [backing, if_pos online, byte]
        exact congrArg some delivered.symm

/-- A write that returns zero went on to `pg_setval`. -/
theorem write_zero (done : m.write p vmaid rgid offset overlay value junk = some (m', 0)) :
    ∃ rgStart code i, m.symrgStart p rgid overlay = some rgStart ∧
      getVmaByNum (m.mm p).mmap vmaid = some (some i) ∧
      m.pgSetval p (rgStart + offset) value junk = some (m', code) := by
  rw [write] at done
  split at done
  next => cases done
  next => exact absurd (Prod.mk.inj (Option.some.inj done)).2 (by decide)
  next => exact absurd (Prod.mk.inj (Option.some.inj done)).2 (by decide)
  next rgStart i region area =>
    obtain ⟨⟨after, code⟩, set, same⟩ := Option.map_eq_some_iff.mp done
    obtain ⟨rfl, -⟩ := Prod.mk.inj same
    exact ⟨rgStart, code, i, region, area, set⟩

/-- The dirty flag does not change what backs the page. -/
theorem backing_dirty (m : Machine b P) (p : P) (addr : b.Word) :
    (m.setMm p ((m.mm p).pteSetEntry (b.pagingPgn addr)
      (b.dirtyEntry ((m.mm p).pteGetEntry (b.pagingPgn addr))))).backing p addr =
        m.backing p addr := by
  have entry : ((m.setMm p ((m.mm p).pteSetEntry (b.pagingPgn addr)
      (b.dirtyEntry ((m.mm p).pteGetEntry (b.pagingPgn addr))))).mm p).pteGetEntry
        (b.pagingPgn addr) = b.dirtyEntry ((m.mm p).pteGetEntry (b.pagingPgn addr)) := by
    rw [mm_setMm_self]
    exact pteGetEntry_setEntryBy_self (inTable_pagingPgn addr)
  rw [backing, presentAddr, entry, online_dirtyEntry, b.pagingFpn_dirtyEntry]
  rfl

omit [DecidableEq P] in
/-- A byte that is written to where the address is backed backs it. -/
theorem backing_ioWrite (rdm : m.mram.rdmflg = true)
    (online : b.online ((m.mm p).pteGetEntry (b.pagingPgn addr)) = true)
    (inside : (m.presentAddr p addr).toNat < m.mram.maxsz) (value : Byte) :
    (m.ioWrite (m.presentAddr p addr) value).backing p addr = some value := by
  have stored : (m.ioWrite (m.presentAddr p addr) value).mram.read (m.presentAddr p addr) =
      some value := by
    rw [ioWrite, read_store _ rdm, if_pos ⟨rfl, inside⟩, setWidth_signExtend]
  exact (if_pos online).trans stored

/-- What `pg_setval` leaves in RAM. -/
theorem Settled.pgSetval_backing (settled : Settled n m) (formatted : m.Formatted n k)
    (served : ¬ m.Unserved p (b.pagingPgn addr))
    (done : m.pgSetval p addr value junk = some (m', ret)) : m'.backing p addr = some value := by
  have inTable := inTable_pagingPgn addr
  obtain ⟨failed, -⟩ | ⟨paged, fpn, got, -, rfl⟩ := pgSetval_cases done
  · cases (pgGetpage_online inTable served failed).2
  · obtain ⟨online, frame⟩ := pgGetpage_online inTable served got
    have onDevice := formatted.congr (Beside.pgGetpage got).kinds
    have inside := (settled.pgGetpage inTable got).presentAddr_inside onDevice online
    obtain rfl := Option.some.inj frame
    rw [backing_dirty]
    exact backing_ioWrite onDevice.ramRdm online inside value

/-- Where the page cannot be served, `pg_setval` returns, and the page is not in RAM. -/
theorem Settled.pgSetval_offline (settled : Settled n m)
    (unserved : m.Unserved p (b.pagingPgn addr)) (value : Byte) (junk : Nat → Byte) :
    ∃ m' code, m.pgSetval p addr value junk = some (m', code) ∧ m'.backing p addr = none := by
  obtain ⟨paged, result, got, offline⟩ :=
    settled.pgGetpage_offline (inTable_pagingPgn addr) unserved junk
  cases result with
  | none => exact ⟨paged, -1, by simp only [Machine.pgSetval, got], backing_of_offline offline⟩
  | some fpn =>
      refine ⟨_, 0, by simp only [Machine.pgSetval, got]; rfl, ?_⟩
      rw [backing_dirty]
      exact backing_of_offline offline

/-- `__write` returns zero and the byte that backs the address is the value, exactly where the
write is turned away or the page can be served. -/
theorem Settled.write_iff (settled : Settled n m) (formatted : m.Formatted n k) :
    (∀ m', m.write p vmaid rgid offset overlay value junk = some (m', 0) →
      ∃ rgStart, m.symrgStart p rgid overlay = some rgStart ∧
        m'.backing p (rgStart + offset) = some value) ↔
    ∀ rgStart i, m.symrgStart p rgid overlay = some rgStart →
      getVmaByNum (m.mm p).mmap vmaid = some (some i) →
      ¬ m.Unserved p (b.pagingPgn (rgStart + offset)) := by
  constructor
  · intro truthful rgStart i region area unserved
    obtain ⟨m', code, set, offline⟩ := settled.pgSetval_offline unserved value junk
    obtain ⟨start, found, backed⟩ :=
      truthful m' (by simp only [write, region, area, set, Option.map_some])
    obtain rfl := Option.some.inj (region.symm.trans found)
    rw [offline] at backed
    cases backed
  · intro served m' done
    obtain ⟨rgStart, code, i, region, area, set⟩ := write_zero done
    exact ⟨rgStart, region,
      settled.pgSetval_backing formatted (served rgStart i region area) set⟩

end Bytes

/-! ## Regions -/

end Machine

/-- The region does not end before its start, and its addresses are from `vm_start` up to
`sbrk`. -/
structure Region.LiesIn (rg : Region b) (vma : Vma b) : Prop where
  proper : rg.rgStart ≤ rg.rgEnd
  inside : ∀ addr, rg.rgStart ≤ addr → addr < rg.rgEnd → vma.vmStart ≤ addr ∧ addr < vma.sbrk

omit [DecidableEq P] in
/-- An area that never grew has room for an empty region only. -/
theorem liesIn_bare_iff {rg : Region b} {regions : List (Region b)} :
    rg.LiesIn ⟨0, 0, 0, 0, regions⟩ ↔ rg.rgStart = rg.rgEnd := by
  constructor
  · rintro ⟨proper, inside⟩
    by_contra apart
    have nonempty : rg.rgStart < rg.rgEnd := lt_of_le_of_ne proper fun same => apart (BitVec.eq_of_toNat_eq same)
    obtain ⟨-, low⟩ := inside _ (BitVec.le_refl _) nonempty
    exact absurd low (Nat.not_lt_zero _)
  · intro same
    refine ⟨by rw [same]; exact BitVec.le_refl _, ?_⟩
    intro addr above below
    rw [same] at above
    exact absurd below (BitVec.not_lt.mpr above)

/-- The numbers whose entry lies inside of `mm_struct`, so that `__alloc` returns. -/
def Build.Enterable (b : Build) (rgid : Int) : Prop :=
  (0 ≤ rgid ∧ rgid < pagingMaxSymtblSz) ∨ rgid = -1 ∨
    if b.width = 32 then rgid = pagingMaxSymtblSz else rgid = -2

theorem Build.symslot_ne_outside_iff (b : Build) (rgid : Int) :
    b.symslot rgid ≠ .outside ↔ b.Enterable rgid := by
  rw [Build.symslot, Build.Enterable]
  by_cases entry : 0 ≤ rgid ∧ rgid < pagingMaxSymtblSz
  · rw [if_pos entry]
    exact iff_of_true Symslot.noConfusion (.inl entry)
  rw [if_neg entry, or_iff_right entry]
  by_cases narrow : b.width = 32
  · simp only [if_pos narrow]
    split
    next last => simp [last]
    next last =>
      split
      next first => simp [first]
      next first => exact iff_of_false (fun inside => inside rfl) (not_or.mpr ⟨first, last⟩)
  · simp only [if_neg narrow]
    split
    next first => simp [first]
    next first =>
      split
      next second => simp [second]
      next second => exact iff_of_false (fun inside => inside rfl) (not_or.mpr ⟨first, second⟩)

instance (b : Build) (rgid : Int) : Decidable (b.Enterable rgid) :=
  decidable_of_iff _ (b.symslot_ne_outside_iff rgid)

namespace Machine

section Regions

variable {m m' : Machine b P} {p : P} {rgid vmaid : Int} {size : b.Word} {n : Nat}

/-- `__alloc` returns zero and its region lies in the area, exactly where the size is zero as an
`int`, or `__alloc` does not return. -/
theorem Settled.allocRegion_iff (settled : Settled n m) :
    (∀ m' region, m.allocRegion p vmaid rgid size = some (m', 0, region) →
      ∃ rg i vma, region = some rg ∧ getVmaByNum (m'.mm p).mmap vmaid = some (some i) ∧
        (m'.mm p).mmap[i]? = some vma ∧ rg.LiesIn vma) ↔
    size.toNat % 2 ^ 32 = 0 ∨ 0 < vmaid ∨ ¬ b.Enterable rgid := by
  by_cases high : 0 < vmaid
  · refine iff_of_true ?_ (.inr (.inl high))
    intro m' region done
    obtain ⟨regions, area, -⟩ := (settled.mm p).bare
    have off : getVmaByNum (m.mm p).mmap vmaid = none := by
      rw [getVmaByNum_eq_none, area]
      simpa using high
    simp [allocRegion, getFreeVmrgArea, off] at done
  have low : vmaid ≤ 0 := Int.not_lt.mp high
  obtain ⟨mmap, rg, ⟨regions, rfl, -⟩, empty, alloc⟩ :=
    allocRegion_of_bare (settled.mm p).bare settled.krnlMm low rgid size
  rw [alloc, or_iff_right high, ← viaInt_eq_zero, ← empty, ← Build.symslot_ne_outside_iff, not_not]
  by_cases outside : b.symslot rgid = .outside
  · rw [if_pos outside]
    exact iff_of_true (fun _ _ stops => absurd stops.symm (Option.some_ne_none _)) (.inr outside)
  · rw [if_neg outside, or_iff_left outside]
    constructor
    · intro truthful
      obtain ⟨rg', i, vma, same, found, place, lies⟩ := truthful _ _ rfl
      obtain rfl := Option.some.inj same
      rw [mm_setMm_self] at found place
      rw [getVmaByNum_low low] at found
      obtain rfl := Option.some.inj (Option.some.inj found)
      obtain rfl := Option.some.inj place
      exact liesIn_bare_iff.mp lies
    · intro bytes m' region done
      obtain ⟨rfl, -, rfl⟩ : m.setMm p { m.mm p with mmap := [⟨0, 0, 0, 0, regions⟩] } = m' ∧
          True ∧ some rg = region := by
        simpa using done
      refine ⟨rg, 0, ⟨0, 0, 0, 0, regions⟩, rfl, ?_, ?_, liesIn_bare_iff.mpr bytes⟩
      · rw [mm_setMm_self]
        exact getVmaByNum_low low
      · rw [mm_setMm_self]
        rfl

end Regions

/-! ## System call 17 -/

section Memmap

variable {m : Machine b P} {a1 a2 a3 : b.Word} {junk : Nat → Byte}

omit [DecidableEq P] in
/-- What `pte_set_entry` returns to a caller with this `mm`. In the MM64 build it looks into a
`NULL`. -/
def pteSetEntryRet (callerMm : Option (Mm b)) (pgn : b.Word) : Option Int :=
  match callerMm with
  | none => if b.refuses then some (-1) else none
  | some _ => some (if b.outOfTable pgn then -1 else 0)

/-- The operation that `__sys_memmap` dispatches succeeds: all that it calls to set an entry, to
grow an area or to access a device reports success. -/
def MemopDone (m : Machine b P) (a1 a2 a3 : b.Word) : Prop :=
  let memop := a1.setWidth 32
  if memop = sysmemMapOp then
    ∀ pgit : Nat, pgit < (a3.setWidth 32).toInt → pteSetEntryRet none (rangePgn a2 pgit) = some 0
  else if memop = sysmemIncOp then ∃ m', m.incVmaLimit (a2.setWidth 32).toInt a3 = some (m', 0)
  else if memop = sysmemSwpOp then
    ∀ i < b.pageSz, m.mram.read (Memphy.cell a2 i) ≠ none ∧
      ∀ data, m.activeMswp.write (Memphy.cell a3 i) data ≠ none
  else if memop = sysmemIoRead then m.mram.read a2 ≠ none
  else if memop = sysmemIoWrite then m.mram.write a2 (a3.setWidth 8) ≠ none
  else True

/-- An operation that can be served: no page is to be entered, or the call faults; never a
growth; and every cell is on its device. -/
def MemopServed (m : Machine b P) (a1 a2 a3 : b.Word) : Prop :=
  let memop := a1.setWidth 32
  if memop = sysmemMapOp then (a3.setWidth 32).toInt ≤ 0 ∨ b.refuses = false
  else if memop = sysmemIncOp then False
  else if memop = sysmemSwpOp then
    ∀ i < b.pageSz, (Memphy.cell a2 i).toNat < m.mram.maxsz ∧
      (Memphy.cell a3 i).toNat < m.activeMswp.maxsz
  else if memop = sysmemIoRead then a2.toNat < m.mram.maxsz
  else if memop = sysmemIoWrite then a2.toNat < m.mram.maxsz
  else True

/-- System call 17 returns zero and its operation succeeds, exactly where it can be served. -/
theorem sysMemmap_iff (unset : m.krnlMm = none) (ramRdm : m.mram.rdmflg = true)
    (swapRdm : m.activeMswp.rdmflg = true) :
    (∀ m', m.sysMemmap a1 a2 a3 junk = some (m', 0) → m.MemopDone a1 a2 a3) ↔
      m.MemopServed a1 a2 a3 := by
  have returning : ∀ {m'}, m.sysMemmap a1 a2 a3 junk = some (m', 0) →
      ((∀ m', m.sysMemmap a1 a2 a3 junk = some (m', 0) → m.MemopDone a1 a2 a3) ↔
        m.MemopDone a1 a2 a3) :=
    fun done => ⟨fun truthful => truthful _ done, fun succeeds _ _ => succeeds⟩
  by_cases map : a1.setWidth 32 = sysmemMapOp
  · by_cases maps : b.refuses = true
    · have done : m.sysMemmap a1 a2 a3 junk = some (m, 0) := by
        simp [sysMemmap, map, vmapPgdMemset, maps]
      rw [returning done]
      simp only [MemopDone, MemopServed, if_pos map, pteSetEntryRet, maps]
      constructor
      · intro entered
        by_contra pages
        have none := entered 0 (by omega)
        cases none
      · rintro (none | wide)
        · intro pgit below
          omega
        · cases wide
    · simp only [MemopDone, MemopServed, if_pos map, eq_false_of_ne_true maps, or_true, iff_true]
      intro m' done pgit below
      have pages : 0 < (a3.setWidth 32).toInt := by omega
      simp only [sysMemmap, if_pos map, vmapPgdMemset, if_neg maps, if_pos pages,
        Option.map_none] at done
      cases done
  by_cases inc : a1.setWidth 32 = sysmemIncOp
  · have refused := incVmaLimit_of_unset unset (a2.setWidth 32).toInt a3
    have done : m.sysMemmap a1 a2 a3 junk = some (m, 0) := by
      simp only [sysMemmap, if_neg map, if_pos inc, refused, Option.map_some]
    rw [returning done]
    simp only [MemopDone, MemopServed, if_neg map, if_pos inc, refused, iff_false]
    rintro ⟨m', same⟩
    exact absurd (Prod.mk.inj (Option.some.inj same)).2 (by decide)
  by_cases swp : a1.setWidth 32 = sysmemSwpOp
  · have done : m.sysMemmap a1 a2 a3 junk = some (m.mmSwapPage a2 a3 junk, 0) := by
      simp only [sysMemmap, if_neg map, if_neg inc, if_pos swp]
    rw [returning done]
    simp only [MemopDone, MemopServed, if_neg map, if_neg inc, if_pos swp,
      Memphy.read_ne_none ramRdm, Memphy.write_ne_none swapRdm, forall_const]
  by_cases read : a1.setWidth 32 = sysmemIoRead
  · have done : m.sysMemmap a1 a2 a3 junk = some (m, 0) := by
      simp only [sysMemmap, if_neg map, if_neg inc, if_neg swp, if_pos read]
    rw [returning done]
    simp only [MemopDone, MemopServed, if_neg map, if_neg inc, if_neg swp, if_pos read,
      Memphy.read_ne_none ramRdm]
  by_cases write : a1.setWidth 32 = sysmemIoWrite
  · have done : m.sysMemmap a1 a2 a3 junk =
        some ({ m with mram := m.mram.store a2 (a3.setWidth 8) }, 0) := by
      simp only [sysMemmap, if_neg map, if_neg inc, if_neg swp, if_neg read, if_pos write]
    rw [returning done]
    simp only [MemopDone, MemopServed, if_neg map, if_neg inc, if_neg swp, if_neg read,
      if_pos write, Memphy.write_ne_none ramRdm]
  · simp only [MemopDone, MemopServed, if_neg map, if_neg inc, if_neg swp, if_neg read,
      if_neg write, implies_true]

end Memmap

end Machine

/-! ## All requests -/

/-- A call of `__write`, `__read`, `__alloc` or system call 17, with all its arguments. -/
inductive Request (b : Build) where
  | write (vmaid rgid : Int) (offset overlay : b.Word) (value : Byte) (junk : Nat → Byte)
  | read (rgid : Int) (offset overlay : b.Word) (junk : Nat → Byte)
  | alloc (vmaid rgid : Int) (size : b.Word)
  | memmap (a1 a2 a3 : b.Word) (junk : Nat → Byte)

namespace Machine

/-- Where the call returns zero, it has done what was asked. What `__alloc` stores at
`symrgtbl[rgid]` leaves the areas alone, so they are looked at before the store. -/
def Truthful (m : Machine b P) (p : P) : Request b → Prop
  | .write vmaid rgid offset overlay value junk =>
      ∀ m', m.write p vmaid rgid offset overlay value junk = some (m', 0) →
        ∃ rgStart, m.symrgStart p rgid overlay = some rgStart ∧
          m'.backing p (rgStart + offset) = some value
  | .read rgid offset overlay junk =>
      ∀ m' data, m.readData p rgid offset overlay junk = some (m', data, 0) →
        ∃ rgStart byte, m.symrgStart p rgid overlay = some rgStart ∧ data = some byte ∧
          m'.backing p (rgStart + offset) = some byte
  | .alloc vmaid rgid size =>
      ∀ m' region, m.allocRegion p vmaid rgid size = some (m', 0, region) →
        ∃ rg i vma, region = some rg ∧ getVmaByNum (m'.mm p).mmap vmaid = some (some i) ∧
          (m'.mm p).mmap[i]? = some vma ∧ rg.LiesIn vma
  | .memmap a1 a2 a3 junk =>
      ∀ m', m.sysMemmap a1 a2 a3 junk = some (m', 0) → m.MemopDone a1 a2 a3

/-- What it takes for that. -/
def Served (m : Machine b P) (p : P) : Request b → Prop
  | .write vmaid rgid offset overlay _ _ =>
      ∀ rgStart i, m.symrgStart p rgid overlay = some rgStart →
        getVmaByNum (m.mm p).mmap vmaid = some (some i) →
        ¬ m.Unserved p (b.pagingPgn (rgStart + offset))
  | .read rgid offset overlay _ =>
      ∀ rgStart, m.symrgStart p rgid overlay = some rgStart →
        ¬ m.Unserved p (b.pagingPgn (rgStart + offset))
  | .alloc vmaid rgid size => size.toNat % 2 ^ 32 = 0 ∨ 0 < vmaid ∨ ¬ b.Enterable rgid
  | .memmap a1 a2 a3 _ => m.MemopServed a1 a2 a3

theorem Settled.truthful_iff {m : Machine b P} {n k : Nat} (settled : Settled n m)
    (formatted : m.Formatted n k) (p : P) (request : Request b) :
    m.Truthful p request ↔ m.Served p request := by
  cases request with
  | write => exact settled.write_iff formatted
  | read => exact settled.readData_iff formatted
  | alloc => exact settled.allocRegion_iff
  | memmap => exact sysMemmap_iff settled.krnlMm formatted.ramRdm formatted.swapRdm

/-- In every state that user programs reach from `init_mm` on devices of random access, with
any arguments: a call that returns zero has done what was asked, exactly where its page can be
served, its size is zero as an `int`, or its cells are on the device. -/
theorem success_truthful_iff {mram activeMswp : Memphy b} (ramRdm : mram.rdmflg = true)
    (swapRdm : activeMswp.rdmflg = true)
    (ramFree : mram.freeFpList = stock b (mram.maxsz / b.pageSz)) {calls : List (UserCall b P)}
    {m : Machine b P} (run : (userSystem b P).run (boot mram activeMswp) calls = some m) (p : P)
    (request : Request b) : m.Truthful p request ↔ m.Served p request := by
  obtain ⟨settled, kinds⟩ := settled_of_run ramFree run
  exact settled.truthful_iff ((formatted_boot ramRdm swapRdm).congr kinds) p request

/-- A second byte is written where the first one was. -/
theorem success_truthful_secondByte : ∃ m,
    (userSystem .mm32 Bool).run (boot (.init .mm32 512 true) (.init .mm32 512 true)) oneByte =
      some m ∧ m.Truthful false (.write 0 0 0 0 9 fun _ => 0) := by
  have replay : ((userSystem .mm32 Bool).run
      (boot (.init .mm32 512 true) (.init .mm32 512 true)) oneByte).any (fun m =>
        Build.mm32.online ((m.mm false).pteGetEntry 0) &&
          decide (m.symrgStart false 0 0 = some 0)) = true := by
    decide +kernel
  obtain ⟨m, run, facts⟩ := (Option.any_eq_true _ _).mp replay
  rw [Bool.and_eq_true, decide_eq_true_eq] at facts
  obtain ⟨online, region⟩ := facts
  refine ⟨m, run, (success_truthful_iff rfl rfl rfl run false _).mpr ?_⟩
  intro rgStart i found _
  obtain rfl := Option.some.inj (region.symm.trans found)
  rw [Build.online, Bool.and_eq_true, Bool.not_eq_true'] at online
  rintro (swapped | ⟨absent, -⟩)
  · exact absurd swapped (ne_true_of_eq_false online.2)
  · exact absurd online.1 (ne_true_of_eq_false absent)

/-- The first allocation of any bytes gives a region of an area that is empty. -/
theorem alloc_reports_success : ¬ ∀ (calls : List (UserCall .mm32 Unit))
    (m : Machine .mm32 Unit) (request : Request .mm32),
    (userSystem .mm32 Unit).run (boot (.init .mm32 512 true) (.init .mm32 512 true)) calls =
      some m → m.Truthful () request := by
  intro all
  have settled : Settled 2 (boot (.init .mm32 512 true) (.init .mm32 512 true) :
      Machine .mm32 Unit) := settled_boot rfl
  have served := settled.allocRegion_iff.mp (all [] _ (.alloc 0 0 256) rfl)
  exact absurd served (by decide)

end Machine

end SimpleOs.Mem
