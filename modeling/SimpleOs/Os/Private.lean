import SimpleOs.Mem.Coherence
import SimpleOs.Mem.Reuse
import SimpleOs.Mem.Settled
import SimpleOs.Os.Symbols

/-!
# A memory of its own for each process

A process is to find its memory as if it had one to itself: a byte for each address, zero at
first, the regions of its symbols and a list of regions it has freed. `Private` is that
memory. It has no frames, and nothing in it belongs to another process.

While RAM has a frame for each page that some process uses, no page ever leaves RAM, and every
call does to the private memory of its process what it should, and nothing to the others.
-/

namespace SimpleOs.Mem

variable {b : Build} {P : Type}

/-- The entry of the symbol table that an index names, if any. -/
def symbol (rgid : Int) : Option (Fin pagingMaxSymtblSz) :=
  if SymEntry rgid then some (Fin.ofNat _ rgid.toNat) else none

theorem symbol_eq_some {rgid : Int} {r : Fin pagingMaxSymtblSz} (named : symbol rgid = some r) :
    rgid = (r.val : Int) := by
  unfold symbol at named
  split at named
  · rename_i entry
    cases named
    obtain ⟨low, high⟩ := entry
    have small : rgid.toNat < pagingMaxSymtblSz := by omega
    simp only [Fin.val_ofNat, Nat.mod_eq_of_lt small]
    omega
  · cases named

theorem symbol_eq_none {rgid : Int} : symbol rgid = none ↔ ¬ SymEntry rgid := by
  unfold symbol
  split <;> simp [*]

/-- No other field of `mm_struct` lies under this index of `symrgtbl`, in either build: past the
table lies `fifo_pgn`, and before it are the pointers of the page table. -/
structure PlainIndex (rgid : Int) : Prop where
  last : rgid ≠ pagingMaxSymtblSz
  first : rgid ≠ -1
  second : rgid ≠ -2

instance (rgid : Int) : Decidable (PlainIndex rgid) :=
  decidable_of_iff (rgid ≠ pagingMaxSymtblSz ∧ rgid ≠ -1 ∧ rgid ≠ -2)
    ⟨fun ⟨last, first, second⟩ => ⟨last, first, second⟩,
      fun index => ⟨index.last, index.first, index.second⟩⟩

/-- The memory of one process. -/
structure Private (b : Build) where
  free : List (Region b)
  regions : Fin pagingMaxSymtblSz → Region b
  bytes : b.Word → Byte
  bare : BareList free

namespace Private

def init (b : Build) : Private b := ⟨[⟨0, 0⟩], fun _ => ⟨0, 0⟩, fun _ => 0, bareList_init⟩

/-- A symbol gets the first free region that is long enough, or else the bytes from address 0
on. -/
def allocate (s : Private b) (r : Fin pagingMaxSymtblSz) (size : b.Word) : Private b :=
  match found : fitRegion (b.viaInt size) s.free with
  | some (rg, rest) =>
      { s with
        free := rest
        regions := Function.update s.regions r rg
        bare := (s.bare.fitRegion found).1 }
  | none => { s with regions := Function.update s.regions r ⟨0, size⟩ }

/-- A symbol gives up its region, which is free unless it is empty. -/
def release (s : Private b) (r : Fin pagingMaxSymtblSz) : Private b :=
  if empty : (s.regions r).rgEnd ≤ (s.regions r).rgStart then
    { s with regions := Function.update s.regions r ⟨0, 0⟩ }
  else
    { s with
      free := s.regions r :: s.free
      regions := Function.update s.regions r ⟨0, 0⟩
      bare := s.bare.cons (BitVec.not_le.mp empty) }

def store (s : Private b) (addr : b.Word) (value : Byte) : Private b :=
  { s with bytes := Function.update s.bytes addr value }

/-- The address that a call reads or writes. -/
def address (s : Private b) : MemCall b P → Option b.Word
  | .libread _ source offset .. =>
      (symbol source).map fun r => (s.regions r).rgStart + offset
  | .libwrite _ _ destination offset .. =>
      (symbol destination).map fun r => (s.regions r).rgStart + offset
  | .liballoc .. | .libfree .. => none

/-- The byte that a call delivers. -/
def delivers (s : Private b) (call : MemCall b P) : Option Byte :=
  match call with
  | .libread .. => (s.address call).map s.bytes
  | .liballoc .. | .libfree .. | .libwrite .. => none

/-- What a call does, `none` where it crashes: `__alloc` and `__read` use any index. -/
def step (s : Private b) (call : MemCall b P) : Option (Private b) :=
  match call with
  | .liballoc _ size regIndex => (symbol regIndex).map fun r => s.allocate r size
  | .libfree _ regIndex => some ((symbol regIndex).elim s s.release)
  | .libread _ source .. => (symbol source).map fun _ => s
  | .libwrite _ data .. => some ((s.address call).elim s fun addr => s.store addr data)

end Private

/-- The byte that a call delivers, where it reads one. -/
def MemCall.delivers [DecidableEq P] (m : Machine b P) : MemCall b P → Option Byte
  | .libread proc source offset overlay junk =>
      (m.symrgStart proc source overlay).bind fun rgStart =>
        (m.pgGetval proc (rgStart + offset) junk).bind Prod.snd
  | .liballoc .. | .libfree .. | .libwrite .. => none

namespace Machine

variable [Fintype P]

/-- The machine is the private memories of its processes, with all pages in RAM, and no other
pages than those in `pages`. -/
structure Presents (n : Nat) (pages : Finset (P × Fin (2 ^ b.indexBits))) (m : Machine b P)
    (view : P → Private b) : Prop where
  backs : Backs n [] m fun p => (view p).bytes
  mmap : ∀ p, (m.mm p).mmap = [⟨0, 0, 0, 0, (view p).free⟩]
  symrgtbl : ∀ p, (m.mm p).symrgtbl = (view p).regions
  krnlMm : m.krnlMm = none
  resident : ∀ p i, b.pageSwapped ((m.mm p).pgd i) = false
  present : ∀ p i, b.pagePresent ((m.mm p).pgd i) = true → (p, i) ∈ pages

namespace Presents

variable {n : Nat} {pages : Finset (P × Fin (2 ^ b.indexBits))} {m m' : Machine b P}
  {view : P → Private b} {p : P} {addr : b.Word} {junk : Nat → Byte}

theorem boot {mram activeMswp : Memphy b} (random : mram.rdmflg = true)
    (formatted : mram.freeFpList = stock b (mram.maxsz / b.pageSz)) :
    Presents (mram.maxsz / b.pageSz) pages (Machine.boot mram activeMswp : Machine b P)
      fun _ => .init b where
  backs := backs_boot random formatted activeMswp
  mmap _ := rfl
  symrgtbl _ := rfl
  krnlMm := rfl
  resident _ _ := b.pageSwapped_zero
  present p i here := by
    have absent : b.pagePresent ((Mm.init b).pgd i) = false := b.pagePresent_zero
    exact absurd (absent.symm.trans here) Bool.false_ne_true

variable [DecidableEq P]

/-- A page that is not in RAM finds a free frame there. -/
theorem exists_free (presents : Presents n pages m view) (room : pages.card ≤ n)
    {i : Fin (2 ^ b.indexBits)} (member : (p, i) ∈ pages)
    (absent : b.pagePresent ((m.mm p).pgd i) = false) : m.mram.freeFpList ≠ [] := by
  intro none
  have all : (m.mram.freeFpList ++ Finset.univ.toList.flatMap (m.held b.frameOf)).Perm
      (stock b n) :=
    Custody.append_flatMap_perm_iff.mpr fun f => by simpa using presents.backs.kept.frames f
  have total := all.length_eq
  rw [none, List.nil_append, List.length_flatMap, Finset.sum_map_toList, stock, List.length_map,
    List.length_range] at total
  -- each other page of `pages` has one frame at most, and no page besides has one
  have each : ∀ page, (m.held b.frameOf page).length ≤
      if page ∈ pages.erase (p, i) then 1 else 0 := by
    rintro ⟨q, j⟩
    cases here : b.pagePresent ((m.mm q).pgd j) with
    | false => simp [held, frameOf_absent here]
    | true =>
        have other : (q, j) ≠ (p, i) := by
          rintro ⟨⟩
          exact Bool.false_ne_true (absent.symm.trans here)
        rw [if_pos (Finset.mem_erase.mpr ⟨other, presents.present q j here⟩), held,
          Build.frameOf]
        split <;> simp
  have most := Finset.sum_le_sum fun page (_ : page ∈ Finset.univ) => each page
  rw [Finset.sum_ite_mem, Finset.univ_inter, Finset.sum_const, smul_eq_mul, mul_one,
    Finset.card_erase_of_mem member] at most
  have some := Finset.card_pos.mpr ⟨_, member⟩
  omega

/-! ## The regions -/

/-- A process may change its regions and its free list. -/
theorem setRegions (presents : Presents n pages m view) (p : P) {s : Private b}
    (bytes : s.bytes = (view p).bytes) :
    Presents n pages
      (m.setMm p { m.mm p with mmap := [⟨0, 0, 0, 0, s.free⟩], symrgtbl := s.regions })
      (Function.update view p s) := by
  have flat : (fun q => (Function.update view p s q).bytes) = fun q => (view q).bytes := by
    funext q
    by_cases same : q = p
    · rw [same, Function.update_self, bytes]
    · rw [Function.update_of_ne same]
  have pgd : ∀ q, ((m.setMm p { m.mm p with
      mmap := [⟨0, 0, 0, 0, s.free⟩], symrgtbl := s.regions }).mm q).pgd = (m.mm q).pgd := by
    intro q
    by_cases same : q = p
    · rw [same, mm_setMm_self]
    · rw [mm_setMm_of_ne m same]
  have fifo : ∀ q, ((m.setMm p { m.mm p with
      mmap := [⟨0, 0, 0, 0, s.free⟩], symrgtbl := s.regions }).mm q).fifoPgn =
        (m.mm q).fifoPgn := by
    intro q
    by_cases same : q = p
    · rw [same, mm_setMm_self]
    · rw [mm_setMm_of_ne m same]
  refine ⟨?_, ?_, ?_, presents.krnlMm, ?_, ?_⟩
  · rw [flat]
    refine presents.backs.congr (presents.backs.kept.congr rfl pgd fifo) rfl ?_ ?_
    · intro q j online
      rw [pgd] at online ⊢
      exact ⟨online, rfl⟩
    · intro q j absent
      rwa [pgd] at absent
  · intro q
    by_cases same : q = p
    · rw [same, mm_setMm_self, Function.update_self]
    · rw [mm_setMm_of_ne m same, Function.update_of_ne same]
      exact presents.mmap q
  · intro q
    by_cases same : q = p
    · rw [same, mm_setMm_self, Function.update_self]
    · rw [mm_setMm_of_ne m same, Function.update_of_ne same]
      exact presents.symrgtbl q
  · intro q
    rw [pgd]
    exact presents.resident q
  · intro q
    rw [pgd]
    exact presents.present q

theorem setSymrg_symbol (mm : Mm b) {rgid : Int} (index : PlainIndex rgid)
    (rg : Region b) : setSymrg mm rgid rg =
      (symbol rgid).map fun r => { mm with symrgtbl := Function.update mm.symrgtbl r rg } := by
  cases named : symbol rgid with
  | none =>
      have outside : ¬ (0 ≤ rgid ∧ rgid < pagingMaxSymtblSz) := symbol_eq_none.mp named
      have slot : b.symslot rgid = .outside := by
        rw [Build.symslot, if_neg outside, if_neg index.last, if_neg index.first, if_neg index.second,
          if_neg index.first, ite_self]
      rw [setSymrg, slot]
      rfl
  | some r =>
      rw [symbol_eq_some named, setSymrg_fin]
      rfl

theorem liballoc (presents : Presents n pages m view) {rgid : Int}
    (index : PlainIndex rgid) (size : b.Word) :
    (m.liballoc p size rgid).map Prod.fst = (symbol rgid).map fun r =>
      m.setMm p { m.mm p with
        mmap := [⟨0, 0, 0, 0, ((view p).allocate r size).free⟩]
        symrgtbl := ((view p).allocate r size).regions } := by
  have area := presents.mmap p
  have found : getVmaByNum (m.mm p).mmap 0 = some (some 0) := by
    rw [area]
    exact getVmaByNum_low le_rfl
  have place : (m.mm p).mmap[0]? = some ⟨0, 0, 0, 0, (view p).free⟩ := by
    rw [area]
    rfl
  have same : m.setMm p { m.mm p with mmap := (m.mm p).mmap } = m := m.setMm_mm p
  unfold Private.allocate
  split
  · rename_i rg rest search
    obtain ⟨-, start, rfl, mark⟩ := (view p).bare.fitRegion search
    have put : putFreergs (m.mm p).mmap 0 rest = [⟨0, 0, 0, 0, rest⟩] := by
      rw [area]
      rfl
    rw [Machine.liballoc, Machine.alloc, getFreeVmrgArea_of_some found place search, put]
    simp only [Option.bind_eq_bind, Option.bind_some, if_neg mark, mm_setMm_self,
      setSymrg_symbol _ index, presents.symrgtbl]
    cases symbol rgid <;> simp
  · rename_i search
    rw [Machine.liballoc, Machine.alloc, getFreeVmrgArea_of_none found place search]
    simp only [Option.bind_eq_bind, Option.bind_some, same, found, place, viaInt_zero, zero_add,
      incVmaLimit_of_unset presents.krnlMm, setSymrg_symbol _ index, ← area, ← presents.symrgtbl]
    cases symbol rgid <;> rfl

theorem libfree (presents : Presents n pages m view) {rgid : Int}
    (index : PlainIndex rgid) :
    ∃ s, (view p).step (.libfree p rgid) = some s ∧ s.bytes = (view p).bytes ∧
      (m.libfree p rgid).map Prod.fst =
        some (m.setMm p { m.mm p with
          mmap := [⟨0, 0, 0, 0, s.free⟩], symrgtbl := s.regions }) := by
  have unchanged : m.setMm p { m.mm p with
      mmap := [⟨0, 0, 0, 0, (view p).free⟩], symrgtbl := (view p).regions } = m := by
    rw [← presents.mmap, ← presents.symrgtbl]
    exact m.setMm_mm p
  cases named : symbol rgid with
  | none =>
      have outside : rgid < 0 ∨ pagingMaxSymtblSz < rgid := by
        have outside := symbol_eq_none.mp named
        have last := index.last
        unfold SymEntry at outside
        omega
      refine ⟨view p, by simp [Private.step, named], rfl, ?_⟩
      rw [Machine.libfree, Machine.free, if_pos outside, unchanged]
      rfl
  | some r =>
      refine ⟨(view p).release r, by simp [Private.step, named], ?_, ?_⟩
      · unfold Private.release
        split <;> rfl
      rw [symbol_eq_some named, Machine.libfree, free_fin, presents.symrgtbl]
      by_cases unused : (view p).regions r = ⟨0, 0⟩
      · have empty : ((view p).regions r).rgEnd ≤ ((view p).regions r).rgStart := by
          rw [unused]
          exact BitVec.le_refl _
        have same : (view p).release r = view p := by
          unfold Private.release
          rw [dif_pos empty, ← unused, Function.update_eq_self]
        rw [if_pos unused, same, unchanged]
        rfl
      · rw [if_neg unused, enlistVmFreergList]
        unfold Private.release
        by_cases empty : ((view p).regions r).rgEnd ≤ ((view p).regions r).rgStart
        · rw [if_pos empty, dif_pos empty, ← presents.mmap]
          rfl
        · rw [if_neg empty, dif_neg empty]
          simp only [presents.mmap]
          rfl

/-! ## The pages -/

/-- Paging leaves the regions of every process alone. -/
structure SameRegions (m m' : Machine b P) : Prop where
  mmap : ∀ q, (m'.mm q).mmap = (m.mm q).mmap
  symrgtbl : ∀ q, (m'.mm q).symrgtbl = (m.mm q).symrgtbl
  krnlMm : m'.krnlMm = m.krnlMm

omit [Fintype P] in
theorem SameRegions.setEntryBy {mm : Mm b} (pgn : b.Word) (update : b.Word → b.Word)
    (mmap : mm.mmap = ((m.mm p).setEntryBy pgn update).mmap)
    (symrgtbl : mm.symrgtbl = ((m.mm p).setEntryBy pgn update).symrgtbl) :
    SameRegions m (m.setMm p mm) := by
  have table : ((m.mm p).setEntryBy pgn update).symrgtbl = (m.mm p).symrgtbl := by
    rw [Mm.setEntryBy]
    split <;> rfl
  refine ⟨fun q => ?_, fun q => ?_, rfl⟩
  · by_cases same : q = p
    · rw [same, mm_setMm_self, mmap, mmap_setEntryBy]
    · rw [mm_setMm_of_ne m same]
  · by_cases same : q = p
    · rw [same, mm_setMm_self, symrgtbl, table]
    · rw [mm_setMm_of_ne m same]

omit [DecidableEq P] in
/-- A machine with the same regions presents the same memories but for the bytes. -/
theorem congr (presents : Presents n pages m view) (same : SameRegions m m')
    {view' : P → Private b} (free : ∀ q, (view' q).free = (view q).free)
    (regions : ∀ q, (view' q).regions = (view q).regions)
    (backs : Backs n [] m' fun q => (view' q).bytes)
    (resident : ∀ q i, b.pageSwapped ((m'.mm q).pgd i) = false)
    (present : ∀ q i, b.pagePresent ((m'.mm q).pgd i) = true → (q, i) ∈ pages) :
    Presents n pages m' view' where
  backs := backs
  mmap q := by rw [same.mmap, presents.mmap, free]
  symrgtbl q := by rw [same.symrgtbl, presents.symrgtbl, regions]
  krnlMm := same.krnlMm.trans presents.krnlMm
  resident := resident
  present := present

section Access

variable (fits : n ≤ b.frames) (room : pages.card ≤ n) (member : (p, b.page addr) ∈ pages)

include fits room member

/-- `pg_getpage` succeeds on each page of `pages`. -/
theorem pgGetpage (presents : Presents n pages m view) (junk : Nat → Byte) :
    ∃ m' fpn, m.pgGetpage p (b.pagingPgn addr) junk = some (m', some fpn) ∧
      Presents n pages m' view := by
  have inTable := inTable_pagingPgn addr
  have entry : (m.mm p).pteGetEntry (b.pagingPgn addr) = (m.mm p).pgd (b.page addr) :=
    pteGetEntry_eq inTable
  have resident := entry ▸ presents.resident p (b.page addr)
  cases here : b.pagePresent ((m.mm p).pgd (b.page addr)) with
  | true =>
      refine ⟨m, b.pagingFpn ((m.mm p).pgd (b.page addr)), ?_, presents⟩
      rw [Machine.pgGetpage, entry, if_pos here]
  | false =>
      obtain ⟨f, rest, free⟩ := List.exists_cons_of_ne_nil (presents.exists_free room member here)
      have took : m.takeFrame p junk =
          some ({ m with mram := { m.mram with freeFpList := rest } }, some f) := by
        rw [takeFrame, Memphy.getFreefp, free]
      let taken : Machine b P := { m with mram := { m.mram with freeFpList := rest } }
      let filled := taken.fillFrame ((m.mm p).pteGetEntry (b.pagingPgn addr)) f junk
      have mm : filled.mm = m.mm := mm_fillFrame ..
      have done : m.pgGetpage p (b.pagingPgn addr) junk =
          some (filled.mapPage p (b.pagingPgn addr) f,
            some (b.pagingFpn (((filled.mapPage p (b.pagingPgn addr) f).mm p).pteGetEntry
              (b.pagingPgn addr)))) := by
        rw [Machine.pgGetpage, entry, here, took, ← entry]
        rfl
      have backs := (presents.backs.pgGetpage fits inTable resident done).1
      refine ⟨_, _, done, presents.congr ?_ (fun _ => rfl) (fun _ => rfl) backs ?_ ?_⟩
      · have same : SameRegions filled (filled.mapPage p (b.pagingPgn addr) f) :=
          .setEntryBy (b.pagingPgn addr) _ rfl rfl
        refine ⟨fun q => ?_, fun q => ?_, same.krnlMm.trans ?_⟩
        · rw [same.mmap, mm]
        · rw [same.symrgtbl, mm]
        · exact (Beside.fillFrame taken p _ f junk).krnlMm
      · intro q j
        rw [pgd_mapPage inTable, mm]
        split
        · exact b.pageSwapped_fpnEntry _ _
        · exact presents.resident q j
      · intro q j
        rw [pgd_mapPage inTable, mm]
        split
        · rename_i same
          exact fun _ => same ▸ member
        · exact presents.present q j

variable (onBus : b.OnBus addr)

include onBus

/-- `pg_getval` delivers the byte of the process. -/
theorem pgGetval (presents : Presents n pages m view) (junk : Nat → Byte) :
    ∃ m', m.pgGetval p addr junk = some (m', some ((view p).bytes addr)) ∧
      Presents n pages m' view := by
  obtain ⟨m', fpn, paged, after⟩ := presents.pgGetpage fits room member junk
  have resident := presents.resident p (b.page addr)
  rw [← pteGetEntry_eq (inTable_pagingPgn addr)] at resident
  have done : m.pgGetval p addr junk =
      some (m', some (m'.ioRead (phyaddr fpn (b.pagingOffst addr)) (junk b.pageSz))) := by
    rw [Machine.pgGetval, paged]
  have byte := (presents.backs.pgGetval fits onBus resident done).2 _ rfl
  exact ⟨m', byte ▸ done, after⟩

/-- `pg_setval` stores a byte of the process. -/
theorem pgSetval (presents : Presents n pages m view) (value : Byte) (junk : Nat → Byte) :
    ∃ m', m.pgSetval p addr value junk = some (m', 0) ∧
      Presents n pages m' (Function.update view p ((view p).store addr value)) := by
  obtain ⟨paged, fpn, got, after⟩ := presents.pgGetpage fits room member junk
  have inTable := inTable_pagingPgn addr
  have resident := presents.resident p (b.page addr)
  rw [← pteGetEntry_eq inTable] at resident
  let written := paged.ioWrite (phyaddr fpn (b.pagingOffst addr)) value
  let dirty := b.dirtyEntry ((written.mm p).pteGetEntry (b.pagingPgn addr))
  have done : m.pgSetval p addr value junk =
      some (written.setMm p ((written.mm p).pteSetEntry (b.pagingPgn addr) dirty), 0) := by
    rw [Machine.pgSetval]
    simp only [got]
    rfl
  have backs := presents.backs.pgSetval fits onBus resident done
  rw [if_pos rfl] at backs
  have flat : (fun q => (Function.update view p ((view p).store addr value) q).bytes) =
      FlatMemory.store (fun q => (view q).bytes) p addr value := by
    funext q
    by_cases same : q = p
    · rw [same, Function.update_self, FlatMemory.store, Function.update_self]
      rfl
    · rw [Function.update_of_ne same, FlatMemory.store, Function.update_of_ne same]
  have entries : ∀ q j, ((written.setMm p ((written.mm p).pteSetEntry (b.pagingPgn addr)
      dirty)).mm q).pgd j = (paged.mm q).pgd j ∨
      ((written.setMm p ((written.mm p).pteSetEntry (b.pagingPgn addr) dirty)).mm q).pgd j =
        b.dirtyEntry ((paged.mm q).pgd j) := by
    intro q j
    rw [Mm.pteSetEntry, pgd_setMm (pgd_setEntryBy inTable)]
    split
    · rename_i here
      obtain ⟨rfl, rfl⟩ := Prod.mk.inj here
      exact .inr (congrArg b.dirtyEntry (pteGetEntry_eq inTable))
    · exact .inl rfl
  have same : SameRegions paged
      (written.setMm p ((written.mm p).pteSetEntry (b.pagingPgn addr) dirty)) := by
    have kept : SameRegions written
        (written.setMm p ((written.mm p).pteSetEntry (b.pagingPgn addr) dirty)) :=
      .setEntryBy (b.pagingPgn addr) _ rfl rfl
    exact ⟨kept.mmap, kept.symrgtbl, kept.krnlMm⟩
  refine ⟨_, done, after.congr same ?_ ?_ (flat ▸ backs) ?_ ?_⟩
  · exact (Function.forall_update_iff view fun q s => s.free = (view q).free).mpr
      ⟨rfl, fun _ _ => rfl⟩
  · exact (Function.forall_update_iff view fun q s => s.regions = (view q).regions).mpr
      ⟨rfl, fun _ _ => rfl⟩
  · intro q j
    obtain kept | marked := entries q j
    · rw [kept]
      exact after.resident q j
    · rw [marked, b.pageSwapped_dirtyEntry]
      exact after.resident q j
  · intro q j
    obtain kept | marked := entries q j
    · rw [kept]
      exact after.present q j
    · rw [marked, b.pagePresent_dirtyEntry]
      exact after.present q j

end Access

/-! ## The calls -/

omit [Fintype P] [DecidableEq P] in
theorem symrgStart_symbol (m : Machine b P) (p : P) {rgid : Int}
    (index : PlainIndex rgid) (overlay : b.Word) : m.symrgStart p rgid overlay =
      (symbol rgid).map fun r => ((m.mm p).symrgtbl r).rgStart := by
  by_cases entry : SymEntry rgid
  · have inside : ¬ (rgid < 0 ∨ pagingMaxSymtblSz < rgid) := by
      unfold SymEntry at entry
      omega
    rw [symrgStart, if_neg inside, if_neg index.last, symbol, if_pos entry]
    rfl
  · have outside : rgid < 0 ∨ pagingMaxSymtblSz < rgid := by
      have last := index.last
      unfold SymEntry at entry
      omega
    rw [symrgStart, if_pos outside, symbol, if_neg entry]
    rfl

/-- Every call does to the memory of its process what it should, and delivers the byte that it
should, or crashes as it should. -/
theorem step (presents : Presents n pages m view) (fits : n ≤ b.frames) (room : pages.card ≤ n)
    {call : MemCall b P} (mine : call.caller = p) (index : PlainIndex call.rgid)
    (within : ∀ addr ∈ (view p).address call, b.OnBus addr ∧ (p, b.page addr) ∈ pages) :
    ((view p).step call = none ∧ (memSystem b P).step m call = none) ∨
      ∃ s m', (view p).step call = some s ∧ (memSystem b P).step m call = some m' ∧
        Presents n pages m' (Function.update view p s) ∧
          call.delivers m = (view p).delivers call := by
  cases call with
  | liballoc q size rgid =>
      obtain rfl : q = p := mine
      change PlainIndex rgid at index
      have served := presents.liballoc (p := q) index size
      cases named : symbol rgid with
      | none =>
          rw [named] at served
          exact .inl ⟨by simp [Private.step, named], served⟩
      | some r =>
          rw [named] at served
          refine .inr ⟨(view q).allocate r size, _, by simp [Private.step, named], served, ?_, rfl⟩
          refine presents.setRegions q ?_
          unfold Private.allocate
          split <;> rfl
  | libfree q rgid =>
      obtain rfl : q = p := mine
      change PlainIndex rgid at index
      obtain ⟨s, moved, bytes, served⟩ := presents.libfree (p := q) index
      exact .inr ⟨s, _, moved, served, presents.setRegions q bytes, rfl⟩
  | libread q source offset overlay junk =>
      obtain rfl : q = p := mine
      change PlainIndex source at index
      have start := symrgStart_symbol m q index overlay
      rw [presents.symrgtbl] at start
      cases named : symbol source with
      | none =>
          rw [named] at start
          refine .inl ⟨by simp [Private.step, named], ?_⟩
          simp [memSystem, Machine.libread, Machine.read, start]
      | some r =>
          rw [named] at start
          have address : (view q).address (.libread q source offset overlay junk) =
              some (((view q).regions r).rgStart + offset) := by
            simp [Private.address, named]
          obtain ⟨onBus, member⟩ := within _ address
          obtain ⟨m', got, after⟩ := presents.pgGetval fits room member onBus junk
          refine .inr ⟨view q, m', by simp [Private.step, named], ?_, ?_, ?_⟩
          · simp [memSystem, Machine.libread, Machine.read, start, got]
          · rwa [Function.update_eq_self]
          · simp only [MemCall.delivers, start, Option.map_some, Option.bind_some, got,
              Private.delivers, address]
  | libwrite q data destination offset overlay junk =>
      obtain rfl : q = p := mine
      change PlainIndex destination at index
      have start := symrgStart_symbol m q index overlay
      rw [presents.symrgtbl] at start
      have found : getVmaByNum (m.mm q).mmap 0 = some (some 0) := by
        rw [presents.mmap]
        exact getVmaByNum_low le_rfl
      cases named : symbol destination with
      | none =>
          rw [named] at start
          refine .inr ⟨view q, m, by simp [Private.step, Private.address, named], ?_, ?_, rfl⟩
          · simp [memSystem, Machine.libwrite, Machine.write, start, found]
          · rwa [Function.update_eq_self]
      | some r =>
          rw [named] at start
          have address : (view q).address (.libwrite q data destination offset overlay junk) =
              some (((view q).regions r).rgStart + offset) := by
            simp [Private.address, named]
          obtain ⟨onBus, member⟩ := within _ address
          obtain ⟨m', set, after⟩ := presents.pgSetval fits room member onBus data junk
          refine .inr ⟨_, m', by simp only [Private.step, address]; rfl, ?_, after,
            rfl⟩
          simp [memSystem, Machine.libwrite, Machine.write, start, found, set]

end Presents

end Machine

end SimpleOs.Mem
