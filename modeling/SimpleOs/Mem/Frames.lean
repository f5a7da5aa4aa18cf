import SimpleOs.Lib.Custody
import SimpleOs.Mem.Paging

/-!
# RAM frames and where they are

A frame of RAM is on the free list, or the entry of one page of one process names
it, or a page fault under way has it in hand. `RamKept` states this with what the
FIFO lists need for it, and each piece of a page fault keeps it.
-/

namespace SimpleOs.Mem

open Custody (occurrences Exclusive)

variable {b : Build}

/-- `PRESENT` and not `SWAPPED` -/
def Build.online (b : Build) (pte : b.Word) : Bool := b.pagePresent pte && !b.pageSwapped pte

/-- The RAM frame an entry holds. -/
def Build.frameOf (b : Build) (pte : b.Word) : List b.Word :=
  if b.online pte then [b.pagingFpn pte] else []

theorem frameOf_online {pte : b.Word} (online : b.online pte = true) :
    b.frameOf pte = [b.pagingFpn pte] :=
  if_pos online

theorem frameOf_absent {pte : b.Word} (absent : b.pagePresent pte = false) : b.frameOf pte = [] := by
  simp [Build.frameOf, Build.online, absent]

theorem frameOf_swapEntry (pte swptyp swpoff : b.Word) :
    b.frameOf (b.swapEntry pte swptyp swpoff) = [] := by
  simp [Build.frameOf, Build.online]

theorem online_fpnEntry (pte fpn : b.Word) : b.online (b.fpnEntry pte fpn) = true := by
  simp [Build.online]

@[simp] theorem online_dirtyEntry (pte : b.Word) : b.online (b.dirtyEntry pte) = b.online pte := by
  simp [Build.online]

theorem frameOf_dirtyEntry (pte : b.Word) : b.frameOf (b.dirtyEntry pte) = b.frameOf pte := by
  simp [Build.frameOf]

section Entries

variable {mm : Mm b} {pgn q : b.Word} {update : b.Word → b.Word}

/-- Only a page number within the table has an entry with a flag set. -/
theorem inTable_of_online (online : b.online (mm.pteGetEntry pgn) = true) :
    b.outOfTable pgn = false := by
  by_contra outside
  simp [Mm.pteGetEntry, eq_true_of_ne_false outside, Build.online] at online

theorem pteGetEntry_eq (inTable : b.outOfTable pgn = false) :
    mm.pteGetEntry pgn = mm.pgd (b.index pgn) := by
  rw [Mm.pteGetEntry, inTable]
  rfl

/-- A page number taken from an address is within the table. -/
theorem inTable_pagingPgn (addr : b.Word) : b.outOfTable (b.pagingPgn addr) = false := by
  have wf := b.wellFormed
  rw [Build.outOfTable, Bool.and_eq_false_iff]
  by_cases refuses : b.refuses = true
  · right
    have below : (b.pagingPgn addr).toNat < 2 ^ b.indexBits := by
      rw [b.toNat_pagingPgn]
      refine lt_of_lt_of_le (Nat.mod_lt _ (Nat.two_pow_pos _)) ?_
      exact Nat.pow_le_pow_right (by decide) (wf.refusal refuses)
    simpa using below
  · exact .inl (eq_false_of_ne_true refuses)

theorem pgd_setEntryBy (inTable : b.outOfTable pgn = false) :
    (mm.setEntryBy pgn update).pgd =
      Function.update mm.pgd (b.index pgn) (update (mm.pteGetEntry pgn)) := by
  rw [Mm.setEntryBy, inTable, pteGetEntry_eq inTable]
  rfl

@[simp] theorem fifoPgn_setEntryBy : (mm.setEntryBy pgn update).fifoPgn = mm.fifoPgn := by
  rw [Mm.setEntryBy]
  split <;> rfl

@[simp] theorem mmap_setEntryBy : (mm.setEntryBy pgn update).mmap = mm.mmap := by
  rw [Mm.setEntryBy]
  split <;> rfl

/-- The page numbers that the table covers are within it. -/
theorem inTable_of_lt (covered : pgn.toNat < 2 ^ b.indexBits) : b.outOfTable pgn = false := by
  rw [Build.outOfTable, decide_eq_false (Nat.not_le.mpr covered), Bool.and_false]

/-- The page numbers that the table covers have different entries. -/
theorem index_inj (covered : pgn.toNat < 2 ^ b.indexBits) (covered' : q.toNat < 2 ^ b.indexBits)
    (same : b.index pgn = b.index q) : pgn = q := by
  have value : pgn.toNat % 2 ^ b.indexBits = q.toNat % 2 ^ b.indexBits := congrArg Fin.val same
  rw [Nat.mod_eq_of_lt covered, Nat.mod_eq_of_lt covered'] at value
  exact BitVec.eq_of_toNat_eq value

/-- Where page numbers are refused, those in the table have different entries. -/
theorem index_injOn (refuses : b.refuses = true) {pgn pgn' : b.Word}
    (inTable : b.outOfTable pgn = false) (inTable' : b.outOfTable pgn' = false)
    (same : b.index pgn = b.index pgn') : pgn = pgn' := by
  simp only [Build.outOfTable, refuses, Bool.true_and, decide_eq_false_iff_not, Nat.not_le]
    at inTable inTable'
  exact index_inj inTable inTable' same

theorem pteGetEntry_setEntryBy_self (inTable : b.outOfTable pgn = false) :
    (mm.setEntryBy pgn update).pteGetEntry pgn = update (mm.pteGetEntry pgn) := by
  rw [pteGetEntry_eq inTable, pgd_setEntryBy inTable, Function.update_self]

theorem pteGetEntry_setEntryBy_of_ne (other : b.index q ≠ b.index pgn) :
    (mm.setEntryBy pgn update).pteGetEntry q = mm.pteGetEntry q := by
  rw [Mm.setEntryBy]
  split
  · rfl
  · simp [Mm.pteGetEntry, other]

end Entries

/-- A victim is the last page of a list of two or more, and leaves it. -/
theorem findVictimPage_spec {fifo fifo' : Fifo b} {vicpgn : b.Word}
    (found : findVictimPage fifo = some (some (vicpgn, fifo'))) :
    fifo.pgns = fifo'.pgns ++ [vicpgn] ∧ fifo'.wild = false ∧ fifo.wild = false ∧
      2 ≤ fifo.pgns.length := by
  obtain ⟨pgns, wild⟩ := fifo
  cases wild with
  | true => simp [findVictimPage] at found
  | false =>
      match pgns with
      | [] => simp [findVictimPage] at found
      | [_] => simp [findVictimPage] at found
      | pgn :: next :: rest =>
          simp only [findVictimPage, Bool.false_eq_true, if_false, Option.some.injEq,
            Prod.mk.injEq] at found
          obtain ⟨rfl, rfl⟩ := found
          refine ⟨?_, rfl, rfl, by simp⟩
          have last : (next :: rest).getLastD pgn = (pgn :: next :: rest).getLast (by simp) :=
            (List.getLast_eq_getLastD _).symm
          rw [last, List.dropLast_append_getLast]

/-- There is no victim where the list is empty. -/
theorem findVictimPage_eq_null {fifo : Fifo b} :
    findVictimPage fifo = some none ↔ fifo.pgns = [] ∧ fifo.wild = false := by
  obtain ⟨pgns, wild⟩ := fifo
  cases wild with
  | true => simp [findVictimPage]
  | false =>
      match pgns with
      | [] => simp [findVictimPage]
      | [_] => simp [findVictimPage]
      | pgn :: next :: rest => simp [findVictimPage]

/-- There is one where the list has two pages or more. -/
theorem exists_victim {fifo : Fifo b} (proper : fifo.wild = false) (two : 2 ≤ fifo.pgns.length) :
    ∃ victim, findVictimPage fifo = some (some victim) := by
  obtain ⟨pgns, wild⟩ := fifo
  obtain rfl : wild = false := proper
  match pgns, two with
  | pgn :: next :: rest, _ => exact ⟨_, rfl⟩

/-- The FIFO list names pages that hold a frame, each once. -/
structure Mm.PagesKept (mm : Mm b) : Prop where
  /-- `pte_set_swap` leaves `PRESENT` set, so no entry has `SWAPPED` alone. -/
  swapped : ∀ i, b.pageSwapped (mm.pgd i) = true → b.pagePresent (mm.pgd i) = true
  nodup : (mm.fifoPgn.pgns.map b.index).Nodup
  listed : ∀ pgn ∈ mm.fifoPgn.pgns, b.online (mm.pteGetEntry pgn) = true

namespace Mm.PagesKept

variable {mm mm' : Mm b} {pgn f : b.Word}

theorem congr (kept : mm.PagesKept) (pgd : mm'.pgd = mm.pgd) (fifo : mm'.fifoPgn = mm.fifoPgn) :
    mm'.PagesKept := by
  have entry : ∀ pgn, mm'.pteGetEntry pgn = mm.pteGetEntry pgn := by
    intro pgn
    rw [pteGetEntry, pteGetEntry, pgd]
  refine ⟨?_, ?_, ?_⟩
  · rw [pgd]
    exact kept.swapped
  · rw [fifo]
    exact kept.nodup
  · intro pgn
    rw [fifo, entry]
    exact kept.listed pgn

/-- An absent page is not swapped either. -/
theorem not_swapped (kept : mm.PagesKept) (absent : b.pagePresent (mm.pteGetEntry pgn) = false) :
    b.pageSwapped (mm.pteGetEntry pgn) = false := by
  rw [pteGetEntry] at absent ⊢
  split at absent
  next outside =>
    rw [if_pos outside]
    exact b.pageSwapped_zero
  next inside =>
    rw [if_neg inside]
    by_contra swapped
    have present := kept.swapped _ (eq_true_of_ne_false swapped)
    rw [absent] at present
    exact Bool.false_ne_true present

/-- A listed page differs from an absent one in its index. -/
theorem index_ne (kept : mm.PagesKept) (absent : b.pagePresent (mm.pteGetEntry pgn) = false)
    (inTable : b.outOfTable pgn = false) {q : b.Word} (member : q ∈ mm.fifoPgn.pgns) :
    b.index q ≠ b.index pgn := by
  intro here
  have online := kept.listed q member
  rw [pteGetEntry_eq (inTable_of_online online), here, ← pteGetEntry_eq inTable] at online
  simp [Build.online, absent] at online

/-- The update of one entry that leaves the list as it is. -/
theorem setEntryBy (kept : mm.PagesKept) {update : b.Word → b.Word}
    (inTable : b.outOfTable pgn = false)
    (swapped : b.pageSwapped (update (mm.pteGetEntry pgn)) = true →
      b.pagePresent (update (mm.pteGetEntry pgn)) = true)
    (listed : ∀ q ∈ mm.fifoPgn.pgns, b.index q = b.index pgn →
      b.online (update (mm.pteGetEntry pgn)) = true) :
    (mm.setEntryBy pgn update).PagesKept := by
  have list : (mm.setEntryBy pgn update).fifoPgn = mm.fifoPgn := fifoPgn_setEntryBy
  refine ⟨?_, ?_, ?_⟩
  · intro i
    rw [pgd_setEntryBy inTable]
    by_cases here : i = b.index pgn
    · rw [here, Function.update_self]
      exact swapped
    · rw [Function.update_of_ne here]
      exact kept.swapped i
  · rw [list]
    exact kept.nodup
  · intro q member
    rw [list] at member
    by_cases here : b.index q = b.index pgn
    · rw [pteGetEntry_eq (inTable_of_online (kept.listed q member)), here,
        ← pteGetEntry_eq inTable, pteGetEntry_setEntryBy_self inTable]
      exact listed q member here
    · rw [pteGetEntry_setEntryBy_of_ne here]
      exact kept.listed q member

/-- A victim leaves the list, and the rest of the list is about other pages. -/
theorem findVictimPage (kept : mm.PagesKept) {fifo : Fifo b}
    (found : findVictimPage mm.fifoPgn = some (some (pgn, fifo))) :
    { mm with fifoPgn := fifo }.PagesKept ∧ b.online (mm.pteGetEntry pgn) = true ∧
      ∀ q ∈ fifo.pgns, b.index q ≠ b.index pgn := by
  obtain ⟨list, -⟩ := findVictimPage_spec found
  have nodup := kept.nodup
  have listed := kept.listed
  rw [list] at nodup listed
  rw [List.map_append, List.nodup_append] at nodup
  obtain ⟨rest, -, apart⟩ := nodup
  refine ⟨⟨kept.swapped, rest, ?_⟩, ?_, ?_⟩
  · intro q member
    exact listed q (List.mem_append_left _ member)
  · exact listed pgn (List.mem_append_right _ List.mem_cons_self)
  · intro q member
    exact apart _ (List.mem_map_of_mem member) _ (by simp)

/-- `pte_set_swap` on a page that is not listed. -/
theorem pteSetSwap (kept : mm.PagesKept) (inTable : b.outOfTable pgn = false)
    (unlisted : ∀ q ∈ mm.fifoPgn.pgns, b.index q ≠ b.index pgn) (swptyp : BitVec 32)
    (swpoff : b.Word) : (mm.pteSetSwap pgn swptyp swpoff).PagesKept := by
  refine kept.setEntryBy inTable ?_ ?_
  · intro _
    exact b.pagePresent_swapEntry _ _ _
  · intro q member here
    exact absurd here (unlisted q member)

/-- `DIRTY` does not change whether a page is listed. -/
theorem dirty (kept : mm.PagesKept) (inTable : b.outOfTable pgn = false) :
    (mm.pteSetEntry pgn (b.dirtyEntry (mm.pteGetEntry pgn))).PagesKept := by
  refine kept.setEntryBy inTable ?_ ?_
  · rw [b.pageSwapped_dirtyEntry, b.pagePresent_dirtyEntry, pteGetEntry_eq inTable]
    exact kept.swapped _
  · intro q member here
    have online := kept.listed q member
    rw [pteGetEntry_eq (inTable_of_online online), here, ← pteGetEntry_eq inTable] at online
    rw [online_dirtyEntry]
    exact online

/-- An absent page becomes present and is listed first. -/
theorem enlist (kept : mm.PagesKept) (absent : b.pagePresent (mm.pteGetEntry pgn) = false)
    (inTable : b.outOfTable pgn = false) :
    ((mm.pteSetFpn pgn f).enlistPgnNode pgn).PagesKept := by
  have entered : (mm.pteSetFpn pgn f).PagesKept := by
    refine kept.setEntryBy inTable ?_ ?_
    · intro _
      exact b.pagePresent_fpnEntry _ _
    · intro q member here
      exact absurd here (kept.index_ne absent inTable member)
  have list : (mm.pteSetFpn pgn f).fifoPgn = mm.fifoPgn := fifoPgn_setEntryBy
  refine ⟨entered.swapped, ?_, ?_⟩
  · show ((pgn :: (mm.pteSetFpn pgn f).fifoPgn.pgns).map b.index).Nodup
    rw [list, List.map_cons, List.nodup_cons]
    refine ⟨?_, kept.nodup⟩
    intro member
    obtain ⟨q, listed, same⟩ := List.mem_map.mp member
    exact kept.index_ne absent inTable listed same
  · intro q member
    obtain rfl | older := List.mem_cons.mp member
    · show b.online ((mm.setEntryBy q _).pteGetEntry q) = true
      rw [pteGetEntry_setEntryBy_self inTable]
      exact online_fpnEntry _ _
    · exact entered.listed q older

end Mm.PagesKept

namespace Machine

variable {P : Type}

/-- What the entry of each page of each process holds. -/
def held (holds : b.Word → List b.Word) (m : Machine b P) (page : P × Fin (2 ^ b.indexBits)) :
    List b.Word :=
  holds ((m.mm page.1).pgd page.2)

theorem mem_held_of_online {m : Machine b P} {p : P} {i : Fin (2 ^ b.indexBits)}
    (online : b.online ((m.mm p).pgd i) = true) :
    b.pagingFpn ((m.mm p).pgd i) ∈ m.held b.frameOf (p, i) := by
  rw [held, frameOf_online online]
  exact List.mem_cons_self

/-- Frames `0..n-1` are free, held by an entry or in `hand`, each once. -/
def Conserved [Fintype P] (n : Nat) (holds : b.Word → List b.Word) (free hand : List b.Word)
    (m : Machine b P) : Prop :=
  ∀ f, free.count f + occurrences (m.held holds) f + hand.count f = (stock b n).count f

variable {m m' : Machine b P} {mm : Mm b} {n : Nat} {holds : b.Word → List b.Word}
  {free hand hand' : List b.Word} {p : P} {pgn f v : b.Word} {i : Fin (2 ^ b.indexBits)}
  {junk : Nat → Byte}

theorem Conserved.congr [Fintype P] (kept : Conserved n holds free hand m)
    (pgd : ∀ p, (m'.mm p).pgd = (m.mm p).pgd) : Conserved n holds free hand m' := by
  have same : m'.held holds = m.held holds := by
    funext page
    rw [held, held, pgd page.1]
  intro f
  rw [same]
  exact kept f

/-- Pop the first free frame. -/
theorem Conserved.pop [Fintype P] (kept : Conserved n holds (f :: free) [] m) :
    Conserved n holds free [f] m := by
  intro f'
  have account := kept f'
  rw [List.count_cons, List.count_nil] at account
  rw [List.count_singleton]
  omega

/-- The frame in hand is one of the stock. -/
theorem Conserved.hand_mem [Fintype P] (kept : Conserved n holds free [f] m) : f ∈ stock b n := by
  have account := kept f
  rw [List.count_singleton_self] at account
  apply List.count_pos_iff.mp
  omega

/-- No frame is held twice, as long as the numbers of frames are distinct. -/
theorem Conserved.exclusive [Fintype P] (kept : Conserved n holds free hand m)
    (fits : n ≤ 2 ^ b.width) : Exclusive (m.held holds) := by
  intro f
  have account := kept f
  have once := List.nodup_iff_count_le_one.mp (nodup_stock fits) f
  omega

/-- A frame that is held is not free. -/
theorem Conserved.not_free [Fintype P] (kept : Conserved n holds free hand m)
    (fits : n ≤ 2 ^ b.width) {page : P × Fin (2 ^ b.indexBits)} (member : f ∈ m.held holds page) :
    f ∉ free := by
  intro there
  have account := kept f
  have once := List.nodup_iff_count_le_one.mp (nodup_stock fits) f
  have counted := Custody.occurrences_ne_zero member
  have count := List.count_pos_iff.mpr there
  omega

/-- A property of every process is shown at the changed one anew. -/
theorem forall_setMm [DecidableEq P] {R : Mm b → Prop} (here : R mm)
    (others : ∀ q, R (m.mm q)) (q : P) : R ((m.setMm p mm).mm q) := by
  by_cases same : q = p
  · rw [same, mm_setMm_self]
    exact here
  · rw [mm_setMm_of_ne m same]
    exact others q

/-- Setting one entry of one process. -/
theorem pgd_setMm [DecidableEq P] (pgd : mm.pgd = Function.update (m.mm p).pgd i v) (q : P)
    (j : Fin (2 ^ b.indexBits)) :
    ((m.setMm p mm).mm q).pgd j = if (q, j) = (p, i) then v else (m.mm q).pgd j := by
  by_cases same : q = p
  · subst same
    by_cases here : j = i
    · subst here
      simp [pgd]
    · simp [pgd, here]
  · simp [mm_setMm_of_ne m same, same]

theorem pgd_mapPage [DecidableEq P] {f : b.Word} (inTable : b.outOfTable pgn = false) (q : P)
    (j : Fin (2 ^ b.indexBits)) : ((m.mapPage p pgn f).mm q).pgd j =
      if (q, j) = (p, b.index pgn) then b.fpnEntry ((m.mm p).pteGetEntry pgn) f
      else (m.mm q).pgd j := by
  have entered : (((m.mm p).pteSetFpn pgn f).enlistPgnNode pgn).pgd =
      Function.update (m.mm p).pgd (b.index pgn) (b.fpnEntry ((m.mm p).pteGetEntry pgn) f) :=
    pgd_setEntryBy inTable
  exact pgd_setMm entered q j

theorem pteGetEntry_mapPage [DecidableEq P] {f : b.Word} (inTable : b.outOfTable pgn = false) :
    ((m.mapPage p pgn f).mm p).pteGetEntry pgn = b.fpnEntry ((m.mm p).pteGetEntry pgn) f := by
  rw [pteGetEntry_eq inTable, pgd_mapPage inTable, if_pos rfl]

theorem pteGetEntry_mapPage_of_ne [DecidableEq P] {f q : b.Word} (other : b.index q ≠ b.index pgn) :
    ((m.mapPage p pgn f).mm p).pteGetEntry q = (m.mm p).pteGetEntry q := by
  rw [mapPage, mm_setMm_self]
  exact pteGetEntry_setEntryBy_of_ne other

theorem pgd_setFifo [DecidableEq P] (fifo : Fifo b) (q : P) :
    ((m.setMm p { m.mm p with fifoPgn := fifo }).mm q).pgd = (m.mm q).pgd := by
  by_cases same : q = p
  · rw [same, mm_setMm_self]
  · rw [mm_setMm_of_ne m same]

theorem held_setMm [DecidableEq P] (pgd : mm.pgd = Function.update (m.mm p).pgd i v) :
    (m.setMm p mm).held holds = Function.update (m.held holds) (p, i) (holds v) := by
  funext ⟨q, j⟩
  rw [held, pgd_setMm pgd, Function.update_apply]
  split <;> rfl

/-- A new entry may hold what was in hand, and what the old entry held goes there. -/
theorem Conserved.setEntry [Fintype P] [DecidableEq P]
    (kept : Conserved n holds free hand m)
    (pgd : mm.pgd = Function.update (m.mm p).pgd i v)
    (moved : ∀ f, (holds v).count f + hand'.count f =
      (holds ((m.mm p).pgd i)).count f + hand.count f) :
    Conserved n holds free hand' (m.setMm p mm) := by
  intro f
  have account := Custody.occurrences_update (m.held holds) (p, i) (holds v) f
  have before := kept f
  have exchange := moved f
  rw [held_setMm pgd]
  simp only [held] at account
  omega

/-- Frames are conserved, and the pages of every process are in order. -/
structure RamKept [Fintype P] (n : Nat) (hand : List b.Word) (m : Machine b P) : Prop where
  frames : Conserved n b.frameOf m.mram.freeFpList hand m
  pages : ∀ p, (m.mm p).PagesKept

/-- The frame that a page fault would take from a free list has a number that fits in an
entry. -/
structure FrameFits (m : Machine b P) : Prop where
  ram : ∀ f ∈ m.mram.freeFpList.head?, f.toNat < b.frames
  swap : m.mram.freeFpList = [] → ∀ f ∈ m.activeMswp.freeFpList.head?, f.toNat < b.swapFrames

theorem FrameFits.takeFrame [DecidableEq P] (fits : FrameFits m)
    (took : m.takeFrame p junk = some (m', some f)) : f.toNat < b.frames := by
  obtain ⟨fpn, mram, popped, -, same⟩ | ⟨-, swapped⟩ := takeFrame_cases took
  · cases same
    apply fits.ram
    rw [(Memphy.getFreefp_cases popped).1]
    rfl
  · obtain ⟨-, -, none⟩ | ⟨vicpgn, fifo, -, ⟨-, -, none⟩ | ⟨swpfpn, mswp, -, -, same⟩⟩ :=
      swapOut_cases swapped
    · cases none
    · cases none
    · cases same
      exact b.pagingFpn_lt _

/-- A frame is got by swapping out pages that hold one; no other entry changes. -/
structure Evicts (m m' : Machine b P) : Prop where
  entries : ∀ p i, (m'.mm p).pgd i = (m.mm p).pgd i ∨
    b.online ((m.mm p).pgd i) = true ∧ b.pageSwapped ((m'.mm p).pgd i) = true
  mram : m'.mram = { m.mram with freeFpList := m'.mram.freeFpList }

theorem Evicts.absent (evicts : Evicts m m')
    (absent : b.pagePresent ((m.mm p).pteGetEntry pgn) = false) :
    (m'.mm p).pteGetEntry pgn = (m.mm p).pteGetEntry pgn := by
  rw [Mm.pteGetEntry, Mm.pteGetEntry]
  split
  next => rfl
  next inside =>
    rw [Mm.pteGetEntry, if_neg inside] at absent
    obtain same | ⟨online, -⟩ := evicts.entries p (b.index pgn)
    · exact same
    · simp [Build.online, absent] at online

theorem takeFrame_evicts [DecidableEq P] (kept : (m.mm p).PagesKept) {result : Option b.Word}
    (done : m.takeFrame p junk = some (m', result)) : Evicts m m' := by
  obtain ⟨fpn, mram, popped, rfl, -⟩ | ⟨-, swapped⟩ := takeFrame_cases done
  · exact ⟨fun _ _ => .inl rfl, (Memphy.getFreefp_cases popped).2⟩
  · obtain ⟨-, rfl, -⟩ | ⟨vicpgn, fifo, found, action⟩ := swapOut_cases swapped
    · exact ⟨fun _ _ => .inl rfl, rfl⟩
    · obtain ⟨-, online, -⟩ := kept.findVictimPage found
      have inTable := inTable_of_online online
      obtain ⟨-, rfl, -⟩ | ⟨swpfpn, mswp, -, rfl, -⟩ := action
      · exact ⟨fun q i => .inl (congrFun (pgd_setFifo fifo q) i), rfl⟩
      · refine ⟨fun q i => ?_, rfl⟩
        rw [evict, Mm.pteSetSwap, pgd_setMm (pgd_setEntryBy inTable)]
        split
        next here =>
          obtain ⟨rfl, rfl⟩ := Prod.mk.inj here
          rw [pteGetEntry_eq inTable] at online
          exact .inr ⟨online, b.pageSwapped_swapEntry _ _ _⟩
        next => exact .inl (congrFun (pgd_setFifo fifo q) i)

namespace RamKept

variable [Fintype P]

/-- The other parts of the machine do not matter. -/
theorem congr (kept : RamKept n hand m) (free : m'.mram.freeFpList = m.mram.freeFpList)
    (pgd : ∀ p, (m'.mm p).pgd = (m.mm p).pgd)
    (fifo : ∀ p, (m'.mm p).fifoPgn = (m.mm p).fifoPgn) : RamKept n hand m' := by
  refine ⟨?_, fun p => (kept.pages p).congr (pgd p) (fifo p)⟩
  rw [free]
  exact kept.frames.congr pgd

theorem exclusive (kept : RamKept n hand m) (fits : n ≤ b.frames) : Exclusive (m.held b.frameOf) :=
  kept.frames.exclusive (fits.trans b.frames_le)

/-- A page in RAM holds one of the frames of the stock. -/
theorem fpn_lt (kept : RamKept n hand m) {i : Fin (2 ^ b.indexBits)}
    (online : b.online ((m.mm p).pgd i) = true) : (b.pagingFpn ((m.mm p).pgd i)).toNat < n := by
  have account := kept.frames (b.pagingFpn ((m.mm p).pgd i))
  have counted := Custody.occurrences_ne_zero (mem_held_of_online online)
  apply lt_of_mem_stock
  apply List.count_pos_iff.mp
  omega

/-- Two pages in RAM do not share a frame. -/
theorem page_eq (kept : RamKept n hand m) (fits : n ≤ b.frames) {q : P}
    {i j : Fin (2 ^ b.indexBits)} (online : b.online ((m.mm p).pgd i) = true)
    (online' : b.online ((m.mm q).pgd j) = true)
    (same : b.pagingFpn ((m.mm p).pgd i) = b.pagingFpn ((m.mm q).pgd j)) : (p, i) = (q, j) := by
  classical
  apply (kept.exclusive fits).unique (t := b.pagingFpn ((m.mm p).pgd i))
  · exact mem_held_of_online online
  · rw [same]
    exact mem_held_of_online online'

/-- No page in RAM has the frame in hand. -/
theorem fpn_ne_hand {f : b.Word} (kept : RamKept n [f] m) (fits : n ≤ b.frames)
    {i : Fin (2 ^ b.indexBits)} (online : b.online ((m.mm p).pgd i) = true) :
    b.pagingFpn ((m.mm p).pgd i) ≠ f := by
  intro same
  have account := kept.frames f
  have counted := Custody.occurrences_ne_zero (same ▸ mem_held_of_online online)
  have once := List.nodup_iff_count_le_one.mp (nodup_stock (fits.trans b.frames_le)) f
  rw [List.count_singleton_self] at account
  omega

/-- `MEMPHY_get_freefp` on RAM. -/
theorem getFreefp (kept : RamKept n [] m) {mram : Memphy b}
    (popped : m.mram.getFreefp = some (f, mram)) : RamKept n [f] { m with mram := mram } := by
  have frames := kept.frames
  rw [(Memphy.getFreefp_cases popped).1] at frames
  exact ⟨frames.pop, kept.pages⟩

theorem fillFrame (kept : RamKept n hand m) (pte : b.Word) :
    RamKept n hand (m.fillFrame pte f junk) :=
  kept.congr (m.freeFpList_fillFrame pte f junk) (fun _ => by rw [mm_fillFrame]) fun _ => by
    rw [mm_fillFrame]

variable [DecidableEq P]

/-- A change to one process is accounted for there. -/
theorem setMm (kept : RamKept n hand m) (pages : mm.PagesKept)
    (pgd : mm.pgd = Function.update (m.mm p).pgd i v)
    (moved : ∀ f, (b.frameOf v).count f + hand'.count f =
      (b.frameOf ((m.mm p).pgd i)).count f + hand.count f) : RamKept n hand' (m.setMm p mm) :=
  ⟨kept.frames.setEntry pgd moved, forall_setMm pages kept.pages⟩

/-- A change to the list of one process. -/
theorem setFifo (kept : RamKept n hand m) {fifo : Fifo b}
    (pages : { m.mm p with fifoPgn := fifo }.PagesKept) :
    RamKept n hand (m.setMm p { m.mm p with fifoPgn := fifo }) := by
  exact ⟨kept.frames.congr (pgd_setFifo fifo), forall_setMm pages kept.pages⟩

/-- `pte_set_swap` takes the frame from a page that is not listed. -/
theorem evict (kept : RamKept n [] m) (process : m.mm p = mm)
    (online : b.online (mm.pteGetEntry pgn) = true)
    (unlisted : ∀ q ∈ mm.fifoPgn.pgns, b.index q ≠ b.index pgn) (swpfpn : b.Word)
    (junk : Nat → Byte) :
    RamKept n [b.pagingFpn (mm.pteGetEntry pgn)] (m.evict p pgn swpfpn junk) := by
  subst process
  have inTable := inTable_of_online online
  have copied : RamKept n [] (m.mmSwapPage (b.pagingFpn ((m.mm p).pteGetEntry pgn)) swpfpn junk) :=
    kept.congr rfl (fun _ => rfl) fun _ => rfl
  refine copied.setMm ((copied.pages p).pteSetSwap inTable unlisted _ _) (pgd_setEntryBy inTable) ?_
  intro f
  rw [frameOf_swapEntry]
  show _ = (b.frameOf ((m.mm p).pgd (b.index pgn))).count f + _
  rw [← pteGetEntry_eq inTable, frameOf_online online]
  exact Nat.add_comm _ _

/-- `pte_set_fpn` gives the frame in hand to an absent page. -/
theorem mapPage (kept : RamKept n [f] m) (below : f.toNat < b.frames)
    (absent : b.pagePresent ((m.mm p).pteGetEntry pgn) = false)
    (inTable : b.outOfTable pgn = false) : RamKept n [] (m.mapPage p pgn f) := by
  refine kept.setMm ((kept.pages p).enlist absent inTable) (pgd_setEntryBy inTable) ?_
  intro f'
  rw [← pteGetEntry_eq inTable, frameOf_online (online_fpnEntry _ _), frameOf_absent absent,
    b.pagingFpn_fpnEntry _ below]
  exact Nat.add_comm _ _

/-- `DIRTY` changes neither the frame of a page nor whether it is listed. -/
theorem dirty (kept : RamKept n hand m) (inTable : b.outOfTable pgn = false) :
    RamKept n hand
      (m.setMm p ((m.mm p).pteSetEntry pgn (b.dirtyEntry ((m.mm p).pteGetEntry pgn)))) := by
  refine kept.setMm ((kept.pages p).dirty inTable) (pgd_setEntryBy inTable) ?_
  intro f
  rw [frameOf_dirtyEntry, pteGetEntry_eq inTable]

theorem swapOut (kept : RamKept n [] m) {result : Option b.Word}
    (done : m.swapOut p junk = some (m', result)) : RamKept n result.toList m' := by
  obtain ⟨-, rfl, rfl⟩ | ⟨vicpgn, fifo, found, action⟩ := swapOut_cases done
  · exact kept
  · obtain ⟨pages, online, unlisted⟩ := (kept.pages p).findVictimPage found
    have listed := kept.setFifo pages
    obtain ⟨-, rfl, rfl⟩ | ⟨swpfpn, mswp, -, rfl, rfl⟩ := action
    · exact listed
    · have other : RamKept n []
          { m.setMm p { m.mm p with fifoPgn := fifo } with activeMswp := mswp } :=
        listed.congr rfl (fun _ => rfl) fun _ => rfl
      exact other.evict (mm_setMm_self m p _) online unlisted swpfpn junk

theorem takeFrame (kept : RamKept n [] m) {result : Option b.Word}
    (done : m.takeFrame p junk = some (m', result)) : RamKept n result.toList m' := by
  obtain ⟨fpn, mram, popped, rfl, rfl⟩ | ⟨-, swapped⟩ := takeFrame_cases done
  · exact kept.getFreefp popped
  · exact kept.swapOut swapped

/-- A page fault leaves every frame in its place. -/
theorem pgGetpage (kept : RamKept n [] m)
    (fits : b.pagePresent ((m.mm p).pteGetEntry pgn) = false → m.FrameFits)
    (inTable : b.outOfTable pgn = false) {result : Option b.Word}
    (done : m.pgGetpage p pgn junk = some (m', result)) : RamKept n [] m' := by
  obtain ⟨-, rfl, -⟩ | ⟨absent, ⟨failed, -⟩ | ⟨taken, tgtfpn, took, rfl, -⟩⟩ := pgGetpage_cases done
  · exact kept
  · exact kept.takeFrame failed
  · have still := (takeFrame_evicts (kept.pages p) took).absent absent
    refine ((kept.takeFrame took).fillFrame _).mapPage ((fits absent).takeFrame took) ?_ inTable
    rw [mm_fillFrame, still]
    exact absent

end RamKept

theorem pagesKept_init (b : Build) : (Mm.init b).PagesKept := by
  refine ⟨?_, List.nodup_nil, ?_⟩
  · intro i swapped
    exact absurd swapped (by simp [Mm.init])
  · intro pgn member
    cases member

/-- Processes fresh from `init_mm` hold nothing. -/
theorem conserved_boot [Fintype P] {mram activeMswp : Memphy b} (empty : holds 0#b.width = [])
    (all : free = stock b n) :
    Conserved n holds free [] (boot mram activeMswp : Machine b P) := by
  intro f
  have none : occurrences ((boot mram activeMswp : Machine b P).held holds) f = 0 := by
    apply Custody.occurrences_eq_zero.mpr
    intro page
    show f ∉ holds 0#b.width
    simp [empty]
  rw [none, all]
  rfl

theorem ramKept_boot [Fintype P] {mram activeMswp : Memphy b}
    (all : mram.freeFpList = stock b n) :
    RamKept n [] (boot mram activeMswp : Machine b P) :=
  ⟨conserved_boot (frameOf_absent b.pagePresent_zero) all, fun _ => pagesKept_init b⟩

end Machine

end SimpleOs.Mem
