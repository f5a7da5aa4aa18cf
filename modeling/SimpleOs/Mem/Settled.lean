import SimpleOs.Mem.Carve
import SimpleOs.Mem.Syscall

/-!
# What every reachable state has

Whatever user programs do, and however many frames the devices have: the frames in RAM that
entries name are on the device, and the only area of a process stays empty. `__alloc` takes
regions out of a free list that grows only by what was freed, and gives the bytes from address
zero on to whoever does not fit there.
-/

namespace SimpleOs.Mem

variable {b : Build} {P : Type}

/-- The free list of an area that never grew: regions that were freed, and the empty one that
`init_mm` entered. -/
def BareList (regions : List (Region b)) : Prop :=
  ∃ freed, regions = freed ++ [⟨0, 0⟩] ∧ ∀ rg ∈ freed, rg.Nonempty

/-- The areas of a process that never grew. -/
def Bare (mmap : List (Vma b)) : Prop :=
  ∃ regions, mmap = [⟨0, 0, 0, 0, regions⟩] ∧ BareList regions

theorem bareList_init : BareList [(⟨0, 0⟩ : Region b)] :=
  ⟨[], rfl, fun _ member => absurd member List.not_mem_nil⟩

theorem BareList.cons {regions : List (Region b)} (bare : BareList regions) {rg : Region b}
    (nonempty : rg.Nonempty) : BareList (rg :: regions) := by
  obtain ⟨freed, rfl, proper⟩ := bare
  refine ⟨rg :: freed, rfl, ?_⟩
  rw [List.forall_mem_cons]
  exact ⟨nonempty, proper⟩

theorem Region.Nonempty.start_ne {rg : Region b} (nonempty : rg.Nonempty) :
    rg.rgStart ≠ BitVec.allOnes b.width := by
  intro last
  have above : (BitVec.allOnes b.width).toNat < rg.rgEnd.toNat := last ▸ nonempty
  have below := rg.rgEnd.isLt
  rw [BitVec.toNat_allOnes] at above
  omega

/-- First fit leaves a list of the same kind, and what it finds starts where a region of the
list did. -/
theorem BareList.fitRegion {regions rest : List (Region b)} {size : b.Word} {newrg : Region b}
    (bare : BareList regions) (found : fitRegion size regions = some (newrg, rest)) :
    BareList rest ∧ ∃ start, newrg = ⟨start, start + size⟩ ∧ start ≠ BitVec.allOnes b.width := by
  obtain ⟨freed, rfl, proper⟩ := bare
  induction freed generalizing rest with
  | nil =>
      rw [List.nil_append, fitRegion_empty] at found
      split at found
      next bytes =>
        obtain ⟨rfl, rfl⟩ := Prod.mk.inj (Option.some.inj found)
        exact ⟨bareList_init, 0, by rw [bytes, add_zero], zero_ne_allOnes b⟩
      next => cases found
  | cons rg freed ih =>
      obtain ⟨nonempty, proper⟩ := List.forall_mem_cons.mp proper
      have list : BareList (freed ++ [⟨0, 0⟩]) := ⟨freed, rfl, proper⟩
      rw [List.cons_append, Mem.fitRegion] at found
      split at found
      next =>
        refine (?_ : BareList rest ∧ newrg = _).imp_right fun same => ⟨_, same, nonempty.start_ne⟩
        dsimp only at found
        split at found
        next left =>
          obtain ⟨rfl, rfl⟩ := Prod.mk.inj (Option.some.inj found)
          exact ⟨list.cons left, rfl⟩
        next =>
          -- the successor takes the place of a region that fits exactly
          obtain ⟨next, tail, successor⟩ := List.exists_cons_of_ne_nil
            (List.append_ne_nil_of_right_ne_nil freed (List.cons_ne_nil (⟨0, 0⟩ : Region b) []))
          rw [successor] at found list
          obtain ⟨rfl, rfl⟩ := Prod.mk.inj (Option.some.inj found)
          exact ⟨list, rfl⟩
      next =>
        obtain ⟨⟨rg', rest'⟩, later, same⟩ := Option.map_eq_some_iff.mp found
        obtain ⟨rfl, rfl⟩ := Prod.mk.inj same
        obtain ⟨bare, start⟩ := ih proper later
        exact ⟨bare.cons nonempty, start⟩

/-- A request for no bytes always fits. -/
theorem BareList.fitRegion_zero {regions : List (Region b)} (bare : BareList regions) :
    (Mem.fitRegion 0 regions).isSome := by
  obtain ⟨freed, rfl, proper⟩ := bare
  cases freed with
  | nil => simp [Mem.fitRegion]
  | cons rg rest =>
      have ordered : rg.rgStart + 0 ≤ rg.rgEnd := by
        rw [add_zero]
        exact BitVec.le_of_lt (proper rg List.mem_cons_self)
      rw [List.cons_append, Mem.fitRegion, if_pos ordered]
      dsimp only
      split
      next => rfl
      next => split <;> rfl

/-- `__free` adds a region that is not empty. -/
theorem Bare.enlist {mm : Mm b} (bare : Bare mm.mmap) (rg : Region b) :
    Bare (enlistVmFreergList mm rg).mmap := by
  obtain ⟨regions, area, list⟩ := bare
  rw [enlistVmFreergList]
  split
  next => exact ⟨regions, area, list⟩
  next proper =>
    rw [area]
    exact ⟨_, rfl, list.cons (BitVec.not_le.mp proper)⟩

namespace Machine

variable [DecidableEq P]

/-- `__alloc` up to its store at `symrgtbl[rgid]`, with the region that it hands out. It does not
return where that store leaves the structure. -/
def allocRegion (m : Machine b P) (caller : P) (vmaid rgid : Int) (size : b.Word) :
    Option (Machine b P × Int × Option (Region b)) := do
  let (mmap, newrg) ← getFreeVmrgArea (m.mm caller).mmap vmaid size
  let m := m.setMm caller { m.mm caller with mmap := mmap }
  match newrg with
  | some newrg => if b.symslot rgid = .outside then none else some (m, 0, some newrg)
  | none =>
      match (← getVmaByNum (m.mm caller).mmap vmaid).bind fun i => (m.mm caller).mmap[i]? with
      | none => some (m, -1, none)
      | some curVma =>
          let oldSbrk := b.viaInt curVma.sbrk
          let incSz := if b.refuses then b.pageAlignsz size else size
          let (m, _) ← m.incVmaLimit vmaid incSz
          if b.symslot rgid = .outside then none
          else some (m, 0, some ⟨oldSbrk, oldSbrk + size⟩)

/-- The store that is left to do. -/
def enterRegion (caller : P) (rgid : Int) :
    Machine b P × Int × Option (Region b) → Option (Machine b P × Int)
  | (m, ret, none) => some (m, ret)
  | (m, ret, some rg) => (setSymrg (m.mm caller) rgid rg).map fun mm => (m.setMm caller mm, ret)

theorem enterRegion_inside (m : Machine b P) (caller : P) (rgid : Int) (rg : Region b) :
    ((if b.symslot rgid = .outside then none else some (m, 0, some rg)).bind
      (enterRegion caller rgid)) =
        (setSymrg (m.mm caller) rgid rg).bind fun mm => some (m.setMm caller mm, 0) := by
  split
  next outside =>
    rw [setSymrg, outside]
    rfl
  next => exact Option.map_eq_bind

/-- `__alloc` is this and the store. -/
theorem allocRegion_enter (m : Machine b P) (caller : P) (vmaid rgid : Int) (size : b.Word) :
    (m.allocRegion caller vmaid rgid size).bind (enterRegion caller rgid) =
      m.alloc caller vmaid rgid size := by
  rw [allocRegion, alloc]
  cases search : getFreeVmrgArea (m.mm caller).mmap vmaid size with
  | none => rfl
  | some result =>
      obtain ⟨mmap, newrg⟩ := result
      cases newrg with
      | some newrg => exact enterRegion_inside _ caller rgid newrg
      | none =>
          simp only [Option.bind_eq_bind, Option.bind_some, Option.bind_assoc]
          congr 1
          funext place
          cases place.bind fun i => ((m.setMm caller
              { m.mm caller with mmap := mmap }).mm caller).mmap[i]? with
          | none => rfl
          | some curVma =>
              simp only [Option.bind_assoc]
              congr 1
              funext raised
              exact enterRegion_inside raised.1 caller rgid _

variable {m m' : Machine b P} {p : P} {vmaid rgid : Int} {size : b.Word}

/-- `__alloc` on an area that never grew: the region is empty exactly where the size is zero
as an `int`. -/
theorem allocRegion_of_bare (bare : Bare (m.mm p).mmap) (unset : m.krnlMm = none)
    (low : vmaid ≤ 0) (rgid : Int) (size : b.Word) :
    ∃ mmap rg, Bare mmap ∧ (rg.rgStart = rg.rgEnd ↔ b.viaInt size = 0) ∧
      m.allocRegion p vmaid rgid size =
        if b.symslot rgid = .outside then none
        else some (m.setMm p { m.mm p with mmap := mmap }, 0, some rg) := by
  obtain ⟨regions, area, list⟩ := bare
  have found : getVmaByNum (m.mm p).mmap vmaid = some (some 0) := by
    rw [area]
    exact getVmaByNum_low low
  have place : (m.mm p).mmap[0]? = some ⟨0, 0, 0, 0, regions⟩ := by
    rw [area]
    rfl
  have same : m.setMm p { m.mm p with mmap := (m.mm p).mmap } = m := m.setMm_mm p
  cases search : fitRegion (b.viaInt size) regions with
  | none =>
      have bytes : b.viaInt size ≠ 0 := by
        intro zero
        have fits := list.fitRegion_zero
        rw [← zero, search] at fits
        cases fits
      refine ⟨(m.mm p).mmap, ⟨0, size⟩, ⟨regions, area, list⟩, ?_, ?_⟩
      · refine iff_of_false ?_ bytes
        intro empty
        change 0 = size at empty
        rw [← empty] at bytes
        exact bytes viaInt_zero
      · rw [allocRegion, getFreeVmrgArea_of_none found place search]
        simp only [Option.bind_eq_bind, Option.bind_some, same, found, place, viaInt_zero, zero_add,
          incVmaLimit_of_unset unset]
  | some result =>
      obtain ⟨newrg, rest⟩ := result
      obtain ⟨list', start, rfl, mark⟩ := list.fitRegion search
      refine ⟨[⟨0, 0, 0, 0, rest⟩], ⟨start, start + b.viaInt size⟩, ⟨rest, rfl, list'⟩,
        left_eq_add, ?_⟩
      have put : putFreergs (m.mm p).mmap 0 rest = [⟨0, 0, 0, 0, rest⟩] := by
        rw [area]
        rfl
      rw [allocRegion, getFreeVmrgArea_of_some found place search, put]
      simp only [Option.bind_eq_bind, Option.bind_some, if_neg mark]

end Machine

/-- What the `mm` of a process has in every reachable state, on `n` frames of RAM. -/
structure Mm.Settled (n : Nat) (mm : Mm b) : Prop where
  pages : mm.PagesKept
  fpn_lt : ∀ i, b.online (mm.pgd i) = true → (b.pagingFpn (mm.pgd i)).toNat < n
  bare : Bare mm.mmap

namespace Mm.Settled

variable {n : Nat} {mm : Mm b} {pgn f : b.Word}

theorem fpn_lt_of_online (settled : mm.Settled n) (online : b.online (mm.pteGetEntry pgn) = true) :
    (b.pagingFpn (mm.pteGetEntry pgn)).toNat < n := by
  have entry : mm.pteGetEntry pgn = mm.pgd (b.index pgn) :=
    pteGetEntry_eq (inTable_of_online online)
  rw [entry] at online ⊢
  exact settled.fpn_lt _ online

/-- The update of one entry. -/
theorem setEntryBy (settled : mm.Settled n) {update : b.Word → b.Word}
    (inTable : b.outOfTable pgn = false) (pages : (mm.setEntryBy pgn update).PagesKept)
    (below : b.online (update (mm.pteGetEntry pgn)) = true →
      (b.pagingFpn (update (mm.pteGetEntry pgn))).toNat < n) :
    (mm.setEntryBy pgn update).Settled n := by
  refine ⟨pages, ?_, ?_⟩
  · intro i
    rw [pgd_setEntryBy inTable]
    by_cases here : i = b.index pgn
    · rw [here, Function.update_self]
      exact below
    · rw [Function.update_of_ne here]
      exact settled.fpn_lt i
  · rw [mmap_setEntryBy]
    exact settled.bare

theorem enlist (settled : mm.Settled n) (absent : b.pagePresent (mm.pteGetEntry pgn) = false)
    (inTable : b.outOfTable pgn = false) (below : f.toNat < n) :
    ((mm.pteSetFpn pgn f).enlistPgnNode pgn).Settled n := by
  have pages := settled.pages.enlist absent inTable (f := f)
  have entered : ∀ i, b.online ((mm.pteSetFpn pgn f).pgd i) = true →
      (b.pagingFpn ((mm.pteSetFpn pgn f).pgd i)).toNat < n := by
    intro i
    rw [Mm.pteSetFpn, pgd_setEntryBy inTable]
    by_cases here : i = b.index pgn
    · rw [here, Function.update_self]
      exact fun _ => (b.pagingFpn_fpnEntry_le _ f).trans_lt below
    · rw [Function.update_of_ne here]
      exact settled.fpn_lt i
  refine ⟨pages, entered, ?_⟩
  show Bare (mm.setEntryBy pgn _).mmap
  rw [mmap_setEntryBy]
  exact settled.bare

theorem dirty (settled : mm.Settled n) (inTable : b.outOfTable pgn = false) :
    (mm.pteSetEntry pgn (b.dirtyEntry (mm.pteGetEntry pgn))).Settled n := by
  refine settled.setEntryBy inTable (settled.pages.dirty inTable) ?_
  rw [online_dirtyEntry, b.pagingFpn_dirtyEntry]
  exact settled.fpn_lt_of_online

theorem setSymrg (settled : mm.Settled n) {mm' : Mm b} {rgid : Int} {rg : Region b}
    (done : setSymrg mm rgid rg = some mm') : mm'.Settled n := by
  obtain ⟨symrgtbl, rfl⟩ | ⟨wild, rfl⟩ := setSymrg_cases done
  · exact ⟨settled.pages.congr rfl rfl, settled.fpn_lt, settled.bare⟩
  · refine ⟨⟨settled.pages.swapped, List.nodup_nil, ?_⟩, settled.fpn_lt, settled.bare⟩
    intro pgn member
    cases member

end Mm.Settled

namespace Machine

/-- What every reachable state has, on `n` frames of RAM. -/
structure Settled (n : Nat) (m : Machine b P) : Prop where
  ram : ∀ f ∈ m.mram.freeFpList, f.toNat < n
  mm : ∀ p, (m.mm p).Settled n
  krnlMm : m.krnlMm = none

namespace Settled

variable [DecidableEq P] {m m' : Machine b P} {n : Nat} {p : P} {pgn : b.Word} {junk : Nat → Byte}

omit [DecidableEq P] in
theorem congr (settled : Settled n m) (free : m'.mram.freeFpList = m.mram.freeFpList)
    (mm : m'.mm = m.mm) (krnlMm : m'.krnlMm = m.krnlMm) : Settled n m' := by
  refine ⟨?_, ?_, krnlMm.trans settled.krnlMm⟩
  · rw [free]
    exact settled.ram
  · rw [mm]
    exact settled.mm

theorem setMm (settled : Settled n m) {mm : Mm b} (here : mm.Settled n) :
    Settled n (m.setMm p mm) :=
  ⟨settled.ram, forall_setMm here settled.mm, settled.krnlMm⟩

theorem evict (settled : Settled n m) {mm : Mm b} (process : m.mm p = mm)
    (inTable : b.outOfTable pgn = false)
    (unlisted : ∀ q ∈ mm.fifoPgn.pgns, b.index q ≠ b.index pgn) (swpfpn : b.Word)
    (junk : Nat → Byte) : Settled n (m.evict p pgn swpfpn junk) := by
  subst process
  have copied : Settled n (m.mmSwapPage (b.pagingFpn ((m.mm p).pteGetEntry pgn)) swpfpn junk) :=
    settled.congr rfl rfl rfl
  have here := copied.mm p
  refine copied.setMm (here.setEntryBy inTable (here.pages.pteSetSwap inTable unlisted _ _) ?_)
  intro online
  simp [Build.online] at online

theorem takeFrame (settled : Settled n m) {result : Option b.Word}
    (done : m.takeFrame p junk = some (m', result)) :
    Settled n m' ∧ ∀ f ∈ result, f.toNat < n := by
  obtain ⟨fpn, mram, popped, rfl, rfl⟩ | ⟨-, swapped⟩ := takeFrame_cases done
  · have frames := settled.ram
    rw [(Memphy.getFreefp_cases popped).1, List.forall_mem_cons] at frames
    refine ⟨⟨frames.2, settled.mm, settled.krnlMm⟩, ?_⟩
    rintro f ⟨⟩
    exact frames.1
  · obtain ⟨-, rfl, rfl⟩ | ⟨vicpgn, fifo, found, action⟩ := swapOut_cases swapped
    · exact ⟨settled, fun _ none => nomatch none⟩
    · obtain ⟨pages, online, unlisted⟩ := (settled.mm p).pages.findVictimPage found
      have listed : { m.mm p with fifoPgn := fifo }.Settled n :=
        ⟨pages, (settled.mm p).fpn_lt, (settled.mm p).bare⟩
      obtain ⟨-, rfl, rfl⟩ | ⟨swpfpn, mswp, -, rfl, rfl⟩ := action
      · exact ⟨settled.setMm listed, fun _ none => nomatch none⟩
      · have other : Settled n
            { m.setMm p { m.mm p with fifoPgn := fifo } with activeMswp := mswp } :=
          (settled.setMm listed).congr rfl rfl rfl
        refine ⟨other.evict (mm_setMm_self m p _) (inTable_of_online online) unlisted _ _, ?_⟩
        rintro f ⟨⟩
        exact (settled.mm p).fpn_lt_of_online online

theorem pgGetpage (settled : Settled n m) (inTable : b.outOfTable pgn = false)
    {result : Option b.Word} (done : m.pgGetpage p pgn junk = some (m', result)) :
    Settled n m' := by
  obtain ⟨-, rfl, -⟩ | ⟨absent, ⟨failed, -⟩ | ⟨taken, tgtfpn, took, rfl, -⟩⟩ := pgGetpage_cases done
  · exact settled
  · exact (settled.takeFrame failed).1
  · obtain ⟨after, below⟩ := settled.takeFrame took
    have still := (takeFrame_evicts (settled.mm p).pages took).absent absent
    have filled := after.congr (taken.freeFpList_fillFrame ((m.mm p).pteGetEntry pgn) tgtfpn junk)
      (mm_fillFrame _ _ _ _) (Beside.fillFrame taken p _ _ _).krnlMm
    refine filled.setMm ((filled.mm p).enlist ?_ inTable (below tgtfpn rfl))
    rw [mm_fillFrame, still]
    exact absent

theorem pgSetval (settled : Settled n m) {addr : b.Word} {value : Byte} {ret : Int}
    (done : m.pgSetval p addr value junk = some (m', ret)) : Settled n m' := by
  have inTable := inTable_pagingPgn addr
  obtain ⟨failed, -⟩ | ⟨paged, fpn, got, -, rfl⟩ := pgSetval_cases done
  · exact settled.pgGetpage inTable failed
  · have after := settled.pgGetpage inTable got
    have written : Settled n (paged.ioWrite (phyaddr fpn (b.pagingOffst addr)) value) :=
      after.congr (Memphy.freeFpList_store _ _ _) rfl rfl
    exact written.setMm ((written.mm p).dirty inTable)

theorem liballoc (settled : Settled n m) {size : b.Word} {rgid ret : Int}
    (done : m.liballoc p size rgid = some (m', ret)) : Settled n m' := by
  obtain ⟨mmap, rg, bare, -, alloc⟩ :=
    allocRegion_of_bare (settled.mm p).bare settled.krnlMm (le_refl 0) rgid size
  have searched : Settled n (m.setMm p { m.mm p with mmap := mmap }) :=
    settled.setMm ⟨(settled.mm p).pages.congr rfl rfl, (settled.mm p).fpn_lt, bare⟩
  rw [Machine.liballoc, ← allocRegion_enter, alloc, enterRegion_inside] at done
  obtain ⟨mm, entered, same⟩ := Option.bind_eq_some_iff.mp done
  obtain ⟨rfl, -⟩ := Prod.mk.inj (Option.some.inj same)
  exact searched.setMm ((searched.mm p).setSymrg entered)

theorem libfree (settled : Settled n m) {rgid ret : Int}
    (done : m.libfree p rgid = some (m', ret)) : Settled n m' := by
  obtain rfl | ⟨symrgtbl, rg, rfl⟩ := free_enlists done
  · exact settled
  · have cleared : { m.mm p with symrgtbl := symrgtbl }.Settled n :=
      ⟨(settled.mm p).pages.congr rfl rfl, (settled.mm p).fpn_lt, (settled.mm p).bare⟩
    refine settled.setMm ⟨cleared.pages.congr ?_ ?_, ?_, cleared.bare.enlist rg⟩
    · exact pgd_enlistVmFreergList _ _
    · exact fifoPgn_enlistVmFreergList _ _
    · rw [pgd_enlistVmFreergList]
      exact cleared.fpn_lt

/-- No step of a user program leaves the settled states. -/
theorem step (settled : Settled n m) {call : UserCall b P}
    (step : (userSystem b P).step m call = some m') : Settled n m' := by
  cases call with
  | libsyscall proc syscallIdx a1 a2 a3 junk =>
      obtain ⟨⟨_, ret⟩, done, rfl⟩ := Option.map_eq_some_iff.mp step
      have shape := (libsyscall_effect settled.krnlMm done).sameShape
      exact settled.congr shape.ramFree shape.mm shape.krnlMm
  | mem call =>
      cases call with
      | liballoc proc size regIndex =>
          obtain ⟨⟨_, ret⟩, done, rfl⟩ := Option.map_eq_some_iff.mp step
          exact settled.liballoc done
      | libfree proc regIndex =>
          obtain ⟨⟨_, ret⟩, done, rfl⟩ := Option.map_eq_some_iff.mp step
          exact settled.libfree done
      | libread proc source offset overlay junk =>
          obtain ⟨⟨_, ret⟩, done, rfl⟩ := Option.map_eq_some_iff.mp step
          obtain ⟨start, data, -, got⟩ := read_cases done
          obtain ⟨result, paged, -⟩ := pgGetval_cases got
          exact settled.pgGetpage (inTable_pagingPgn _) paged
      | libwrite proc data destination offset overlay junk =>
          obtain ⟨⟨_, ret⟩, done, rfl⟩ := Option.map_eq_some_iff.mp step
          obtain rfl | ⟨start, code, -, set⟩ := write_cases done
          · exact settled
          · exact settled.pgSetval set

end Settled

theorem settled_boot {mram activeMswp : Memphy b} {n : Nat} (ramFree : mram.freeFpList = stock b n) :
    Settled n (boot mram activeMswp : Machine b P) := by
  refine ⟨?_, fun _ => ⟨pagesKept_init b, ?_, ⟨_, rfl, bareList_init⟩⟩, rfl⟩
  · intro f member
    apply lt_of_mem_stock
    rw [← ramFree]
    exact member
  · intro i online
    exact absurd online (by simp [boot, Mm.init, Build.online])

theorem settled_of_run [DecidableEq P] {mram activeMswp : Memphy b}
    (ramFree : mram.freeFpList = stock b (mram.maxsz / b.pageSz)) {calls : List (UserCall b P)}
    {m : Machine b P} (run : (userSystem b P).run (boot mram activeMswp) calls = some m) :
    Settled (mram.maxsz / b.pageSz) m ∧ m.kinds = (mram.kind, activeMswp.kind) := by
  refine TransitionSystem.run_preserves (P := fun m => Settled (mram.maxsz / b.pageSz) m ∧
    m.kinds = (mram.kind, activeMswp.kind)) ?_ run ⟨settled_boot ramFree, rfl⟩
  rintro m call next ⟨settled, kinds⟩ step
  exact ⟨settled.step step, (kinds_userSystem settled.krnlMm step).trans kinds⟩

end Machine

end SimpleOs.Mem
