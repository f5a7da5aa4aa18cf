import SimpleOs.Lib.Release
import SimpleOs.Mem.FlatMap
import SimpleOs.Mem.Initial

/-!
# Freeing a memory map

`free_mm` goes through all that hangs from an `mm_struct`: the page tables, the areas
with their free regions, and the FIFO list of pages. It is safe if each block it comes to
is still allocated. For the lists that is the case exactly if they end, consist of
allocated nodes and share none; for the tables it follows from the tree that the setters
build, which has no table twice and leaves none out.

The region list of the first area goes on with what `malloc` left in the node of the area,
so just after `init_mm` it depends on that memory what `free_mm` does.
-/

namespace SimpleOs.Mem

open LinkedList (Path)
open RadixTree (Heap Tree Tight)

/-! ## The areas -/

/-- The loop of `free_mm` over the areas: the areas and the regions that are left. -/
def freeVmas (vmNext vmFreergList rgNext : Nat → Option Nat) (areas rgs : Finset Nat) :
    Option Nat → Option (Finset Nat × Finset Nat)
  | none => some (areas, rgs)
  | some vma =>
      if vma ∈ areas then
        match LinkedList.release rgNext rgs (vmFreergList vma) with
        | none => none
        | some rgs => freeVmas vmNext vmFreergList rgNext (areas.erase vma) rgs (vmNext vma)
      else none
termination_by areas.card
decreasing_by exact Finset.card_erase_lt_of_mem ‹_›

/-- The areas and the regions of each are lists that end, of allocated nodes, and no region
belongs to two areas. -/
structure VmasEnd (vmNext vmFreergList rgNext : Nat → Option Nat) (areas rgs : Finset Nat)
    (head : Option Nat) (vmas : List Nat) (regions : Nat → List Nat) : Prop where
  path : Path vmNext head vmas none
  live : ∀ p ∈ vmas, p ∈ areas
  rgPath : ∀ p ∈ vmas, Path rgNext (vmFreergList p) (regions p) none
  rgLive : ∀ p ∈ vmas, ∀ q ∈ regions p, q ∈ rgs
  apart : vmas.Pairwise fun p q => (regions p).Disjoint (regions q)

section Areas

variable {vmNext vmFreergList rgNext : Nat → Option Nat} {areas areas' rgs rgs' : Finset Nat}
  {head : Option Nat} {vma : Nat} {vmas ps : List Nat} {regions : Nat → List Nat}

@[simp] theorem freeVmas_none :
    freeVmas vmNext vmFreergList rgNext areas rgs none = some (areas, rgs) := by
  simp [freeVmas]

theorem freeVmas_some (alive : vma ∈ areas) :
    freeVmas vmNext vmFreergList rgNext areas rgs (some vma) =
      (LinkedList.release rgNext rgs (vmFreergList vma)).bind fun rgs =>
        freeVmas vmNext vmFreergList rgNext (areas.erase vma) rgs (vmNext vma) := by
  rw [freeVmas, if_pos alive]
  cases LinkedList.release rgNext rgs (vmFreergList vma) <;> rfl

theorem freeVmas_dead (dead : vma ∉ areas) :
    freeVmas vmNext vmFreergList rgNext areas rgs (some vma) = none := by
  rw [freeVmas, if_neg dead]

/-- An area in front, with the regions `ps` of its own. -/
theorem VmasEnd.cons (alive : vma ∈ areas) (path : Path rgNext (vmFreergList vma) ps none)
    (allocated : ∀ p ∈ ps, p ∈ rgs)
    (tail : VmasEnd vmNext vmFreergList rgNext (areas.erase vma) (rgs \ ps.toFinset) (vmNext vma)
      vmas regions) :
    VmasEnd vmNext vmFreergList rgNext areas rgs (some vma) (vma :: vmas)
      (Function.update regions vma ps) := by
  have other : ∀ p ∈ vmas, Function.update regions vma ps p = regions p := by
    intro p member
    refine Function.update_of_ne ?_ _ _
    exact Finset.ne_of_mem_erase (tail.live p member)
  have outside : ∀ p ∈ vmas, ∀ q ∈ regions p, q ∈ rgs ∧ q ∉ ps := by
    intro p member q inside
    simpa using tail.rgLive p member q inside
  constructor
  · exact ⟨rfl, tail.path⟩
  · exact List.forall_mem_cons.mpr ⟨alive, fun p member =>
      Finset.mem_of_mem_erase (tail.live p member)⟩
  · refine List.forall_mem_cons.mpr ⟨by simpa using path, fun p member => ?_⟩
    simpa only [other p member] using tail.rgPath p member
  · refine List.forall_mem_cons.mpr ⟨by simpa using allocated, fun p member => ?_⟩
    simpa only [other p member] using fun q inside => (outside p member q inside).1
  · refine List.pairwise_cons.mpr ⟨fun p member q here there => ?_, ?_⟩
    · rw [Function.update_self] at here
      rw [other p member] at there
      exact (outside p member q there).2 here
    · refine tail.apart.imp_of_mem fun {p q} member member' apart => ?_
      rwa [other p member, other q member']

theorem VmasEnd.tail (ends : VmasEnd vmNext vmFreergList rgNext areas rgs (some vma)
    (vma :: vmas) regions) :
    VmasEnd vmNext vmFreergList rgNext (areas.erase vma) (rgs \ (regions vma).toFinset) (vmNext vma)
      vmas regions := by
  obtain ⟨absent, -⟩ := List.nodup_cons.mp ends.path.nodup
  obtain ⟨first, apart⟩ := List.pairwise_cons.mp ends.apart
  constructor
  · exact ends.path.2
  · intro p member
    refine Finset.mem_erase.mpr ⟨?_, ends.live p (List.mem_cons_of_mem _ member)⟩
    rintro rfl
    exact absent member
  · exact fun p member => ends.rgPath p (List.mem_cons_of_mem _ member)
  · intro p member q inside
    refine Finset.mem_sdiff.mpr ⟨ends.rgLive p (List.mem_cons_of_mem _ member) q inside, ?_⟩
    intro here
    exact first p member (List.mem_toFinset.mp here) inside
  · exact apart

/-- The loop comes to its end only over lists that end. -/
theorem vmasEnd_of_freeVmas
    (freed : freeVmas vmNext vmFreergList rgNext areas rgs head = some (areas', rgs')) :
    ∃ vmas regions, VmasEnd vmNext vmFreergList rgNext areas rgs head vmas regions := by
  induction areas, rgs, head using freeVmas.induct vmNext vmFreergList rgNext with
  | case1 areas rgs =>
      exact ⟨[], fun _ => [], rfl, by simp, by simp, by simp, .nil⟩
  | case2 areas rgs vma alive fails =>
      rw [freeVmas_some alive, fails] at freed
      cases freed
  | case3 areas rgs vma alive left released ih =>
      rw [freeVmas_some alive, released] at freed
      obtain ⟨vmas, regions, ends⟩ := ih freed
      obtain ⟨ps, path, allocated, rfl⟩ := LinkedList.path_of_release released
      exact ⟨vma :: vmas, _, ends.cons alive path allocated⟩
  | case4 areas rgs vma dead =>
      rw [freeVmas_dead dead] at freed
      cases freed

/-- What is on the lists is freed, and nothing else. -/
theorem VmasEnd.freeVmas (ends : VmasEnd vmNext vmFreergList rgNext areas rgs head vmas regions) :
    freeVmas vmNext vmFreergList rgNext areas rgs head =
      some (areas \ vmas.toFinset, rgs \ (vmas.flatMap regions).toFinset) := by
  induction vmas generalizing areas rgs head with
  | nil =>
      obtain rfl : head = none := ends.path
      simp
  | cons vma vmas ih =>
      obtain rfl : head = some vma := ends.path.1
      obtain ⟨alive, -⟩ := List.forall_mem_cons.mp ends.live
      have released := LinkedList.release_of_path (ends.rgPath vma (by simp)) (ends.rgLive vma (by simp))
      rw [freeVmas_some alive, released, Option.bind_some, ih ends.tail]
      simp only [List.toFinset_cons, List.flatMap_cons, List.toFinset_append, Finset.sdiff_insert,
        Finset.erase_sdiff_comm, sdiff_sdiff_left, Finset.sup_eq_union]

end Areas

/-! ## The whole map -/

/-- What `free_mm` goes through, with the links as they are in memory and the nodes that are
allocated. A page table has slots in `ι`, with words in `W`. -/
structure MmBlocks (W ι : Type) where
  pgd : W
  tables : Heap W ι
  mmap : Option Nat
  vmNext : Nat → Option Nat
  vmFreergList : Nat → Option Nat
  areas : Finset Nat
  rgNext : Nat → Option Nat
  rgs : Finset Nat
  fifoPgn : Option Nat
  pgNext : Nat → Option Nat
  pgns : Finset Nat

namespace MmBlocks

variable {W ι : Type} [Zero W] [DecidableEq W] [DecidableEq ι]

/-- The page tables after `free_mm`. The nested loops over them are one recursion: four levels deep
with `MM64`, while the other build has the root alone. -/
def freeTables (slots : List ι) (depth : Nat) (mm : MmBlocks W ι) : Option (Heap W ι) :=
  if mm.pgd = 0 then some mm.tables else Heap.release slots depth mm.pgd mm.tables

/-- `free_mm`, with `none` for `NULL`. -/
def freeMm (slots : List ι) (depth : Nat) :
    Option (MmBlocks W ι) → Option (Option (MmBlocks W ι) × Int)
  | none => some (none, -1)
  | some mm => do
      let tables ← mm.freeTables slots depth
      let (areas, rgs) ← freeVmas mm.vmNext mm.vmFreergList mm.rgNext mm.areas mm.rgs mm.mmap
      let pgns ← LinkedList.release mm.pgNext mm.pgns mm.fifoPgn
      some (some { mm with
        pgd := 0
        tables := tables
        mmap := none
        areas := areas
        rgs := rgs
        fifoPgn := none
        pgns := pgns }, 0)

/-- All lists of the map end, in allocated nodes. -/
structure Sound (mm : MmBlocks W ι) (vmas : List Nat) (regions : Nat → List Nat)
    (pages : List Nat) : Prop where
  vmasEnd : VmasEnd mm.vmNext mm.vmFreergList mm.rgNext mm.areas mm.rgs mm.mmap vmas regions
  path : Path mm.pgNext mm.fifoPgn pages none
  live : ∀ p ∈ pages, p ∈ mm.pgns

/-- The map with its lists freed. -/
def emptied (mm : MmBlocks W ι) (tables : Heap W ι) (vmas : List Nat) (regions : Nat → List Nat)
    (pages : List Nat) : MmBlocks W ι :=
  { mm with
    pgd := 0
    tables := tables
    mmap := none
    areas := mm.areas \ vmas.toFinset
    rgs := mm.rgs \ (vmas.flatMap regions).toFinset
    fifoPgn := none
    pgns := mm.pgns \ pages.toFinset }

variable {slots : List ι} {depth : Nat} {mm : MmBlocks W ι} {tables : Heap W ι}
  {result : Option (MmBlocks W ι) × Int}

/-- Where the tables can be freed, `free_mm` is safe exactly if the lists of the map are sound. -/
theorem freeMm_eq_some_iff (freed : mm.freeTables slots depth = some tables) :
    freeMm slots depth (some mm) = some result ↔ ∃ vmas regions pages,
      mm.Sound vmas regions pages ∧ result = (some (mm.emptied tables vmas regions pages), 0) := by
  constructor
  · intro done
    simp only [freeMm, freed, Option.bind_eq_bind, Option.bind_some, Option.bind_eq_some_iff] at done
    obtain ⟨⟨areas, rgs⟩, areasFreed, pgns, pagesFreed, same⟩ := done
    obtain rfl := Option.some.inj same
    obtain ⟨vmas, regions, ends⟩ := vmasEnd_of_freeVmas areasFreed
    obtain ⟨pages, path, live, rfl⟩ := LinkedList.path_of_release pagesFreed
    obtain ⟨rfl, rfl⟩ := Prod.mk.inj (Option.some.inj (areasFreed.symm.trans ends.freeVmas))
    exact ⟨vmas, regions, pages, ⟨ends, path, live⟩, rfl⟩
  · rintro ⟨vmas, regions, pages, sound, rfl⟩
    have areasFreed := sound.vmasEnd.freeVmas
    have pagesFreed := LinkedList.release_of_path sound.path sound.live
    simp only [freeMm, freed, areasFreed, pagesFreed, Option.bind_eq_bind, Option.bind_some]
    rfl

end MmBlocks

/-! ## The tables of a run -/

namespace Mm64

variable {reply : Nat → Reply} {mm mm' : Mm} {front path : List Slot} {table : Word}

/-- The tables are a tree and there are no others. -/
structure Whole (mm : Mm) : Prop extends WellFormed mm where
  tight : Tight mm.tables mm.pgd 4

/-- A table that is allocated on the way down hangs in the tree. -/
theorem accessOrAllocate_tight (reply : Nat → Reply) (tree : Tree mm.tables mm.pgd 4)
    (tight : Tight mm.tables mm.pgd 4) (here : mm.tables.descend mm.pgd front = some table)
    (inner : front.length < 4) (idx : Slot) :
    Tight (accessOrAllocate reply mm table idx).1.tables mm.pgd 4 := by
  have live := tree.live front table inner.le here
  by_cases empty : mm.tables.read table idx = 0
  · obtain ⟨-, ⟨refused, tables⟩ | ⟨nonzero, dead, garbage, tables⟩⟩ := malloc_spec reply mm
    · have same : mm.tables.write table idx 0 = mm.tables := by
        rw [← empty]
        exact Heap.write_read live
      simpa only [accessOrAllocate, empty, if_true, refused, tables, same] using tight
    · have apart : table ≠ (malloc reply mm).2 := by
        intro same
        rw [same, dead] at live
        cases live
      have cleared : ((mm.tables.alloc _ garbage).write table idx _).clear _ (List.finRange 512) =
          mm.tables.grow table idx (malloc reply mm).2 :=
        Heap.clear_write_alloc apart garbage List.mem_finRange
      simp only [accessOrAllocate, empty, if_true, if_neg nonzero, tables, cleared]
      exact tight.grow tree here inner empty dead nonzero
  · simpa only [accessOrAllocate, if_neg empty] using tight

theorem walk_tight (reply : Nat → Reply) (path : List Slot) (tree : Tree mm.tables mm.pgd 4)
    (tight : Tight mm.tables mm.pgd 4) (here : mm.tables.descend mm.pgd front = some table)
    (within : front.length + path.length ≤ 4) :
    Tight (walk reply mm table path).1.tables mm.pgd 4 := by
  induction path generalizing mm front table with
  | nil => exact tight
  | cons idx path ih =>
      rw [List.length_cons] at within
      have inner : front.length < 4 := by omega
      obtain ⟨same, found⟩ := accessOrAllocate_spec reply tree here inner idx
      have kept := accessOrAllocate_tight reply tree tight here inner idx
      rw [walk]
      cases taken : accessOrAllocate reply mm table idx with
      | mk down next =>
          rw [taken] at same found kept
          cases next with
          | none => exact kept
          | some next =>
              have below : down.tables.descend down.pgd (front ++ [idx]) = some next := by
                rw [same.pgd]
                exact found next rfl
              have rest := ih same.tree (same.pgd.symm ▸ kept) below (by simp; omega)
              rwa [same.pgd] at rest

namespace Whole

/-- A setter keeps the tables a tree without others, for any page number. -/
theorem setEntryBy (whole : Whole mm) (pgn : Word) (update : Word → Word) :
    Whole (setEntryBy reply mm pgn update).1 := by
  have root : mm.tables.descend mm.pgd [] = some mm.pgd := rfl
  obtain ⟨same, ends⟩ :=
    walk_spec reply (getPdFromPagenum pgn).path whole.tree root (Nat.le_refl 4)
  have kept := walk_tight reply (getPdFromPagenum pgn).path whole.tree whole.tight root (Nat.le_refl 4)
  rw [Mm64.setEntryBy, if_neg whole.root]
  cases walked : walk reply mm mm.pgd (getPdFromPagenum pgn).path with
  | mk down pt =>
      rw [walked] at same ends kept
      have wf := same.wellFormed whole.toWellFormed
      have tight : Tight down.tables down.pgd 4 := same.pgd.symm ▸ kept
      cases pt with
      | none => exact ⟨wf, tight⟩
      | some pt =>
          have here : down.tables.descend down.pgd (getPdFromPagenum pgn).path = some pt := by
            rw [same.pgd]
            exact ends pt rfl
          exact ⟨⟨wf.root, wf.tree.write here rfl _⟩, tight.write wf.tree here rfl _⟩

theorem memsetFrom {addr : Word} {pgit left : Nat} (whole : Whole mm) :
    Whole (memsetFrom reply addr mm pgit left).1 := by
  induction left generalizing mm pgit with
  | zero => exact whole
  | succ left ih =>
      have next : Whole (pteSetEntry reply mm (pageAt addr pgit) 0).1 := whole.setEntryBy _ _
      simp only [Mm64.memsetFrom]
      split
      · exact next
      · exact ih next

theorem exec (whole : Whole mm) (c : Call) : Whole (exec reply mm c).1 := by
  cases c with
  | setEntry pgn pteVal => exact whole.setEntryBy _ _
  | setFpn pgn fpn => exact whole.setEntryBy _ _
  | setSwap pgn swptyp swpoff => exact whole.setEntryBy _ _
  | memset addr pgnum => exact whole.memsetFrom

theorem initMm (init : initMm reply = some mm) : Whole mm := by
  refine ⟨(initMm_spec init).1, fun a live => ?_⟩
  obtain ⟨-, ⟨refused, -⟩ | ⟨nonzero, -, garbage, tables⟩⟩ :=
    malloc_spec reply ⟨0, fun _ => none, 0⟩
  · simp only [Mm64.initMm, if_pos refused] at init
    cases init
  · simp only [Mm64.initMm, if_neg nonzero, tables] at init
    obtain rfl := Option.some.inj init
    refine ⟨[], Nat.zero_le _, ?_⟩
    by_contra other
    have apart : a ≠ (malloc reply ⟨0, fun _ => none, 0⟩).2 := fun same => other (by rw [same]; rfl)
    simp only [Heap.clear_apply, Heap.alloc, if_neg apart] at live
    cases live

end Whole

/-- The tables after a run of calls. -/
def run (reply : Nat → Reply) (mm : Mm) (calls : List Call) : Mm :=
  calls.foldl (fun mm c => (exec reply mm c).1) mm

theorem Whole.run (whole : Whole mm) (calls : List Call) : Whole (run reply mm calls) := by
  induction calls generalizing mm with
  | nil => exact whole
  | cons c calls ih => exact ih (whole.exec c)

end Mm64

/-- Whatever calls have built the tables of a process, `free_mm` is safe exactly if the lists of
the map are sound. It then leaves no table allocated and frees of the lists what is on them. -/
theorem freeMm_after_run {reply : Nat → Mm64.Reply} {start : Mm64.Mm}
    (init : Mm64.initMm reply = some start) (calls : List Mm64.Call)
    (mm : MmBlocks Mm64.Word Mm64.Slot) (pgd : mm.pgd = (Mm64.run reply start calls).pgd)
    (tables : mm.tables = (Mm64.run reply start calls).tables)
    (result : Option (MmBlocks Mm64.Word Mm64.Slot) × Int) :
    MmBlocks.freeMm (List.finRange 512) 4 (some mm) = some result ↔ ∃ vmas regions pages,
      mm.Sound vmas regions pages ∧
        result = (some (mm.emptied (fun _ => none) vmas regions pages), 0) := by
  have whole : Mm64.Whole (Mm64.run reply start calls) := (Mm64.Whole.initMm init).run calls
  obtain ⟨left, released, nothing⟩ :=
    whole.tight.release whole.tree List.mem_finRange (List.nodup_finRange 512)
  obtain rfl : left = fun _ => none := funext nothing
  refine MmBlocks.freeMm_eq_some_iff ?_
  rw [MmBlocks.freeTables, pgd, tables, if_neg whole.root]
  exact released

/-- An area with one free region, over the tables that a run has left. -/
def oneArea (mm : Mm64.Mm) : MmBlocks Mm64.Word Mm64.Slot where
  pgd := mm.pgd
  tables := mm.tables
  mmap := some 3
  vmNext := fun _ => none
  vmFreergList := fun _ => some 5
  areas := {3}
  rgNext := fun _ => none
  rgs := {5, 6}
  fifoPgn := none
  pgNext := fun _ => none
  pgns := ∅

theorem freeMm_after_run_oneArea : ∃ start, Mm64.initMm Mm64.threeTables = some start ∧
    MmBlocks.freeMm (List.finRange 512) 4
        (some (oneArea (Mm64.run Mm64.threeTables start [.setFpn 5 7, .memset 0x5000 2]))) =
      some (some ((oneArea (Mm64.run Mm64.threeTables start [.setFpn 5 7, .memset 0x5000 2])).emptied
        (fun _ => none) [3] (fun _ => [5]) []), 0) := by
  refine ⟨_, rfl, (freeMm_after_run rfl _ (oneArea _) rfl rfl _).mpr ⟨[3], fun _ => [5], [], ?_, rfl⟩⟩
  exact ⟨⟨⟨rfl, rfl⟩, by simp [oneArea], by simp [oneArea], by simp [oneArea], by simp⟩, rfl, by simp⟩

/-! ## A fresh map -/

section Fresh

variable {b : Build} {M : Type} {h h' : MmHeap b M} {mm mm' : MmStruct b} {self : M}

/-- What `free_mm` finds in the map at `mm`, with its root at some address. -/
structure MmBlocks.Holds (blocks : MmBlocks b.Word (Fin b.rootSz)) (h : MmHeap b M)
    (mm : MmStruct b) : Prop where
  pgd : blocks.pgd ≠ 0
  root : blocks.tables blocks.pgd = mm.pgd.map fun root (i : Fin b.rootSz) => root i
  mmap : blocks.mmap = mm.mmap
  vmNext : blocks.vmNext = fun p => (h.area p).vmNext
  vmFreergList : blocks.vmFreergList = fun p => (h.area p).vmFreergList
  areas : blocks.areas = Finset.range h.freshArea
  rgNext : blocks.rgNext = fun p => (h.rg p).rgNext
  rgs : blocks.rgs = Finset.range h.freshRg
  fifoPgn : blocks.fifoPgn = mm.fifoPgn

/-- `init_mm` takes one node of each kind, with the region in front of what the area held, and
leaves the other regions as they are. -/
structure Enlisted (h h' : MmHeap b M) (mm' : MmStruct b) : Prop where
  mmap : mm'.mmap = some h.freshArea
  vmNext : (h'.area h.freshArea).vmNext = none
  vmFreergList : (h'.area h.freshArea).vmFreergList = some h.freshRg
  rgNext : (h'.rg h.freshRg).rgNext = (h.area h.freshArea).vmFreergList
  others : ∀ p, p ≠ h.freshRg → h'.rg p = h.rg p
  freshArea : h'.freshArea = h.freshArea + 1
  freshRg : h'.freshRg = h.freshRg + 1

theorem enlisted_initMm (init : h.initMm ⟨true, true, true⟩ self mm = some (h', mm', 0)) :
    Enlisted h h' mm' := by
  obtain ⟨_, _, made, mmap, area, rg, -⟩ := h.initMm_granted self mm
  obtain ⟨rfl, same⟩ := Prod.mk.inj (Option.some.inj (made.symm.trans init))
  obtain rfl : _ = mm' := congrArg Prod.fst same
  obtain ⟨rfl, -⟩ := Prod.mk.inj (Option.some.inj init)
  refine ⟨mmap, ?_, ?_, congrArg VmRg.rgNext rg, fun p other => ?_, rfl, rfl⟩
  · exact congrArg VmAreaStruct.vmNext area
  · exact congrArg VmAreaStruct.vmFreergList area
  · simp [Function.update_of_ne other]

/-- Of a cleared root only the root itself is freed. -/
theorem release_cleared {W ι : Type} [Zero W] [DecidableEq W] [DecidableEq ι] {slots : List ι}
    {tables : Heap W ι} {root : W} (all : ∀ i, i ∈ slots) (distinct : slots.Nodup)
    (cleared : tables root = some fun _ => 0) (depth : Nat) :
    Heap.release slots depth root tables = some (Function.update tables root none) := by
  have tree : Tree tables root depth := Tree.root_cleared cleared
  obtain ⟨left, released, freed, kept⟩ := tree.release all distinct
  rw [released]
  congr 1
  funext a
  by_cases same : a = root
  · subst same
    rw [Function.update_self]
    exact freed [] a (Nat.zero_le _) rfl
  · rw [Function.update_of_ne same]
    refine kept a fun path _ reached => ?_
    cases path with
    | nil => exact same (Option.some.inj reached).symm
    | cons i path => simp [Heap.descend, Heap.read, cleared] at reached

/-- The one area of a fresh map has its own region, and then what its node held. -/
theorem Enlisted.vmasEnd_iff (enlisted : Enlisted h h' mm') {vmas : List Nat}
    {regions : Nat → List Nat} :
    VmasEnd (fun p => (h'.area p).vmNext) (fun p => (h'.area p).vmFreergList)
        (fun p => (h'.rg p).rgNext) (Finset.range h'.freshArea) (Finset.range h'.freshRg) mm'.mmap
        vmas regions ↔
      vmas = [h.freshArea] ∧ ∃ ps, regions h.freshArea = h.freshRg :: ps ∧
        Path (fun p => (h.rg p).rgNext) (h.area h.freshArea).vmFreergList ps none ∧
        ∀ p ∈ ps, p < h.freshRg := by
  have only : Path (fun p => (h'.area p).vmNext) mm'.mmap [h.freshArea] none :=
    ⟨enlisted.mmap, enlisted.vmNext⟩
  constructor
  · intro ends
    obtain rfl := ends.path.unique only
    have path := ends.rgPath h.freshArea (by simp)
    have live := ends.rgLive h.freshArea (by simp)
    simp only [enlisted.vmFreergList, enlisted.freshRg, Finset.mem_range] at path live
    refine ⟨rfl, ?_⟩
    cases listed : regions h.freshArea with
    | nil =>
        rw [listed] at path
        cases path
    | cons q ps =>
        rw [listed] at path live
        obtain ⟨absent, -⟩ := List.nodup_cons.mp path.nodup
        obtain ⟨first, rest⟩ := path
        obtain rfl : h.freshRg = q := Option.some.inj first
        have other : ∀ p ∈ ps, p ≠ h.freshRg := by
          rintro p member rfl
          exact absent member
        refine ⟨ps, rfl, ?_, fun p member => ?_⟩
        · simp only [enlisted.rgNext] at rest
          exact rest.congr fun p member => by rw [enlisted.others p (other p member)]
        · exact lt_of_le_of_ne (Nat.lt_succ_iff.mp (live p (List.mem_cons_of_mem _ member)))
            (other p member)
  · rintro ⟨rfl, ps, own, path, old⟩
    have rest : Path (fun p => (h'.rg p).rgNext) (h.area h.freshArea).vmFreergList ps none :=
      path.congr fun p member => by rw [enlisted.others p (old p member).ne]
    refine ⟨only, ?_, ?_, ?_, by simp⟩
    · simp [enlisted.freshArea]
    · simpa [enlisted.vmFreergList, own, enlisted.rgNext] using rest
    · simpa [own, enlisted.freshRg] using fun p member => (old p member).trans (Nat.lt_succ_self _)

/-- On a map fresh from `init_mm`, `free_mm` is safe exactly if the memory of the area happened to
hold a list of regions that ends. Then it frees these regions too, whosever they are. -/
theorem freeMm_fresh_iff (init : h.initMm ⟨true, true, true⟩ self mm = some (h', mm', 0))
    (blocks : MmBlocks b.Word (Fin b.rootSz)) (holds : blocks.Holds h' mm') (depth : Nat)
    (result : Option (MmBlocks b.Word (Fin b.rootSz)) × Int) :
    MmBlocks.freeMm (List.finRange b.rootSz) depth (some blocks) = some result ↔ ∃ ps,
      Path (fun p => (h.rg p).rgNext) (h.area h.freshArea).vmFreergList ps none ∧
      (∀ p ∈ ps, p < h.freshRg) ∧
      result = (some (blocks.emptied (Function.update blocks.tables blocks.pgd none) [h.freshArea]
        (fun _ => h.freshRg :: ps) []), 0) := by
  obtain ⟨_, _, made, -, -, -, pgd, fifoPgn, -⟩ := h.initMm_granted self mm
  obtain ⟨rfl, same⟩ := Prod.mk.inj (Option.some.inj (made.symm.trans init))
  obtain rfl : _ = mm' := congrArg Prod.fst same
  have enlisted := enlisted_initMm init
  have cleared : blocks.tables blocks.pgd = some fun _ => 0 := by
    rw [holds.root, pgd, Option.map_some]
    congr 1
    funext i
    rw [MmHeap.clearFrom_apply, if_pos ⟨Nat.zero_le _, by omega⟩]
  have tables := release_cleared List.mem_finRange (List.nodup_finRange _) cleared depth
  have noPages : Path blocks.pgNext blocks.fifoPgn [] none := holds.fifoPgn.trans fifoPgn
  rw [MmBlocks.freeMm_eq_some_iff ((if_neg holds.pgd).trans tables)]
  constructor
  · rintro ⟨vmas, regions, pages, sound, rfl⟩
    have ends := sound.vmasEnd
    simp only [holds.vmNext, holds.vmFreergList, holds.rgNext, holds.areas, holds.rgs,
      holds.mmap] at ends
    obtain ⟨rfl, ps, own, path, old⟩ := enlisted.vmasEnd_iff.mp ends
    obtain rfl := sound.path.unique noPages
    exact ⟨ps, path, old, by simp [MmBlocks.emptied, own]⟩
  · rintro ⟨ps, path, old, rfl⟩
    refine ⟨_, _, _, ⟨?_, noPages, by simp⟩, rfl⟩
    simp only [holds.vmNext, holds.vmFreergList, holds.rgNext, holds.areas, holds.rgs, holds.mmap]
    exact enlisted.vmasEnd_iff.mpr ⟨rfl, ps, rfl, path, old⟩

/-- The map alone, with its root at address 7. -/
def MmHeap.blocks (h : MmHeap .mm32 M) (mm : MmStruct .mm32) :
    MmBlocks Build.mm32.Word (Fin Build.mm32.rootSz) where
  pgd := 7
  tables := fun a => if a = 7 then mm.pgd.map fun root (i : Fin Build.mm32.rootSz) => root i else none
  mmap := mm.mmap
  vmNext := fun p => (h.area p).vmNext
  vmFreergList := fun p => (h.area p).vmFreergList
  areas := Finset.range h.freshArea
  rgNext := fun p => (h.rg p).rgNext
  rgs := Finset.range h.freshRg
  fifoPgn := mm.fifoPgn
  pgNext := fun _ => none
  pgns := ∅

theorem MmHeap.holds_blocks (h : MmHeap .mm32 M) (mm : MmStruct .mm32) :
    (h.blocks mm).Holds h mm := by
  refine ⟨?_, by simp [MmHeap.blocks], rfl, rfl, rfl, rfl, rfl, rfl, rfl⟩
  show (7 : BitVec 32) ≠ 0
  decide

/-- An area and a region are in use, and the memory of the next area refers to that region. -/
def reused : MmHeap .mm32 Unit where
  area := fun _ => ⟨0, 0, 0, 0, none, some 0, none⟩
  freshArea := 1
  rg := fun _ => ⟨0, 0, none⟩
  freshRg := 1
  table := fun _ => 5

theorem freeMm_fresh_reused : ∃ h' mm',
    reused.initMm ⟨true, true, true⟩ () ⟨none, none, none, none, none, none, fun _ => ⟨0, 0, none⟩, none⟩ =
      some (h', mm', 0) ∧
    MmBlocks.freeMm (List.finRange Build.mm32.rootSz) 0 (some (h'.blocks mm')) =
      some (some ((h'.blocks mm').emptied (Function.update (h'.blocks mm').tables 7 none) [1]
        (fun _ => [1, 0]) []), 0) := by
  obtain ⟨h', mm', init, -⟩ := reused.initMm_granted ()
    ⟨none, none, none, none, none, none, fun _ => ⟨0, 0, none⟩, none⟩
  refine ⟨h', mm', init, (freeMm_fresh_iff init _ (h'.holds_blocks mm') 0 _).mpr ⟨[0], ?_, ?_, rfl⟩⟩
  · exact ⟨rfl, rfl⟩
  · simp [reused]

end Fresh

end SimpleOs.Mem
