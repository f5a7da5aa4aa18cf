import SimpleOs.Mem.Device
import SimpleOs.Mem.Machine

/-!
# What fresh memory leaves behind

`malloc` hands out nodes with whatever is in them. `MEMPHY_format` gives its first node a frame
number but no link, and links it only when it makes a second one; `init_mm` enlists its first free
region in front of what the area happens to hold as its list. So the lists are right for every
device of several pages, and else exactly where the memory happened to hold a `NULL`.
-/

namespace SimpleOs.Mem

open LinkedList (Path path_split)

variable {b : Build} {M : Type}

namespace Device

section Format

variable {d : Device b M} {head : Option Nat} {ps : List Nat} {fst iter left : Nat}

/-- One round of the loop of `MEMPHY_format`. -/
def formatRound (d : Device b M) (fst iter : Nat) : Device b M :=
  (d.addNode { d.node d.fresh with fpn := word b iter, fpNext := none }).setNext fst (some d.fresh)

theorem formatFrom_succ (d : Device b M) (fst iter left : Nat) :
    d.formatFrom fst iter (left + 1) =
      (d.formatRound fst iter).formatFrom d.fresh (iter + 1) left := rfl

theorem frame_formatRound {p : Nat} (old : p < d.fresh) :
    ((d.formatRound fst iter).entry p).1 = (d.entry p).1 := by
  rw [formatRound, entry_setNext, entry_addNode_of_lt old]

theorem frame_formatRound_fresh : ((d.formatRound fst iter).entry d.fresh).1 = word b iter := by
  rw [formatRound, entry_setNext, entry_addNode_fresh]

theorem next_formatRound {p : Nat} (old : p < d.fresh) (other : p ≠ fst) :
    (d.formatRound fst iter).next p = d.next p := by
  rw [formatRound, next_setNext, Function.update_of_ne other, next_addNode_of_lt old]

theorem next_formatRound_self : (d.formatRound fst iter).next fst = some d.fresh := by
  rw [formatRound, next_setNext, Function.update_self]

theorem next_formatRound_fresh (old : fst < d.fresh) :
    (d.formatRound fst iter).next d.fresh = none := by
  rw [formatRound, next_setNext, Function.update_of_ne old.ne', next_addNode_fresh]

/-- The loop lengthens the list behind `fst` by the frames from `iter` on. Where it makes no round,
the list is as long as `fst` says. -/
theorem formatFrom_passes (iter : Nat) (upto : Path d.next head ps (some fst))
    (old : ∀ p ∈ ps, p < d.fresh) (made : fst < d.fresh) (apart : fst ∉ ps)
    (last : left = 0 → d.next fst = none) :
    ∃ qs, (d.formatFrom fst iter left).Passes head (ps ++ fst :: qs) ∧
      (qs.map (d.formatFrom fst iter left).entry).map Prod.fst =
        (List.range left).map (fun i => word b (iter + i)) ∧
      ∀ p < d.fresh, ((d.formatFrom fst iter left).entry p).1 = (d.entry p).1 := by
  induction left generalizing d ps fst iter with
  | zero =>
      refine ⟨[], ⟨path_split.mpr ⟨upto, last rfl⟩, ?_⟩, rfl, fun _ _ => rfl⟩
      simpa [or_imp, forall_and] using ⟨old, made⟩
  | succ left ih =>
      have grown : (d.formatRound fst iter).fresh = d.fresh + 1 := rfl
      have linked : Path (d.formatRound fst iter).next head (ps ++ [fst]) (some d.fresh) := by
        refine path_split.mpr ⟨upto.congr fun p member => ?_, next_formatRound_self⟩
        refine next_formatRound (old p member) ?_
        rintro rfl
        exact apart member
      have older : ∀ p ∈ ps ++ [fst], p < d.fresh := by
        simpa [or_imp, forall_and] using ⟨old, made⟩
      obtain ⟨qs, passes, frames, kept⟩ := ih (iter + 1) linked
        (fun p member => (older p member).trans (Nat.lt_succ_self _)) (Nat.lt_succ_self _)
        (fun member => lt_irrefl _ (older _ member)) fun _ => next_formatRound_fresh made
      rw [formatFrom_succ]
      refine ⟨d.fresh :: qs, ?_, ?_, ?_⟩
      · rwa [List.append_assoc, List.singleton_append] at passes
      · rw [List.map_cons, List.map_cons, frames, kept d.fresh (Nat.lt_succ_self _),
          frame_formatRound_fresh, List.range_succ_eq_map, List.map_cons, List.map_map]
        simp only [Function.comp_def, add_zero, Nat.succ_eq_add_one, Nat.add_assoc, Nat.add_comm 1]
      · intro p before
        rw [kept p (before.trans (Nat.lt_succ_self _)), frame_formatRound before]

/-- The first node of the free list, before it is linked. -/
def firstNode (d : Device b M) : Device b M :=
  (d.addNode { d.node d.fresh with fpn := 0 }).setFree (some d.fresh)

theorem format_of_frames (several : 0 < d.totalFrames) :
    d.format = (d.firstNode.formatFrom d.fresh 1 (d.totalFrames.toNat - 1), 0) :=
  if_neg (not_le.mpr several)

/-- The free list of a device with several frames, or with one whose node happens to have no
link. -/
theorem format_lists (several : 0 < d.totalFrames)
    (link : d.totalFrames = 1 → d.next d.fresh = none) (unused : d.usedFpList = none) :
    d.format.1.Lists (stock b d.totalFrames.toNat) [] := by
  have first : d.firstNode.next d.fresh = d.next d.fresh := next_addNode_fresh _
  have frame : (d.firstNode.entry d.fresh).1 = 0 := congrArg Prod.fst (entry_addNode_fresh _)
  have upto : Path d.firstNode.next (some d.fresh) [] (some d.fresh) := rfl
  have last : d.totalFrames.toNat - 1 = 0 → d.firstNode.next d.fresh = none :=
    fun none => first.trans (link (by omega))
  obtain ⟨qs, passes, frames, kept⟩ := formatFrom_passes 1 upto
    (List.forall_mem_nil _) (Nat.lt_succ_self d.fresh) List.not_mem_nil last
  obtain ⟨free, used⟩ := d.firstNode.formatFrom_heads d.fresh 1 (d.totalFrames.toNat - 1)
  rw [format_of_frames several]
  refine ⟨d.fresh :: qs, [], ⟨?_, ?_, List.disjoint_nil_right _⟩, ?_, rfl⟩
  · rw [free]
    exact passes
  · exact Passes.nil (used.trans unused)
  · have count : d.totalFrames.toNat = d.totalFrames.toNat - 1 + 1 := by omega
    rw [List.map_cons, List.map_cons, frames, kept d.fresh (Nat.lt_succ_self _), frame, stock, count,
      List.range_succ_eq_map, List.map_cons, List.map_map]
    simp only [Nat.add_sub_cancel, Function.comp_def, Nat.succ_eq_add_one, Nat.add_comm 1]
    rfl

/-- A link that is left in the node of a single frame goes on. -/
theorem link_of_format_lists (single : d.totalFrames = 1)
    (lists : d.format.1.Lists (stock b 1) []) : d.next d.fresh = none := by
  have first : d.firstNode.next d.fresh = d.next d.fresh := next_addNode_fresh _
  rw [format_of_frames (by omega), single] at lists
  obtain ⟨ps, qs, linked, frames, -⟩ := lists
  have length := congrArg List.length frames
  simp only [List.length_map, stock, List.length_range, List.length_eq_one_iff] at length
  obtain ⟨p, rfl⟩ := length
  obtain ⟨head, after⟩ := linked.free.tail
  obtain rfl : d.fresh = p := Option.some.inj head
  exact first.symm.trans after.path

end Format

section Init

variable (d : Device b M) (maxSize : b.Word) (randomflg : BitVec 32)

/-- The device that `init_memphy` formats. -/
def sized : Device b M :=
  { d with
    storage := some ⟨maxSize.toNat, fun _ => 0⟩
    maxsz := maxSize.setWidth 32
    usedFpList := none }

/-- The flag and the cursor are beside the lists. -/
theorem lists_rdmflg {d : Device b M} {free : List b.Word} {used : List (b.Word × Option M)}
    (flag : Bool) :
    (if !flag then { d with rdmflg := flag, cursor := 0 } else { d with rdmflg := flag }).Lists
      free used ↔ d.Lists free used := by
  cases flag <;>
    exact ⟨fun lists => lists.congr rfl rfl rfl rfl, fun lists => lists.congr rfl rfl rfl rfl⟩

theorem initMemphy_lists (free : List b.Word) (used : List (b.Word × Option M)) :
    (d.initMemphy maxSize randomflg).Lists free used ↔
      (if (d.sized maxSize).format.2 < 0 then (d.sized maxSize).format.1.setFree none
        else (d.sized maxSize).format.1).Lists free used :=
  lists_rdmflg (randomflg != 0)

/-- With fewer than `2 ^ 31` bytes the frames are counted right. -/
theorem totalFrames_sized {maxSize : b.Word} (size : maxSize.toNat < 2 ^ 31) :
    (d.sized maxSize).totalFrames = (maxSize.toNat / b.pageSz : Nat) := by
  have signed : (maxSize.setWidth 32).toInt = maxSize.toNat := by
    rw [BitVec.toInt_eq_toNat_cond, BitVec.toNat_setWidth, Nat.mod_eq_of_lt (by omega),
      if_pos (by omega)]
  rw [totalFrames, sized, signed, Int.tdiv_eq_ediv_of_nonneg (Int.natCast_nonneg _)]
  rfl

/-- The free list of a fresh device is right exactly if it has not one frame, or the node of that frame
happened to have no link. -/
theorem initMemphy_lists_iff {maxSize : b.Word} (size : maxSize.toNat < 2 ^ 31) :
    (d.initMemphy maxSize randomflg).Lists (stock b (maxSize.toNat / b.pageSz)) [] ↔
      (maxSize.toNat / b.pageSz = 1 → d.next d.fresh = none) := by
  have frames := d.totalFrames_sized size
  have first : (d.sized maxSize).next (d.sized maxSize).fresh = d.next d.fresh := rfl
  rw [initMemphy_lists]
  by_cases several : 0 < (d.sized maxSize).totalFrames
  · have done : (d.sized maxSize).format.2 = 0 := congrArg Prod.snd (format_of_frames several)
    have count : (d.sized maxSize).totalFrames.toNat = maxSize.toNat / b.pageSz := by omega
    rw [done, if_neg (lt_irrefl 0)]
    constructor
    · intro lists single
      rw [single] at lists
      have one : (d.sized maxSize).totalFrames = 1 := by omega
      exact first.symm.trans (link_of_format_lists one lists)
    · intro link
      rw [← count]
      exact format_lists several (fun single => first.trans (link (by omega))) rfl
  · have failed : (d.sized maxSize).format = (d.sized maxSize, -1) := if_pos (not_lt.mp several)
    have none : maxSize.toNat / b.pageSz = 0 := by
      rw [frames] at several
      exact Nat.eq_zero_of_not_pos (mt Int.natCast_pos.mpr several)
    have ret : (d.sized maxSize).format.2 < 0 := (congrArg Prod.snd failed).trans_lt neg_one_lt_zero
    rw [if_pos ret, failed, none]
    refine iff_of_true ?_ fun single => absurd single (by decide)
    exact ⟨[], [], ⟨Passes.nil rfl, Passes.nil rfl, List.disjoint_nil_left _⟩, rfl, rfl⟩

/-- Where the list is right the device is the one that the rest of the kernel starts with. -/
theorem models_initMemphy {maxSize : b.Word} (size : maxSize.toNat < 2 ^ 31)
    (link : maxSize.toNat / b.pageSz = 1 → d.next d.fresh = none) :
    (d.initMemphy maxSize randomflg).Models (.init b maxSize.toNat (randomflg != 0)) where
  storage := ⟨_, storage_initMemphy d maxSize randomflg, le_refl _⟩
  maxsz := by
    have small : (maxSize.setWidth 32).toNat = maxSize.toNat := by
      rw [BitVec.toNat_setWidth, Nat.mod_eq_of_lt (by omega)]
    have positive : (maxSize.setWidth 32).msb = false := by
      rw [BitVec.msb_eq_false_iff_two_mul_lt, small]
      omega
    rw [maxsz_initMemphy, BitVec.signExtend_eq_setWidth_of_msb_false positive, BitVec.toNat_setWidth,
      small, Nat.mod_eq_of_lt maxSize.isLt]
    rfl
  rdmflg := rdmflg_initMemphy d maxSize randomflg
  lists := ⟨[], (d.initMemphy_lists_iff randomflg size).mpr link⟩

end Init

end Device

/-! ## The first area -/

/-- `struct vm_rg_struct`, with its link. -/
structure VmRg (b : Build) where
  rgStart : b.Word
  rgEnd : b.Word
  rgNext : Option Nat

/-- `struct vm_area_struct`, where `M` are the pointers to an `mm`. -/
structure VmAreaStruct (b : Build) (M : Type) where
  vmId : BitVec 64
  vmStart : b.Word
  vmEnd : b.Word
  sbrk : b.Word
  vmMm : Option M
  vmFreergList : Option Nat
  vmNext : Option Nat

/-- `struct mm_struct`. The tables after `pgd` are there with `MM64` only. -/
structure MmStruct (b : Build) where
  pgd : Option (Nat → b.Word)
  p4d : Option (Nat → b.Word)
  pud : Option (Nat → b.Word)
  pmd : Option (Nat → b.Word)
  pt : Option (Nat → b.Word)
  mmap : Option Nat
  symrgtbl : Fin pagingMaxSymtblSz → VmRg b
  fifoPgn : Option Nat

/-- The areas and the regions that `malloc` has handed out, and what is in those that it has not:
those from `freshArea` and from `freshRg` on, and the memory of a page table. -/
structure MmHeap (b : Build) (M : Type) where
  area : Nat → VmAreaStruct b M
  freshArea : Nat
  rg : Nat → VmRg b
  freshRg : Nat
  table : Nat → b.Word

/-- What `malloc` grants to `init_mm`. -/
structure Grants where
  vma0 : Bool
  pgd : Bool
  firstRg : Bool

/-- The entries of a page-table root. -/
def Build.rootSz (b : Build) : Nat := if b.refuses then 2 ^ b.indexBits else 512

/-- The loop of `init_mm` over the root, from entry `i` on. -/
def clearFrom (table : Nat → b.Word) (i : Nat) : (left : Nat) → Nat → b.Word
  | 0 => table
  | left + 1 => clearFrom (Function.update table i 0) (i + 1) left

namespace MmHeap

/-- `init_vm_rg`, which does not look whether `malloc` has granted a node. -/
def initVmRg (h : MmHeap b M) (granted : Bool) (rgStart rgEnd : b.Word) :
    Option (MmHeap b M × Nat) :=
  if granted then
    some ({ h with
      rg := Function.update h.rg h.freshRg ⟨rgStart, rgEnd, none⟩
      freshRg := h.freshRg + 1 }, h.freshRg)
  else none

/-- `enlist_vm_rg_node`, with what it leaves in `*rglist`. -/
def enlistVmRgNode (h : MmHeap b M) (rglist : Option Nat) (rgnode : Nat) : MmHeap b M × Option Nat :=
  ({ h with rg := Function.update h.rg rgnode { h.rg rgnode with rgNext := rglist } }, some rgnode)

/-- The area that `init_mm` makes of the node it gets. -/
def firstVma (vma0 : VmAreaStruct b M) (self : M) (vmFreergList : Option Nat) : VmAreaStruct b M :=
  { vma0 with
    vmId := 0
    vmStart := 0
    vmEnd := 0
    sbrk := 0
    vmMm := some self
    vmFreergList := vmFreergList
    vmNext := none }

/-- `init_mm` of an `mm_struct` with whatever is in it. The MM64 build looks whether it has been
granted the area and the root. -/
def initMm (h : MmHeap b M) (granted : Grants) (self : M) (mm : MmStruct b) :
    Option (MmHeap b M × MmStruct b × Int) :=
  let vma0 := h.freshArea
  let mm' := if b.refuses then mm
    else { mm with pgd := none, p4d := none, pud := none, pmd := none, pt := none }
  if !granted.vma0 then if b.refuses then none else some (h, mm, -1)
  else if !granted.pgd then if b.refuses then none else some (h, mm', -1)
  else
    match h.initVmRg granted.firstRg 0 0 with
    | none => none
    | some (h, firstRg) =>
        let (h, vmFreergList) := h.enlistVmRgNode (h.area vma0).vmFreergList firstRg
        some ({ h with
            area := Function.update h.area vma0 (firstVma (h.area vma0) self vmFreergList)
            freshArea := vma0 + 1 },
          { mm' with
            pgd := some (clearFrom h.table 0 b.rootSz)
            mmap := some vma0
            symrgtbl := fun _ => ⟨0, 0, none⟩
            fifoPgn := none }, 0)

/-- The list of regions from `head`. -/
def Rgs (h : MmHeap b M) (head : Option Nat) (rgs : List (Region b)) : Prop :=
  ∃ ps, Path (fun p => (h.rg p).rgNext) head ps none ∧
    ps.map (fun p => ⟨(h.rg p).rgStart, (h.rg p).rgEnd⟩) = rgs

/-- The area at `p`. -/
structure IsVma (h : MmHeap b M) (p : Nat) (vma : Vma b) : Prop where
  vmId : (h.area p).vmId.toNat = vma.vmId
  vmStart : (h.area p).vmStart = vma.vmStart
  vmEnd : (h.area p).vmEnd = vma.vmEnd
  sbrk : (h.area p).sbrk = vma.sbrk
  vmFreergList : h.Rgs (h.area p).vmFreergList vma.vmFreergList

/-- The list of areas from `head`. -/
def Vmas (h : MmHeap b M) (head : Option Nat) (mmap : List (Vma b)) : Prop :=
  ∃ ps, Path (fun p => (h.area p).vmNext) head ps none ∧ List.Forall₂ h.IsVma ps mmap

/-- The `mm` is one fresh from `init_mm`, as the rest of the kernel takes it to be. -/
structure Started (h : MmHeap b M) (mm : MmStruct b) : Prop where
  mmap : h.Vmas mm.mmap (Mm.init b).mmap
  pgd : ∃ root, mm.pgd = some root ∧ ∀ i < b.rootSz, root i = 0
  fifoPgn : mm.fifoPgn = none
  symrgtbl : ∀ rgid, mm.symrgtbl rgid = ⟨0, 0, none⟩

section Init

variable {h h' : MmHeap b M} {mm mm' : MmStruct b} {self : M}

/-- The loop clears the entries from `i` on and leaves those before. -/
theorem clearFrom_apply (table : Nat → b.Word) (i left j : Nat) :
    clearFrom table i left j = if i ≤ j ∧ j < i + left then 0 else table j := by
  induction left generalizing table i with
  | zero => rw [clearFrom, if_neg (by omega)]
  | succ left ih =>
      rw [clearFrom, ih]
      by_cases here : j = i
      · rw [here, if_neg (by omega), if_pos (by omega), Function.update_self]
      · rw [Function.update_of_ne here]
        exact if_congr (by omega) rfl rfl

/-- With all that it asks for granted, `init_mm` sets up one area, whose regions go on with what
its node held. -/
theorem initMm_granted (h : MmHeap b M) (self : M) (mm : MmStruct b) :
    ∃ h' mm', h.initMm ⟨true, true, true⟩ self mm = some (h', mm', 0) ∧
      mm'.mmap = some h.freshArea ∧
      h'.area h.freshArea = firstVma (h.area h.freshArea) self (some h.freshRg) ∧
      h'.rg h.freshRg = ⟨0, 0, (h.area h.freshArea).vmFreergList⟩ ∧
      mm'.pgd = some (clearFrom h.table 0 b.rootSz) ∧ mm'.fifoPgn = none ∧
      ∀ rgid, mm'.symrgtbl rgid = ⟨0, 0, none⟩ := by
  refine ⟨_, _, rfl, rfl, Function.update_self .., ?_, rfl, rfl, fun _ => rfl⟩
  simp

/-- A list of one region ends there. -/
theorem rgs_singleton_iff {q : Nat} {rgStart rgEnd : b.Word} {link : Option Nat}
    (rg : h.rg q = ⟨rgStart, rgEnd, link⟩) : h.Rgs (some q) [⟨rgStart, rgEnd⟩] ↔ link = none := by
  have next : (fun p => (h.rg p).rgNext) q = link := congrArg VmRg.rgNext rg
  constructor
  · rintro ⟨ps, path, values⟩
    have single := congrArg List.length values
    rw [List.length_map, List.length_singleton, List.length_eq_one_iff] at single
    obtain ⟨p, rfl⟩ := single
    obtain ⟨first, last⟩ := path
    obtain rfl : q = p := Option.some.inj first
    exact next.symm.trans last
  · rintro rfl
    refine ⟨[q], ⟨rfl, next⟩, ?_⟩
    rw [List.map_singleton, rg]

/-- The area that `init_mm` makes is the one that a process starts with if its regions are. -/
theorem vmas_init_iff {p : Nat} {vma0 : VmAreaStruct b M} {vmFreergList : Option Nat}
    (area : h.area p = firstVma vma0 self vmFreergList) :
    h.Vmas (some p) (Mm.init b).mmap ↔ h.Rgs vmFreergList [⟨0, 0⟩] := by
  have list : (h.area p).vmFreergList = vmFreergList := congrArg VmAreaStruct.vmFreergList area
  constructor
  · rintro ⟨ps, path, vmas⟩
    obtain ⟨p', rest, same, -, rfl⟩ := List.forall₂_cons_right_iff.mp vmas
    obtain rfl : p = p' := Option.some.inj path.1
    rw [← list]
    exact same.vmFreergList
  · intro rgs
    refine ⟨[p], ⟨rfl, congrArg VmAreaStruct.vmNext area⟩, .cons ?_ .nil⟩
    rw [← list] at rgs
    exact ⟨by rw [area]; rfl, congrArg VmAreaStruct.vmStart area, congrArg VmAreaStruct.vmEnd area,
      congrArg VmAreaStruct.sbrk area, rgs⟩

/-- The regions of the first area end where its node held a `NULL`. -/
theorem started_iff (init : h.initMm ⟨true, true, true⟩ self mm = some (h', mm', 0)) :
    h'.Started mm' ↔ (h.area h.freshArea).vmFreergList = none := by
  obtain ⟨_, _, result, mmap, area, rg, pgd, fifoPgn, symrgtbl⟩ := h.initMm_granted self mm
  obtain ⟨rfl, same⟩ := Prod.mk.inj (Option.some.inj (result.symm.trans init))
  obtain rfl := congrArg Prod.fst same
  rw [← rgs_singleton_iff rg, ← vmas_init_iff area, ← mmap]
  refine ⟨Started.mmap, fun vmas => ⟨vmas, ⟨_, pgd, fun i inside => ?_⟩, fifoPgn, symrgtbl⟩⟩
  rw [clearFrom_apply, if_pos (by omega)]

end Init

end MmHeap

/-- What fresh memory has to hold for the lists to come out right: `NULL` for a link in the node
of a device of one frame, and for the list of regions in the node of the area. -/
theorem fresh_lists_iff (d : Device b M) (h : MmHeap b M) (self : M) (mm : MmStruct b)
    (maxSize : b.Word) (randomflg : BitVec 32) (size : maxSize.toNat < 2 ^ 31) :
    ((d.initMemphy maxSize randomflg).Lists (stock b (maxSize.toNat / b.pageSz)) [] ∧
      ∃ h' mm', h.initMm ⟨true, true, true⟩ self mm = some (h', mm', 0) ∧ h'.Started mm') ↔
    (maxSize.toNat / b.pageSz = 1 → d.next d.fresh = none) ∧
      (h.area h.freshArea).vmFreergList = none := by
  refine and_congr (d.initMemphy_lists_iff randomflg size) ⟨?_, fun link => ?_⟩
  · rintro ⟨h', mm', init, started⟩
    exact (MmHeap.started_iff init).mp started
  · obtain ⟨h', mm', init, -⟩ := h.initMm_granted self mm
    exact ⟨h', mm', init, (MmHeap.started_iff init).mpr link⟩

/-- A device, a heap and an `mm` before they are initialised, in memory that is cleared but for two
links of the nodes that will be handed out. -/
def uncleared (fpNext vmFreergList : Option Nat) :
    Device .mm32 Unit × MmHeap .mm32 Unit × MmStruct .mm32 :=
  ({ Device.unset .mm32 Unit with node := fun _ => ⟨0, fpNext, none⟩ },
    { area := fun _ => ⟨0, 0, 0, 0, none, vmFreergList, none⟩
      freshArea := 0
      rg := fun _ => ⟨0, 0, none⟩
      freshRg := 0
      table := fun _ => 0 },
    ⟨none, none, none, none, none, none, fun _ => ⟨0, 0, none⟩, none⟩)

theorem fresh_lists_cleared :
    ((uncleared none none).1.initMemphy 256 1).Lists (stock .mm32 1) [] ∧
      ∃ h' mm', (uncleared none none).2.1.initMm ⟨true, true, true⟩ () (uncleared none none).2.2 =
        some (h', mm', 0) ∧ h'.Started mm' :=
  (fresh_lists_iff (uncleared none none).1 (uncleared none none).2.1 () (uncleared none none).2.2 256 1
    (by decide)).mpr ⟨fun _ => rfl, rfl⟩

/-- The one frame of a device of 256 bytes, and the first region of an area, are not the last. -/
theorem uncleared_links : ¬ ∀ (d : Device .mm32 Unit) (h : MmHeap .mm32 Unit) (mm : MmStruct .mm32)
    (maxSize : Build.mm32.Word) (randomflg : BitVec 32), maxSize.toNat < 2 ^ 31 →
    (d.initMemphy maxSize randomflg).Lists (stock .mm32 (maxSize.toNat / Build.mm32.pageSz)) [] ∧
      ∃ h' mm', h.initMm ⟨true, true, true⟩ () mm = some (h', mm', 0) ∧ h'.Started mm' := by
  intro right
  have size : (256 : Build.mm32.Word).toNat < 2 ^ 31 := by decide
  obtain ⟨lists, -⟩ := right (uncleared (some 0) (some 0)).1 (uncleared (some 0) (some 0)).2.1
    (uncleared (some 0) (some 0)).2.2 256 1 size
  have link := (Device.initMemphy_lists_iff _ 1 size).mp lists (by decide)
  cases link

end SimpleOs.Mem
