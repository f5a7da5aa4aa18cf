import Mathlib
import SimpleOs.Lib.LinkedList
import SimpleOs.Lib.Transition
import SimpleOs.Mem.Region

/-!
# The list of memory areas

`mm-vm.c` keeps the areas of an `mm` on a list linked by `vm_next`, sorted by
`vm_id`. Here the areas are nodes with addresses, as `malloc` hands them out, and each
operation relinks the nodes that the code relinks. The free regions of an area are
given by their values, which is right as long as no two areas share a region: `VmRegions`
has the lists of regions as nodes too.

A function gives `none` where the code dereferences `NULL` or walks a list that does
not end.
-/

namespace SimpleOs.Mem

open LinkedList (Path search)

variable {b : Build}

/-- `struct vm_area_struct`. `vmMm` tells whether `vm_mm` points to the `mm` or is
`NULL`. -/
structure VmArea (b : Build) where
  vmId : BitVec 64
  vmStart : b.Word
  vmEnd : b.Word
  sbrk : b.Word
  vmMm : Bool
  vmFreergList : List (Region b)
  vmNext : Option Nat

/-- The areas of an `mm`: the nodes at the addresses below `fresh`, of which `mmap` is
the first on the list. `made` are those of `create_vm_area`, as long as they are not
freed. -/
structure VmMap (b : Build) where
  mmap : Option Nat
  area : Nat → VmArea b
  fresh : Nat
  made : List Nat

/-- `OVERLAP` of two areas. -/
def VmArea.overlaps (x y : VmArea b) : Bool := x.vmStart < y.vmEnd && y.vmStart < x.vmEnd

/-- The loop of `split_vm_area` over the free regions: those that stay and those that
move to the new area. A region cut in two keeps its successors, which the new region is
linked to as well. -/
def splitRegions (splitAddr : b.Word) : List (Region b) → List (Region b) × List (Region b)
  | [] => ([], [])
  | rg :: rest =>
      if splitAddr ≤ rg.rgStart then ([], rg :: rest)
      else if splitAddr < rg.rgEnd then
        (⟨rg.rgStart, splitAddr⟩ :: rest, ⟨splitAddr, rg.rgEnd⟩ :: rest)
      else
        let (stay, move) := splitRegions splitAddr rest
        (rg :: stay, move)

/-- What `merge_vm_areas` makes of the area that starts first. -/
def VmArea.merge (vma1 vma2 : VmArea b) : VmArea b :=
  { vma1 with
    vmEnd := vma2.vmEnd
    sbrk := if vma2.sbrk < vma1.sbrk then vma1.sbrk else vma2.sbrk
    vmFreergList := vma1.vmFreergList ++ vma2.vmFreergList
    vmNext := vma2.vmNext }

/-- What `split_vm_area` makes of the area, where the new one is at `newVma`. -/
def VmArea.lower (vma : VmArea b) (splitAddr : b.Word) (newVma : Nat) : VmArea b :=
  { vma with
    vmEnd := splitAddr
    sbrk := if splitAddr < vma.sbrk then splitAddr else vma.sbrk
    vmFreergList := (splitRegions splitAddr vma.vmFreergList).1
    vmNext := some newVma }

/-- The new area of `split_vm_area`. -/
def VmArea.upper (vma : VmArea b) (splitAddr : b.Word) : VmArea b where
  vmId := vma.vmId + 1
  vmStart := splitAddr
  vmEnd := vma.vmEnd
  sbrk := if splitAddr < vma.sbrk then vma.sbrk else splitAddr
  vmMm := vma.vmMm
  vmFreergList := (splitRegions splitAddr vma.vmFreergList).2
  vmNext := vma.vmNext

namespace VmMap

/-- What `init_mm` sets up: area 0, empty. -/
def init (b : Build) : VmMap b where
  mmap := some 0
  area := fun _ => ⟨0, 0, 0, 0, true, [⟨0, 0⟩], none⟩
  fresh := 1
  made := []

def next (s : VmMap b) (p : Nat) : Option Nat := (s.area p).vmNext

/-- A store to the area at `p`. -/
def setArea (s : VmMap b) (p : Nat) (vma : VmArea b) : VmMap b :=
  { s with area := Function.update s.area p vma }

/-- `p->vm_next = link` -/
def setNext (s : VmMap b) (p : Nat) (link : Option Nat) : VmMap b :=
  s.setArea p { s.area p with vmNext := link }

/-- The loops over the list: from `cur`, with `prev` before it, to the first area that
meets `stop`. A list of the nodes there are ends before the fuel does. -/
def find (s : VmMap b) (stop : Nat → Bool) (prev cur : Option Nat) :
    Option (Option Nat × Option Nat) :=
  search s.next stop (s.fresh + 1) prev cur

/-- The area is on the list. -/
def listed (s : VmMap b) (p : Nat) : Bool :=
  match s.find (fun cur => cur = p) none s.mmap with
  | some (_, some _) => true
  | _ => false

/-- `create_vm_area` -/
def createVmArea (s : VmMap b) (vmaid : BitVec 32) (vmStart vmEnd : b.Word) : VmMap b :=
  { s.setArea s.fresh ⟨vmaid.signExtend 64, vmStart, vmEnd, vmStart, false,
      [⟨vmStart, vmStart⟩], none⟩ with
    fresh := s.fresh + 1
    made := s.fresh :: s.made }

/-- The insertion in `add_vm_area`, before the first area whose id is not smaller. -/
def insertById (s : VmMap b) (newVma : Nat) : Option (VmMap b) :=
  match s.mmap with
  | none => some { s.setNext newVma none with mmap := some newVma }
  | some head =>
      if (s.area newVma).vmId < (s.area head).vmId then
        some { s.setNext newVma (some head) with mmap := some newVma }
      else
        match s.find (fun cur => !decide ((s.area cur).vmId < (s.area newVma).vmId))
            (some head) (s.next head) with
        | some (some prev, cur) => some ((s.setNext newVma cur).setNext prev (some newVma))
        | _ => none

/-- `add_vm_area` -/
def addVmArea (s : VmMap b) (newVma : Nat) : Option (VmMap b × Int) :=
  match s.find (fun cur => (s.area cur).overlaps (s.area newVma)) none s.mmap with
  | none => none
  | some (_, some _) => some (s, -1)
  | some (_, none) =>
      let s := s.setArea newVma { s.area newVma with vmMm := true }
      (s.insertById newVma).map fun s => (s, 0)

/-- `remove_vm_area` -/
def removeVmArea (s : VmMap b) (vmaid : BitVec 32) : Option (VmMap b × Int) :=
  match s.mmap with
  | none => some (s, -1)
  | some _ =>
      match s.find (fun cur => (s.area cur).vmId = vmaid.signExtend 64) none s.mmap with
      | none => none
      | some (_, none) => some (s, -1)
      | some (prev, some cur) =>
          let s := match prev with
            | none => { s with mmap := s.next cur }
            | some prev => s.setNext prev (s.next cur)
          some ({ s with made := s.made.erase cur }, 0)

/-- Two areas with the one that starts first in front. -/
def byStart (s : VmMap b) (vma1 vma2 : Nat) : Nat × Nat :=
  if (s.area vma2).vmStart < (s.area vma1).vmStart then (vma2, vma1) else (vma1, vma2)

/-- `merge_vm_areas` -/
def mergeVmAreas (s : VmMap b) (vma1 vma2 : Nat) : VmMap b × Int :=
  if (s.area vma1).vmEnd ≠ (s.area vma2).vmStart ∧
      (s.area vma2).vmEnd ≠ (s.area vma1).vmStart then (s, -1)
  else
    let (vma1, vma2) := s.byStart vma1 vma2
    let s := s.setArea vma1 ((s.area vma1).merge (s.area vma2))
    (s.setArea vma2 { s.area vma2 with vmFreergList := [] }, 0)

/-- `split_vm_area` -/
def splitVmArea (s : VmMap b) (vma : Nat) (splitAddr : b.Word) : VmMap b × Int :=
  let old := s.area vma
  if splitAddr ≤ old.vmStart ∨ old.vmEnd ≤ splitAddr then (s, -1)
  else
    let newVma := s.fresh
    let s := s.setArea newVma (old.upper splitAddr)
    let s := s.setArea vma (old.lower splitAddr newVma)
    ({ s with fresh := newVma + 1 }, 0)

/-- `get_vma_by_num`. It compares ids as `int`, and dereferences `NULL` when no id is
large enough. -/
def getVmaByNum (s : VmMap b) (vmaid : BitVec 32) : Option (Option Nat) :=
  match s.mmap with
  | none => some none
  | some _ =>
      match s.find (fun p => !((s.area p).vmId.setWidth 32).slt vmaid) none s.mmap with
      | some (_, some p) => some (some p)
      | _ => none

/-- `validate_overlap_vm_area`. The planned range is only tested for being non-empty. -/
def validateOverlapVmArea (s : VmMap b) (vmaid : BitVec 32) (vmastart vmaend : b.Word) :
    Option Int :=
  if vmaend ≤ vmastart then some (-1)
  else
    match s.getVmaByNum vmaid with
    | none => none
    | some none => some (-1)
    | some (some cur) =>
        match s.find (fun p => p ≠ cur && (s.area cur).overlaps (s.area p)) none s.mmap with
        | none => none
        | some (_, some _) => some (-1)
        | some (_, none) => some 0

/-- The area after `vm_end += inc_amt` and `sbrk += inc_sz`. -/
def grown (s : VmMap b) (p : Nat) (incSz : b.Word) : VmMap b :=
  s.setArea p { s.area p with
    vmEnd := (s.area p).vmEnd + b.pageAlignsz incSz
    sbrk := (s.area p).sbrk + incSz }

/-- `inc_vma_limit` on the `mm` that `krnl->mm` points to. `vm_map_ram` leaves the areas
alone, and its result is unsigned and passes for a success. -/
def incVmaLimit (s : VmMap b) (vmaid : BitVec 32) (incSz : b.Word) : Option (VmMap b × Int) :=
  match s.getVmaByNum vmaid with
  | none => none
  | some none => some (s, -1)
  | some (some p) =>
      let grown := s.grown p incSz
      match grown.validateOverlapVmArea vmaid (grown.area p).vmStart (grown.area p).vmEnd with
      | none => none
      | some overlap => if overlap < 0 then some (s, -1) else some (grown, 0)

section Stores

variable (s : VmMap b) (p q : Nat) (vma : VmArea b)

@[simp] theorem area_setArea_self : (s.setArea p vma).area p = vma := Function.update_self ..

theorem area_setArea_of_ne {p q : Nat} (other : q ≠ p) :
    (s.setArea p vma).area q = s.area q := Function.update_of_ne other ..

@[simp] theorem next_setArea : (s.setArea p vma).next = Function.update s.next p vma.vmNext := by
  funext q
  by_cases same : q = p
  · subst same
    simp [next]
  · simp [next, setArea, same]

/-- A store that keeps the link keeps all links. -/
theorem next_setArea_of_link {vma : VmArea b} (link : vma.vmNext = s.next p) :
    (s.setArea p vma).next = s.next := by
  rw [next_setArea, link, Function.update_eq_self]

@[simp] theorem next_setNext (link : Option Nat) :
    (s.setNext p link).next = Function.update s.next p link := next_setArea ..

end Stores

end VmMap

/-- The calls on the areas of an `mm`. -/
inductive VmCall (b : Build) where
  | createVmArea (vmaid : BitVec 32) (vmStart vmEnd : b.Word)
  | addVmArea (newVma : Nat)
  | removeVmArea (vmaid : BitVec 32)
  | mergeVmAreas (vma1 vma2 : Nat)
  | splitVmArea (vma : Nat) (splitAddr : b.Word)
  | incVmaLimit (vmaid : BitVec 32) (incSz : b.Word)

/-- Any calls on the areas of an `mm` fresh from `init_mm`. Areas are created with
`vm_start <= vm_end`; those added come from `create_vm_area`, and those merged or split
are on the list. -/
def vmSystem (b : Build) : TransitionSystem (VmMap b) (VmCall b) where
  init s := s = .init b
  step s
    | .createVmArea vmaid vmStart vmEnd =>
        if vmStart ≤ vmEnd then some (s.createVmArea vmaid vmStart vmEnd) else none
    | .addVmArea newVma => if newVma ∈ s.made then (s.addVmArea newVma).map Prod.fst else none
    | .removeVmArea vmaid => (s.removeVmArea vmaid).map Prod.fst
    | .mergeVmAreas vma1 vma2 =>
        if s.listed vma1 && s.listed vma2 then some (s.mergeVmAreas vma1 vma2).1 else none
    | .splitVmArea vma splitAddr =>
        if s.listed vma then some (s.splitVmArea vma splitAddr).1 else none
    | .incVmaLimit vmaid incSz => (s.incVmaLimit vmaid incSz).map Prod.fst

end SimpleOs.Mem
