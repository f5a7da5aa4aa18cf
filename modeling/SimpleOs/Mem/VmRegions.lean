import SimpleOs.Mem.Initial
import SimpleOs.Mem.VmLinks

/-!
# Areas with the nodes of their free regions

`VmMap` has the free regions of an area as values. Here they are the nodes that
`merge_vm_areas` and `split_vm_area` walk over and relink. As long as no two areas share a
region the nodes do what the values say; but where `split_vm_area` cuts a region in two, what
follows it is on the lists of both areas from then on.
-/

namespace SimpleOs.Mem

open LinkedList (Path continued continued_concat mem_middle path_split search search_last
  search_spec)

variable {b : Build} {M : Type}

/-- What `merge_vm_areas` makes of the area that starts first. -/
def VmAreaStruct.merge (vma1 vma2 : VmAreaStruct b M) : VmAreaStruct b M :=
  { vma1 with
    vmEnd := vma2.vmEnd
    sbrk := if vma2.sbrk < vma1.sbrk then vma1.sbrk else vma2.sbrk
    vmFreergList := vma1.vmFreergList.or vma2.vmFreergList
    vmNext := vma2.vmNext }

section Regions

variable {splitAddr : b.Word} {before : List (Region b)}

/-- The loop passes the regions that end at the address or below. -/
theorem splitRegions_append (after : List (Region b))
    (below : ∀ rg ∈ before, ¬ splitAddr ≤ rg.rgStart ∧ ¬ splitAddr < rg.rgEnd) :
    splitRegions splitAddr (before ++ after) =
      (before ++ (splitRegions splitAddr after).1, (splitRegions splitAddr after).2) := by
  induction before with
  | nil => rfl
  | cons rg before ih =>
      obtain ⟨⟨start, stop⟩, later⟩ := List.forall_mem_cons.mp below
      rw [List.cons_append, splitRegions, if_neg start, if_neg stop, ih later]
      rfl

/-- The region that the loop cuts in two has others behind it. -/
def CutsAmid (splitAddr : b.Word) : List (Region b) → Prop
  | [] => False
  | rg :: rest =>
      if splitAddr ≤ rg.rgStart then False
      else if splitAddr < rg.rgEnd then rest ≠ []
      else CutsAmid splitAddr rest

theorem cutsAmid_append (after : List (Region b))
    (below : ∀ rg ∈ before, ¬ splitAddr ≤ rg.rgStart ∧ ¬ splitAddr < rg.rgEnd) :
    CutsAmid splitAddr (before ++ after) ↔ CutsAmid splitAddr after := by
  induction before with
  | nil => rfl
  | cons rg before ih =>
      obtain ⟨⟨start, stop⟩, later⟩ := List.forall_mem_cons.mp below
      rw [List.cons_append, CutsAmid, if_neg start, if_neg stop]
      exact ih later

end Regions

namespace MmHeap

def vmNext (h : MmHeap b M) (p : Nat) : Option Nat := (h.area p).vmNext

def rgNext (h : MmHeap b M) (q : Nat) : Option Nat := (h.rg q).rgNext

/-- The bounds of the region at `q`. -/
def region (h : MmHeap b M) (q : Nat) : Region b := ⟨(h.rg q).rgStart, (h.rg q).rgEnd⟩

/-- A store to the area at `p`. -/
def setArea (h : MmHeap b M) (p : Nat) (vma : VmAreaStruct b M) : MmHeap b M :=
  { h with area := Function.update h.area p vma }

/-- A store to the region at `q`. -/
def setRg (h : MmHeap b M) (q : Nat) (rg : VmRg b) : MmHeap b M :=
  { h with rg := Function.update h.rg q rg }

/-- The loops over a list of regions, to the first that meets `stop`. A list of the regions there
are ends before the fuel does. -/
def findRg (h : MmHeap b M) (stop : Nat → Bool) (head : Option Nat) :
    Option (Option Nat × Option Nat) :=
  search h.rgNext stop (h.freshRg + 1) none head

/-- Two areas with the one that starts first in front. -/
def byStart (h : MmHeap b M) (vma1 vma2 : Nat) : Nat × Nat :=
  if (h.area vma2).vmStart < (h.area vma1).vmStart then (vma2, vma1) else (vma1, vma2)

/-- "Merge free region lists" of `merge_vm_areas` -/
def mergeRgs (h : MmHeap b M) (vma1 vma2 : Nat) : Option (MmHeap b M) :=
  match (h.area vma1).vmFreergList with
  | some head =>
      match h.findRg (fun rg => (h.rgNext rg).isNone) (some head) with
      | some (_, some lastRg) =>
          some (h.setRg lastRg { h.rg lastRg with rgNext := (h.area vma2).vmFreergList })
      | _ => none
  | none =>
      some (h.setArea vma1 { h.area vma1 with vmFreergList := (h.area vma2).vmFreergList })

/-- `merge_vm_areas` -/
def mergeVmAreas (h : MmHeap b M) (vma1 vma2 : Nat) : Option (MmHeap b M × Int) :=
  if (h.area vma1).vmEnd ≠ (h.area vma2).vmStart ∧
      (h.area vma2).vmEnd ≠ (h.area vma1).vmStart then some (h, -1)
  else
    let (vma1, vma2) := h.byStart vma1 vma2
    let h := h.setArea vma1 { h.area vma1 with
      vmEnd := (h.area vma2).vmEnd
      sbrk := if (h.area vma2).sbrk < (h.area vma1).sbrk then (h.area vma1).sbrk
        else (h.area vma2).sbrk }
    (h.mergeRgs vma1 vma2).map fun h =>
      let h := h.setArea vma1 { h.area vma1 with vmNext := (h.area vma2).vmNext }
      (h.setArea vma2 { h.area vma2 with vmFreergList := none }, 0)

/-- "Move this region to new VMA": `rg` and what follows it. -/
def moveRgs (h : MmHeap b M) (vma newVma : Nat) (prevRg : Option Nat) (rg : Nat) : MmHeap b M :=
  let h := match prevRg with
    | none => h.setArea vma { h.area vma with vmFreergList := none }
    | some prevRg => h.setRg prevRg { h.rg prevRg with rgNext := none }
  h.setArea newVma { h.area newVma with vmFreergList := some rg }

/-- "Region spans the split, need to split it", with what follows it left to both parts. -/
def cutRg (h : MmHeap b M) (newVma rg : Nat) (splitAddr : b.Word) : MmHeap b M :=
  let newRg := h.freshRg
  let h := { h.setRg newRg { h.rg rg with rgStart := splitAddr } with freshRg := newRg + 1 }
  let h := h.setRg rg { h.rg rg with rgEnd := splitAddr }
  h.setArea newVma { h.area newVma with vmFreergList := some newRg }

/-- The loop of `split_vm_area` over the free regions, where `malloc` may refuse a new one. -/
def splitRgs (h : MmHeap b M) (granted : Bool) (vma newVma : Nat) (splitAddr : b.Word) :
    Option (MmHeap b M) :=
  match h.findRg (fun rg => splitAddr ≤ (h.rg rg).rgStart || splitAddr < (h.rg rg).rgEnd)
      (h.area vma).vmFreergList with
  | none => none
  | some (_, none) => some h
  | some (prevRg, some rg) =>
      if splitAddr ≤ (h.rg rg).rgStart then some (h.moveRgs vma newVma prevRg rg)
      else if granted then some (h.cutRg newVma rg splitAddr)
      else some h

/-- `split_vm_area`, where `malloc` may refuse the new area or a new region. -/
def splitVmArea (h : MmHeap b M) (grantedVma grantedRg : Bool) (vma : Nat) (splitAddr : b.Word) :
    Option (MmHeap b M × Int) :=
  let old := h.area vma
  if splitAddr ≤ old.vmStart ∨ old.vmEnd ≤ splitAddr then some (h, -1)
  else if !grantedVma then some (h, -1)
  else
    let newVma := h.freshArea
    let h := { h.setArea newVma { old with
      vmId := old.vmId + 1
      vmStart := splitAddr
      sbrk := if splitAddr < old.sbrk then old.sbrk else splitAddr
      vmFreergList := none } with freshArea := newVma + 1 }
    let h := h.setArea vma { old with
      vmEnd := splitAddr
      sbrk := if splitAddr < old.sbrk then splitAddr else old.sbrk
      vmNext := some newVma }
    (h.splitRgs grantedRg vma newVma splitAddr).map fun h => (h, 0)

section Stores

variable (h : MmHeap b M) (p q : Nat)

@[simp] theorem area_setArea_self (vma : VmAreaStruct b M) : (h.setArea p vma).area p = vma :=
  Function.update_self ..

theorem area_setArea_of_ne {p q : Nat} (other : q ≠ p) (vma : VmAreaStruct b M) :
    (h.setArea p vma).area q = h.area q := Function.update_of_ne other ..

@[simp] theorem rgNext_setRg (rg : VmRg b) :
    (h.setRg q rg).rgNext = Function.update h.rgNext q rg.rgNext := by
  funext r
  exact Function.apply_update (fun _ => VmRg.rgNext) h.rg q rg r

@[simp] theorem region_setRg (rg : VmRg b) :
    (h.setRg q rg).region = Function.update h.region q ⟨rg.rgStart, rg.rgEnd⟩ := by
  funext r
  exact Function.apply_update (fun _ rg => Region.mk rg.rgStart rg.rgEnd) h.rg q rg r

end Stores

/-- The free regions of the area at `p` are those at `rs`, nodes that have been allocated. -/
structure FreeRgs (h : MmHeap b M) (p : Nat) (rs : List Nat) : Prop where
  path : Path h.rgNext (h.area p).vmFreergList rs none
  bound : ∀ q ∈ rs, q < h.freshRg

theorem FreeRgs.unique {h : MmHeap b M} {p : Nat} {rs rs' : List Nat} (list : h.FreeRgs p rs)
    (list' : h.FreeRgs p rs') : rs = rs' := list.path.unique list'.path

/-- Every list of regions ends before the fuel does. -/
theorem FreeRgs.length_lt {h : MmHeap b M} {p : Nat} {rs : List Nat} (list : h.FreeRgs p rs) :
    rs.length < h.freshRg + 1 := Nat.lt_succ_of_le (list.path.length_le list.bound)

/-- A loop over the regions of an area ends at the first that meets the condition. -/
theorem FreeRgs.findRg {h : MmHeap b M} {p : Nat} {rs : List Nat} (list : h.FreeRgs p rs)
    (stop : Nat → Bool) :
    ∃ before found after, rs = before ++ after ∧ after.head? = found ∧
      (∀ q ∈ before, stop q = false) ∧ (∀ q, found = some q → stop q = true) ∧
        h.findRg stop (h.area p).vmFreergList = some (before.getLast?, found) := by
  have spec := @search_spec _ h.rgNext _ _ stop _ none list.path list.length_lt
  simp only [Option.or_none] at spec
  exact spec

theorem FreeRgs.findRg_last {h : MmHeap b M} {p lastRg : Nat} {rs : List Nat}
    (list : h.FreeRgs p (rs ++ [lastRg])) :
    ∃ before, h.findRg (fun rg => (h.rgNext rg).isNone) (h.area p).vmFreergList =
      some (before, some lastRg) :=
  search_last list.path (by simpa only [List.length_append, List.length_singleton] using list.length_lt)

/-- The area at `p` with the values of its free regions. -/
def vmArea (h : MmHeap b M) (p : Nat) (rs : List Nat) : VmArea b where
  vmId := (h.area p).vmId
  vmStart := (h.area p).vmStart
  vmEnd := (h.area p).vmEnd
  sbrk := (h.area p).sbrk
  vmMm := (h.area p).vmMm.isSome
  vmFreergList := rs.map h.region
  vmNext := (h.area p).vmNext

/-! ## Merging -/

/-- What `merge_vm_areas` makes of two areas, of which `vma1` starts first and has the free regions
`rs`. -/
structure MergedAt (h t : MmHeap b M) (vma1 vma2 : Nat) (rs : List Nat) : Prop where
  first : t.area vma1 = (h.area vma1).merge (h.area vma2)
  second : t.area vma2 = { h.area vma2 with vmFreergList := none }
  others : ∀ p, p ≠ vma1 → p ≠ vma2 → t.area p = h.area p
  rgNext : t.rgNext = continued h.rgNext rs (h.area vma2).vmFreergList
  region : t.region = h.region
  freshArea : t.freshArea = h.freshArea
  freshRg : t.freshRg = h.freshRg

section Merge

variable {h t : MmHeap b M} {vma1 vma2 : Nat} {rs : List Nat}

theorem mergeRgs_spec (list : h.FreeRgs vma1 rs) (vma2 : Nat) :
    ∃ t, h.mergeRgs vma1 vma2 = some t ∧
      t.area = Function.update h.area vma1 { h.area vma1 with
        vmFreergList := (h.area vma1).vmFreergList.or (h.area vma2).vmFreergList } ∧
      t.rgNext = continued h.rgNext rs (h.area vma2).vmFreergList ∧ t.region = h.region ∧
      t.freshArea = h.freshArea ∧ t.freshRg = h.freshRg := by
  have path := list.path
  rw [mergeRgs]
  cases head : (h.area vma1).vmFreergList with
  | none =>
      rw [head] at path
      obtain rfl : rs = [] := by
        cases rs with
        | nil => rfl
        | cons q rs => cases path.1
      exact ⟨_, rfl, by rw [Option.none_or]; rfl, rfl, rfl, rfl, rfl⟩
  | some first =>
      rw [head] at path
      obtain rfl | ⟨rs, lastRg, rfl⟩ := List.eq_nil_or_concat' rs
      · cases path
      obtain ⟨before, found⟩ := list.findRg_last
      rw [head] at found
      simp only [found]
      refine ⟨_, rfl, ?_, ?_, ?_, rfl, rfl⟩
      · rw [Option.some_or, ← head, Function.update_eq_self]
        rfl
      · rw [rgNext_setRg, continued_concat]
      · rw [region_setRg]
        exact Function.update_eq_self ..

/-- Adjacent areas are merged, where the regions of the one that starts first end. -/
theorem mergeVmAreas_spec (other : vma1 ≠ vma2)
    (adjacent : (h.area vma1).vmEnd = (h.area vma2).vmStart ∨
      (h.area vma2).vmEnd = (h.area vma1).vmStart)
    (list : h.FreeRgs (h.byStart vma1 vma2).1 rs) :
    ∃ t, h.mergeVmAreas vma1 vma2 = some (t, 0) ∧
      MergedAt h t (h.byStart vma1 vma2).1 (h.byStart vma1 vma2).2 rs := by
  have touch : ¬ ((h.area vma1).vmEnd ≠ (h.area vma2).vmStart ∧
      (h.area vma2).vmEnd ≠ (h.area vma1).vmStart) := by tauto
  have distinct : (h.byStart vma1 vma2).1 ≠ (h.byStart vma1 vma2).2 := by
    rw [byStart]
    split
    · exact other.symm
    · exact other
  rw [mergeVmAreas, if_neg touch]
  generalize h.byStart vma1 vma2 = areas at distinct list ⊢
  obtain ⟨lo, hi⟩ := areas
  change h.FreeRgs lo rs at list
  change lo ≠ hi at distinct
  let grown := h.setArea lo { h.area lo with
    vmEnd := (h.area hi).vmEnd
    sbrk := if (h.area hi).sbrk < (h.area lo).sbrk then (h.area lo).sbrk else (h.area hi).sbrk }
  have here : grown.area lo = _ := area_setArea_self ..
  have there : grown.area hi = h.area hi := area_setArea_of_ne h distinct.symm _
  have list' : grown.FreeRgs lo rs := by
    refine ⟨?_, list.bound⟩
    rw [here]
    exact list.path
  obtain ⟨joined, done, area, rgNext, region, freshArea, freshRg⟩ := mergeRgs_spec list' hi
  rw [here, there] at area
  have joinedHere := congrFun area lo
  have joinedThere := congrFun area hi
  rw [Function.update_self] at joinedHere
  rw [Function.update_of_ne distinct.symm, there] at joinedThere
  refine ⟨_, (congrArg (Option.map _) done).trans rfl, ?_, ?_, ?_, ?_, region, freshArea, freshRg⟩
  · rw [area_setArea_of_ne _ distinct, area_setArea_self, joinedHere, joinedThere]
    rfl
  · rw [area_setArea_self, area_setArea_of_ne _ distinct.symm, joinedThere]
  · intro p first second
    rw [area_setArea_of_ne _ second, area_setArea_of_ne _ first, area, Function.update_of_ne first]
    exact area_setArea_of_ne h first _
  · rw [there] at rgNext
    exact rgNext

theorem MergedAt.vmNext (merge : MergedAt h t vma1 vma2 rs) :
    t.vmNext = Function.update h.vmNext vma1 (h.vmNext vma2) := by
  funext p
  by_cases first : p = vma1
  · rw [first, Function.update_self, MmHeap.vmNext, merge.first]
    rfl
  · rw [Function.update_of_ne first, MmHeap.vmNext]
    by_cases second : p = vma2
    · rw [second, merge.second]
      rfl
    · rw [merge.others p first second]
      rfl

/-- The regions of both, where they share none. -/
theorem MergedAt.append (merge : MergedAt h t vma1 vma2 rs) (list : h.FreeRgs vma1 rs)
    {rs' : List Nat} (list' : h.FreeRgs vma2 rs') (apart : rs.Disjoint rs') :
    t.FreeRgs vma1 (rs ++ rs') := by
  refine ⟨?_, fun q member => ?_⟩
  · rw [merge.first, merge.rgNext]
    exact list.path.append list'.path apart
  · rw [merge.freshRg]
    exact (List.mem_append.mp member).elim (list.bound q) (list'.bound q)

theorem MergedAt.cleared (merge : MergedAt h t vma1 vma2 rs) : t.FreeRgs vma2 [] :=
  ⟨congrArg VmAreaStruct.vmFreergList merge.second, by simp⟩

/-- Another area keeps its regions exactly where it shares none with the area that starts first, or
those of the second are none. -/
theorem MergedAt.kept_iff (merge : MergedAt h t vma1 vma2 rs) {p : Nat} (first : p ≠ vma1)
    (second : p ≠ vma2) (list : h.FreeRgs vma1 rs) {rs' : List Nat} (list' : h.FreeRgs p rs') :
    t.FreeRgs p rs' ↔ rs.Disjoint rs' ∨ (h.area vma2).vmFreergList = none := by
  have bound : ∀ q ∈ rs', q < t.freshRg := fun q member => merge.freshRg ▸ list'.bound q member
  constructor
  · intro after
    refine or_iff_not_imp_right.mpr fun regions q member member' => ?_
    have path := after.path
    rw [merge.others p first second, merge.rgNext] at path
    exact regions (list.path.link_of_continued list'.path member member' path)
  · intro kept
    refine ⟨?_, bound⟩
    rw [merge.others p first second, merge.rgNext]
    obtain apart | none := kept
    · exact list'.path.continued_of_disjoint apart
    · rw [none, list.path.continued_none]
      exact list'.path

end Merge

/-! ## The values of the regions -/

/-- The map has the areas `ps` of the heap with the values of their free regions, of which no two
areas share one. -/
structure Shows (h : MmHeap b M) (ps : List Nat) (rgs : Nat → List Nat) (s : VmMap b) : Prop where
  freeRgs : ∀ p ∈ ps, h.FreeRgs p (rgs p)
  area : ∀ p ∈ ps, s.area p = h.vmArea p (rgs p)
  apart : ∀ p ∈ ps, ∀ q ∈ ps, p ≠ q → (rgs p).Disjoint (rgs q)
  fresh : s.fresh = h.freshArea

section Values

variable {h t : MmHeap b M} {s : VmMap b} {ps : List Nat} {rgs : Nat → List Nat} {vma1 vma2 : Nat}

theorem Shows.merged (shows : h.Shows ps rgs s) {lo hi : Nat} (member : lo ∈ ps)
    (member' : hi ∈ ps) (other : lo ≠ hi) (merge : MergedAt h t lo hi (rgs lo)) {u w : VmMap b}
    (stored : u = s.setArea lo ((s.area lo).merge (s.area hi)))
    (cleared : w = u.setArea hi { u.area hi with vmFreergList := [] }) :
    t.Shows ps (Function.update (Function.update rgs lo (rgs lo ++ rgs hi)) hi []) w := by
  have apart := shows.apart lo member hi member' other
  have both := merge.append (shows.freeRgs lo member) (shows.freeRgs hi member') apart
  have upper : u.area hi = s.area hi := stored ▸ VmMap.area_setArea_of_ne s _ other.symm
  rw [upper] at cleared
  subst stored cleared
  refine ⟨fun p here => ?_, fun p here => ?_, fun p here q there different => ?_, ?_⟩
  · by_cases second : p = hi
    · rw [second, Function.update_self]
      exact merge.cleared
    rw [Function.update_of_ne second]
    by_cases first : p = lo
    · rw [first, Function.update_self]
      exact both
    · rw [Function.update_of_ne first]
      exact (merge.kept_iff first second (shows.freeRgs lo member) (shows.freeRgs p here)).mpr
        (.inl (shows.apart lo member p here (Ne.symm first)))
  · by_cases second : p = hi
    · rw [second, Function.update_self, VmMap.area_setArea_self, shows.area hi member', vmArea,
        vmArea, merge.second]
      rfl
    rw [Function.update_of_ne second, VmMap.area_setArea_of_ne _ _ second]
    by_cases first : p = lo
    · rw [first, Function.update_self, VmMap.area_setArea_self, shows.area lo member,
        shows.area hi member', vmArea, vmArea, vmArea, merge.first, merge.region, List.map_append]
      rfl
    · rw [Function.update_of_ne first, VmMap.area_setArea_of_ne _ _ first, shows.area p here,
        vmArea, vmArea, merge.others p first second, merge.region]
  · -- the regions of both go to the first area, none to the second
    have joined : ∀ r ∈ ps, r ≠ lo → r ≠ hi → (rgs lo ++ rgs hi).Disjoint (rgs r) :=
      fun r inside first second => List.disjoint_append_left.mpr
        ⟨shows.apart lo member r inside first.symm, shows.apart hi member' r inside second.symm⟩
    by_cases second : p = hi
    · rw [second, Function.update_self]
      exact List.disjoint_nil_left _
    by_cases second' : q = hi
    · rw [second', Function.update_self]
      exact List.disjoint_nil_right _
    rw [Function.update_of_ne second, Function.update_of_ne second']
    by_cases first : p = lo
    · rw [first, Function.update_self, Function.update_of_ne (first ▸ different.symm)]
      exact joined q there (first ▸ different.symm) second'
    by_cases first' : q = lo
    · rw [first', Function.update_self, Function.update_of_ne first]
      exact (joined p here first second).symm
    · rw [Function.update_of_ne first, Function.update_of_ne first']
      exact shows.apart p here q there different
  · rw [merge.freshArea]
    exact shows.fresh

/-- On areas that share no region `merge_vm_areas` does to the nodes what it does to the values. -/
theorem Shows.mergeVmAreas (shows : h.Shows ps rgs s) (member : vma1 ∈ ps) (member' : vma2 ∈ ps)
    (other : vma1 ≠ vma2) :
    ∃ t rgs', h.mergeVmAreas vma1 vma2 = some (t, (s.mergeVmAreas vma1 vma2).2) ∧
      t.Shows ps rgs' (s.mergeVmAreas vma1 vma2).1 := by
  have areas : ∀ p ∈ ps, (s.area p).vmStart = (h.area p).vmStart ∧
      (s.area p).vmEnd = (h.area p).vmEnd := by
    intro p here
    rw [shows.area p here]
    exact ⟨rfl, rfl⟩
  obtain ⟨start, stop⟩ := areas vma1 member
  obtain ⟨start', stop'⟩ := areas vma2 member'
  have order : s.byStart vma1 vma2 = h.byStart vma1 vma2 := by
    rw [VmMap.byStart, byStart, start, start']
  by_cases adjacent : (h.area vma1).vmEnd = (h.area vma2).vmStart ∨
      (h.area vma2).vmEnd = (h.area vma1).vmStart
  · have touch : ¬ ((s.area vma1).vmEnd ≠ (s.area vma2).vmStart ∧
        (s.area vma2).vmEnd ≠ (s.area vma1).vmStart) := by
      rw [start, start', stop, stop']
      tauto
    have members : (h.byStart vma1 vma2).1 ∈ ps ∧ (h.byStart vma1 vma2).2 ∈ ps ∧
        (h.byStart vma1 vma2).1 ≠ (h.byStart vma1 vma2).2 := by
      rw [byStart]
      split
      · exact ⟨member', member, other.symm⟩
      · exact ⟨member, member', other⟩
    obtain ⟨t, done, merge⟩ := mergeVmAreas_spec other adjacent (shows.freeRgs _ members.1)
    rw [VmMap.mergeVmAreas, if_neg touch, order]
    generalize h.byStart vma1 vma2 = areas at members merge ⊢
    obtain ⟨lo, hi⟩ := areas
    obtain ⟨lower, upper, distinct⟩ := members
    exact ⟨t, _, done, shows.merged lower upper distinct merge rfl rfl⟩
  · have apart : (s.area vma1).vmEnd ≠ (s.area vma2).vmStart ∧
        (s.area vma2).vmEnd ≠ (s.area vma1).vmStart := by
      rw [start, start', stop, stop']
      tauto
    rw [VmMap.mergeVmAreas, if_pos apart, MmHeap.mergeVmAreas, if_pos (not_or.mp adjacent)]
    exact ⟨h, rgs, rfl, shows⟩

end Values

/-! ## Splitting -/

section Split

variable {h t : MmHeap b M} {vma newVma rg : Nat} {before after rs : List Nat} {splitAddr : b.Word}

/-- The areas but for the lists of two of them: in place of the regions `rs` of the one they have
`lower` and `upper`, perhaps with new regions among the latter. -/
structure Relisted (h t : MmHeap b M) (vma newVma : Nat) (rs lower upper : List Nat) : Prop where
  lowerRgs : t.FreeRgs vma lower
  upperRgs : t.FreeRgs newVma upper
  lower_subset : lower ⊆ rs
  upper_subset : ∀ q ∈ upper, q ∈ rs ∨ h.freshRg ≤ q
  kept : ∀ q, q ∉ rs → q < h.freshRg → t.rgNext q = h.rgNext q ∧ t.region q = h.region q
  freshRg : h.freshRg ≤ t.freshRg
  lists : ∀ p, t.area p = { h.area p with vmFreergList := (t.area p).vmFreergList }
  others : ∀ p, p ≠ vma → p ≠ newVma → t.area p = h.area p
  freshArea : t.freshArea = h.freshArea

theorem relisted (head head' : Option Nat) {lower upper : List Nat} (other : newVma ≠ vma)
    (area : t.area = Function.update h.area vma { h.area vma with vmFreergList := head })
    (freshArea : t.freshArea = h.freshArea) (path : Path t.rgNext head lower none)
    (path' : Path t.rgNext head' upper none) (bound : ∀ q ∈ lower, q < t.freshRg)
    (bound' : ∀ q ∈ upper, q < t.freshRg) (subset : lower ⊆ rs)
    (subset' : ∀ q ∈ upper, q ∈ rs ∨ h.freshRg ≤ q)
    (kept : ∀ q, q ∉ rs → q < h.freshRg → t.rgNext q = h.rgNext q ∧ t.region q = h.region q)
    (freshRg : h.freshRg ≤ t.freshRg) :
    Relisted h (t.setArea newVma { t.area newVma with vmFreergList := head' }) vma newVma rs lower
      upper := by
  have here : t.area vma = { h.area vma with vmFreergList := head } := by
    rw [area, Function.update_self]
  have away : ∀ p, p ≠ vma → t.area p = h.area p := fun p different => by
    rw [area, Function.update_of_ne different]
  refine ⟨⟨?_, bound⟩, ⟨?_, bound'⟩, subset, subset', kept, freshRg, fun p => ?_,
    fun p first second => ?_, freshArea⟩
  · rw [area_setArea_of_ne t other.symm, here]
    exact path
  · rw [area_setArea_self]
    exact path'
  · by_cases second : p = newVma
    · rw [second, area_setArea_self, away newVma other]
    rw [area_setArea_of_ne t second]
    by_cases first : p = vma
    · rw [first, here]
    · rw [away p first]
  · rw [area_setArea_of_ne t second, away p first]

theorem moveRgs_spec (list : h.FreeRgs vma (before ++ rg :: after)) (other : newVma ≠ vma) :
    Relisted h (h.moveRgs vma newVma before.getLast? rg) vma newVma (before ++ rg :: after) before
        (rg :: after) ∧
      (h.moveRgs vma newVma before.getLast? rg).region = h.region := by
  obtain ⟨front, back⟩ := list.path.cut
  have bound : ∀ q ∈ before, q < h.freshRg := fun q member =>
    list.bound q (List.mem_append_left _ member)
  have bound' : ∀ q ∈ rg :: after, q < h.freshRg := fun q member =>
    list.bound q (List.mem_append_right _ member)
  have subset := List.subset_append_left before (rg :: after)
  have subset' : ∀ q ∈ rg :: after, q ∈ before ++ rg :: after ∨ h.freshRg ≤ q := fun q member =>
    .inl (List.mem_append_right _ member)
  obtain rfl | ⟨before, prevRg, rfl⟩ := List.eq_nil_or_concat' before
  · exact ⟨relisted none (some rg) other rfl rfl front back bound bound' subset subset'
      (fun _ _ _ => ⟨rfl, rfl⟩) le_rfl, rfl⟩
  · rw [continued_concat] at front back
    rw [List.getLast?_concat]
    have start : (h.area vma).vmFreergList = (before ++ [prevRg]).head? := by
      cases before <;> exact list.path.1
    have bounds : (h.setRg prevRg { h.rg prevRg with rgNext := none }).region = h.region :=
      (region_setRg ..).trans (Function.update_eq_self ..)
    refine ⟨relisted (before ++ [prevRg]).head? (some rg) other ?_ rfl ?_ ?_ bound bound' subset
      subset' (fun q outside _ => ⟨?_, congrFun bounds q⟩) le_rfl, bounds⟩
    · rw [← start, Function.update_eq_self]
      rfl
    · rwa [rgNext_setRg]
    · rwa [rgNext_setRg]
    · rw [rgNext_setRg, Function.update_of_ne]
      rintro rfl
      exact outside (by simp)

/-- Both parts of the region go on with what followed it. -/
theorem cutRg_spec (list : h.FreeRgs vma (before ++ rg :: after)) (other : newVma ≠ vma)
    (splitAddr : b.Word) :
    Relisted h (h.cutRg newVma rg splitAddr) vma newVma (before ++ rg :: after)
        (before ++ rg :: after) (h.freshRg :: after) ∧
      (h.cutRg newVma rg splitAddr).region =
        Function.update (Function.update h.region h.freshRg ⟨splitAddr, (h.region rg).rgEnd⟩) rg
          ⟨(h.region rg).rgStart, splitAddr⟩ := by
  have known : rg ≠ h.freshRg := (list.bound rg (by simp)).ne
  have absent : h.freshRg ∉ before ++ rg :: after := fun member => (list.bound _ member).ne rfl
  -- the heap before the new area gets the new region
  let copied : MmHeap b M :=
    { h.setRg h.freshRg { h.rg rg with rgStart := splitAddr } with freshRg := h.freshRg + 1 }
  let cut := copied.setRg rg { copied.rg rg with rgEnd := splitAddr }
  have kept : copied.rg rg = h.rg rg := Function.update_of_ne known ..
  have copy : copied.rgNext = Function.update h.rgNext h.freshRg (h.rgNext rg) := rgNext_setRg ..
  have links : cut.rgNext = Function.update h.rgNext h.freshRg (h.rgNext rg) := by
    have same : (copied.rg rg).rgNext = copied.rgNext rg := rfl
    rw [rgNext_setRg, same, Function.update_eq_self, copy]
  have bounds : cut.region =
      Function.update (Function.update h.region h.freshRg ⟨splitAddr, (h.region rg).rgEnd⟩) rg
        ⟨(h.region rg).rgStart, splitAddr⟩ := by
    have here : cut.region = Function.update copied.region rg
        ⟨(copied.rg rg).rgStart, splitAddr⟩ := region_setRg ..
    rw [kept] at here
    exact here.trans (congrArg (Function.update · rg _) (region_setRg ..))
  have older : ∀ q ∈ before ++ rg :: after, q < cut.freshRg := fun q member =>
    Nat.lt_succ_of_lt (list.bound q member)
  have behind : ∀ q ∈ after, q ∈ before ++ rg :: after := fun q member =>
    List.mem_append_right _ (List.mem_cons_of_mem _ member)
  refine ⟨relisted (t := cut) (h.area vma).vmFreergList (some h.freshRg) other ?_ rfl ?_ ?_ older
    ?_ (List.Subset.refl _) ?_ (fun q outside small => ⟨?_, ?_⟩) (Nat.le_succ _), bounds⟩
  · exact (Function.update_eq_self ..).symm
  · rw [links]
    exact list.path.update absent _
  · rw [links]
    refine ⟨rfl, ?_⟩
    rw [Function.update_self]
    exact (path_split.mp list.path).2.update (fun member => absent (behind _ member)) _
  · exact List.forall_mem_cons.mpr
      ⟨Nat.lt_succ_self _, fun q member => older q (behind q member)⟩
  · exact List.forall_mem_cons.mpr ⟨.inr le_rfl, fun q member => .inl (behind q member)⟩
  · rw [links, Function.update_of_ne small.ne]
  · have other : q ≠ rg := fun same => outside (same ▸ mem_middle.mpr (.inl rfl))
    exact (congrFun bounds q).trans
      ((Function.update_of_ne other ..).trans (Function.update_of_ne small.ne ..))

/-- The loop parts the regions as their values say. The two lists have regions in common exactly
where the one that is cut in two has others behind it. -/
theorem splitRgs_spec (list : h.FreeRgs vma rs) (other : newVma ≠ vma)
    (empty : (h.area newVma).vmFreergList = none) (splitAddr : b.Word) :
    ∃ t lower upper, h.splitRgs true vma newVma splitAddr = some t ∧
      Relisted h t vma newVma rs lower upper ∧
      (lower.map t.region, upper.map t.region) = splitRegions splitAddr (rs.map h.region) ∧
      (lower.Disjoint upper ↔ ¬ CutsAmid splitAddr (rs.map h.region)) := by
  let stop : Nat → Bool := fun rg => splitAddr ≤ (h.rg rg).rgStart || splitAddr < (h.rg rg).rgEnd
  obtain ⟨before, found, after, rfl, first, passed, met, search⟩ := list.findRg stop
  have below : ∀ rg ∈ before.map h.region, ¬ splitAddr ≤ rg.rgStart ∧ ¬ splitAddr < rg.rgEnd := by
    rw [List.forall_mem_map]
    intro q member
    simpa [stop, region] using passed q member
  rw [List.map_append, splitRegions_append _ below, cutsAmid_append _ below]
  cases found with
  | none =>
      obtain rfl : after = [] := List.head?_eq_none_iff.mp first
      rw [List.append_nil] at list
      have relisted : Relisted h h vma newVma before before [] :=
        ⟨list, ⟨empty, by simp⟩, List.Subset.refl _, by simp, fun _ _ _ => ⟨rfl, rfl⟩, le_rfl,
          fun _ => rfl, fun _ _ _ => rfl, rfl⟩
      refine ⟨h, before, [], ?_, ?_, ?_, ?_⟩
      · simp only [splitRgs, search, stop]
      · rw [List.append_nil]
        exact relisted
      · simp [splitRegions]
      · simp [CutsAmid]
  | some rg =>
      obtain ⟨after, rfl⟩ := List.head?_eq_some_iff.mp first
      rw [List.map_cons, splitRegions, CutsAmid]
      by_cases above : splitAddr ≤ (h.region rg).rgStart
      · obtain ⟨relisted, region⟩ := moveRgs_spec list other
        refine ⟨_, before, rg :: after, ?_, relisted, ?_, ?_⟩
        · simp only [splitRgs, search, stop]
          exact if_pos above
        · rw [region, if_pos above]
          simp
        · rw [if_pos above]
          exact iff_of_true (List.disjoint_of_nodup_append list.path.nodup) not_false
      · have stops : splitAddr ≤ (h.region rg).rgStart ∨ splitAddr < (h.region rg).rgEnd := by
          simpa [stop, region] using met rg rfl
        have beyond := stops.resolve_left above
        have fresh : h.freshRg ∉ before ++ rg :: after := fun member => (list.bound _ member).ne rfl
        obtain ⟨relisted, region⟩ := cutRg_spec list other splitAddr
        refine ⟨_, before ++ rg :: after, h.freshRg :: after, ?_, relisted, ?_, ?_⟩
        · simp only [splitRgs, search, stop]
          exact if_neg above
        · rw [if_neg above, if_pos beyond]
          have once := list.path.nodup
          rw [List.nodup_middle, List.nodup_cons] at once
          have kept : ∀ q ∈ before ++ after, (h.cutRg newVma rg splitAddr).region q = h.region q := by
            intro q member
            have other : q ≠ rg := fun same => once.1 (same ▸ member)
            have old : q ≠ h.freshRg := fun same => fresh (same ▸ mem_middle.mpr (.inr member))
            rw [region, Function.update_of_ne other, Function.update_of_ne old]
          have front := List.map_congr_left fun q member => kept q (List.mem_append_left after member)
          have back := List.map_congr_left fun q member => kept q (List.mem_append_right before member)
          have copy : h.freshRg ≠ rg := fun same => fresh (same ▸ mem_middle.mpr (.inl rfl))
          rw [List.map_append, List.map_cons, List.map_cons, front, back, region,
            Function.update_self, Function.update_of_ne copy, Function.update_self]
        · rw [if_neg above, if_pos beyond, ne_eq, List.map_eq_nil_iff, not_not]
          constructor
          · intro apart
            refine List.eq_nil_iff_forall_not_mem.mpr fun q member => ?_
            exact apart (List.mem_append_right _ (List.mem_cons_of_mem _ member))
              (List.mem_cons_of_mem _ member)
          · rintro rfl
            exact List.disjoint_singleton.mpr fresh

/-- What `split_vm_area` makes of the area at `vma` with the free regions `rs`, and of areas that
share no region with it. -/
structure SplitInto (h t : MmHeap b M) (vma : Nat) (splitAddr : b.Word) (rs lower upper : List Nat) :
    Prop where
  lowerRgs : t.FreeRgs vma lower
  upperRgs : t.FreeRgs h.freshArea upper
  lowerArea : t.vmArea vma lower = (h.vmArea vma rs).lower splitAddr h.freshArea
  upperArea : t.vmArea h.freshArea upper = (h.vmArea vma rs).upper splitAddr
  areas : ∀ p, p ≠ vma → p ≠ h.freshArea → t.area p = h.area p
  others : ∀ p rs', p ≠ vma → p ≠ h.freshArea → h.FreeRgs p rs' → rs.Disjoint rs' →
    t.FreeRgs p rs' ∧ t.vmArea p rs' = h.vmArea p rs' ∧ lower.Disjoint rs' ∧ upper.Disjoint rs'
  freshArea : t.freshArea = h.freshArea + 1

/-- An address strictly inside splits an area as the values of its free regions say. -/
theorem splitVmArea_spec (list : h.FreeRgs vma rs) (known : vma < h.freshArea)
    (low : (h.area vma).vmStart < splitAddr) (high : splitAddr < (h.area vma).vmEnd) :
    ∃ t lower upper, h.splitVmArea true true vma splitAddr = some (t, 0) ∧
      SplitInto h t vma splitAddr rs lower upper ∧
      (lower.Disjoint upper ↔ ¬ CutsAmid splitAddr (rs.map h.region)) := by
  have within : ¬ (splitAddr ≤ (h.area vma).vmStart ∨ (h.area vma).vmEnd ≤ splitAddr) := by
    rw [not_or, BitVec.not_le, BitVec.not_le]
    exact ⟨low, high⟩
  have other : h.freshArea ≠ vma := known.ne'
  -- the areas before the loop over the regions
  let upper : VmAreaStruct b M := { h.area vma with
    vmId := (h.area vma).vmId + 1
    vmStart := splitAddr
    sbrk := if splitAddr < (h.area vma).sbrk then (h.area vma).sbrk else splitAddr
    vmFreergList := none }
  let lower : VmAreaStruct b M := { h.area vma with
    vmEnd := splitAddr
    sbrk := if splitAddr < (h.area vma).sbrk then splitAddr else (h.area vma).sbrk
    vmNext := some h.freshArea }
  let parted : MmHeap b M :=
    { h.setArea h.freshArea upper with freshArea := h.freshArea + 1 }.setArea vma lower
  have here : parted.area vma = lower := area_setArea_self ..
  have there : parted.area h.freshArea = upper :=
    (area_setArea_of_ne _ other _).trans (area_setArea_self ..)
  have away : ∀ p, p ≠ vma → p ≠ h.freshArea → parted.area p = h.area p := fun p first second =>
    (area_setArea_of_ne _ first _).trans (area_setArea_of_ne _ second _)
  have list' : parted.FreeRgs vma rs := ⟨by rw [here]; exact list.path, list.bound⟩
  obtain ⟨t, below, above, done, relisted, regions, shared⟩ :=
    splitRgs_spec list' other (by rw [there]) splitAddr
  obtain ⟨stay, move⟩ := Prod.mk.inj regions
  refine ⟨t, below, above, ?_, ?_, shared⟩
  · rw [splitVmArea]
    simp only [if_neg within]
    exact congrArg (Option.map _) done
  · have areas : ∀ p, p ≠ vma → p ≠ h.freshArea → t.area p = h.area p := fun p first second =>
      (relisted.others p first second).trans (away p first second)
    refine ⟨relisted.lowerRgs, relisted.upperRgs, ?_, ?_, areas, ?_, relisted.freshArea⟩
    · rw [vmArea, relisted.lists, here, stay]
      rfl
    · rw [vmArea, relisted.lists, there, move]
      rfl
    · intro p rs' first second old apart
      have kept : ∀ q ∈ rs', t.rgNext q = h.rgNext q ∧ t.region q = h.region q := fun q member =>
        relisted.kept q (fun shared => apart shared member) (old.bound q member)
      have area := areas p first second
      refine ⟨⟨?_, fun q member => ?_⟩, ?_, fun q member => ?_, fun q member inside => ?_⟩
      · rw [area]
        exact old.path.congr fun q member => (kept q member).1
      · exact (old.bound q member).trans_le relisted.freshRg
      · rw [vmArea, vmArea, area, List.map_congr_left fun q member => (kept q member).2]
      · exact apart (relisted.lower_subset member)
      · obtain mine | new := relisted.upper_subset q member
        · exact apart mine inside
        · exact absurd (old.bound q inside) (Nat.not_lt.mpr new)

/-- Where no region is cut in two that has others behind it, `split_vm_area` does to the nodes what
it does to the values, and again no two areas share a region. -/
theorem Shows.splitVmArea {s : VmMap b} {ps : List Nat} {rgs : Nat → List Nat}
    (shows : h.Shows ps rgs s) (member : vma ∈ ps) (bound : ∀ p ∈ ps, p < h.freshArea)
    (low : (s.area vma).vmStart < splitAddr) (high : splitAddr < (s.area vma).vmEnd)
    (last : ¬ CutsAmid splitAddr (s.area vma).vmFreergList) :
    ∃ t rgs', h.splitVmArea true true vma splitAddr = some (t, (s.splitVmArea vma splitAddr).2) ∧
      t.Shows (h.freshArea :: ps) rgs' (s.splitVmArea vma splitAddr).1 := by
  have within : ¬ (splitAddr ≤ (s.area vma).vmStart ∨ (s.area vma).vmEnd ≤ splitAddr) := by
    rw [not_or, BitVec.not_le, BitVec.not_le]
    exact ⟨low, high⟩
  rw [VmMap.splitVmArea, if_neg within, shows.area vma member, shows.fresh]
  rw [shows.area vma member] at low high last
  obtain ⟨t, below, above, done, split, shared⟩ :=
    splitVmArea_spec (shows.freeRgs vma member) (bound vma member) low high
  have apart : below.Disjoint above := shared.mpr last
  have new : h.freshArea ∉ ps := fun inside => (bound _ inside).ne rfl
  have others : ∀ p ∈ ps, p ≠ vma → t.FreeRgs p (rgs p) ∧
      t.vmArea p (rgs p) = h.vmArea p (rgs p) ∧ below.Disjoint (rgs p) ∧ above.Disjoint (rgs p) :=
    fun p here other => split.others p (rgs p) other (bound p here).ne (shows.freeRgs p here)
      (shows.apart vma member p here other.symm)
  let rgs' := Function.update (Function.update rgs vma below) h.freshArea above
  have atNew : rgs' h.freshArea = above := Function.update_self ..
  have atOld : ∀ p ∈ ps, rgs' p = if p = vma then below else rgs p := by
    intro p here
    have old : p ≠ h.freshArea := (bound p here).ne
    simp only [rgs', Function.update_of_ne old, Function.update_apply]
  refine ⟨t, rgs', done, ⟨?_, ?_, ?_, ?_⟩⟩
  · refine List.forall_mem_cons.mpr ⟨atNew ▸ split.upperRgs, fun p here => ?_⟩
    rw [atOld p here]
    split
    next same => exact same ▸ split.lowerRgs
    next other => exact (others p here other).1
  · refine List.forall_mem_cons.mpr ⟨?_, fun p here => ?_⟩
    · rw [atNew, split.upperArea]
      exact (VmMap.area_setArea_of_ne _ _ (bound vma member).ne').trans (VmMap.area_setArea_self ..)
    · rw [atOld p here]
      split
      next same =>
        rw [same, split.lowerArea]
        exact VmMap.area_setArea_self ..
      next other =>
        rw [(others p here other).2.1, ← shows.area p here]
        exact (VmMap.area_setArea_of_ne _ _ other).trans
          (VmMap.area_setArea_of_ne _ _ (bound p here).ne)
  · have withNew : ∀ p ∈ ps, above.Disjoint (rgs' p) := by
      intro p here
      rw [atOld p here]
      split
      next => exact apart.symm
      next other => exact (others p here other).2.2.2
    refine List.forall_mem_cons.mpr ⟨?_, fun p here => ?_⟩
    · refine List.forall_mem_cons.mpr ⟨fun same => absurd rfl same, fun q there _ => ?_⟩
      rw [atNew]
      exact withNew q there
    · refine List.forall_mem_cons.mpr ⟨fun _ => ?_, fun q there different => ?_⟩
      · rw [atNew]
        exact (withNew p here).symm
      · rw [atOld p here, atOld q there]
        split
        next first =>
          rw [if_neg (first ▸ different.symm)]
          exact (others q there (first ▸ different.symm)).2.2.1
        next first =>
          split
          next => exact (others p here first).2.2.1.symm
          next => exact shows.apart p here q there different
  · exact split.freshArea.symm

end Split

end MmHeap

end SimpleOs.Mem
