import SimpleOs.Mem.VmPartition
import SimpleOs.Mem.VmRegions

/-!
# What a merge unites

`merge_vm_areas` gives the area that starts first the end and the link of the other, whatever
lies between the two on the list, or before them, and links its last free region to those of the
other. After a split in the middle of the free regions both areas have the same last region, and
the link leads from it back to a region before it.
-/

namespace SimpleOs.Mem

open LinkedList (Path path_split not_path_of_loop)

variable {b : Build} {M : Type}

/-- The byte at the address lies in the range of the area. -/
def VmAreaStruct.Covers (vma : VmAreaStruct b M) (addr : Nat) : Prop :=
  vma.vmStart.toNat ≤ addr ∧ addr < vma.vmEnd.toNat

/-- The bytes from where the first area starts to where the second ends are those of the two. -/
def VmAreaStruct.Joins (vma1 vma2 : VmAreaStruct b M) : Prop :=
  if vma1.vmEnd = vma2.vmStart then vma2.vmStart ≤ vma2.vmEnd ∨ vma1.vmStart = vma2.vmStart
  else vma1.vmEnd ≤ vma1.vmStart

instance (vma1 vma2 : VmAreaStruct b M) : Decidable (vma1.Joins vma2) :=
  inferInstanceAs (Decidable (if vma1.vmEnd = vma2.vmStart then _ ∨ _ else _ ≤ _))

/-- Adjacent areas of which the first starts first are joined where the first is the lower one,
or is empty. -/
theorem VmAreaStruct.covers_merge_iff {vma1 vma2 : VmAreaStruct b M}
    (order : vma1.vmStart ≤ vma2.vmStart)
    (adjacent : vma1.vmEnd = vma2.vmStart ∨ vma2.vmEnd = vma1.vmStart) :
    (∀ addr, (vma1.merge vma2).Covers addr ↔ vma1.Covers addr ∨ vma2.Covers addr) ↔
      vma1.Joins vma2 := by
  have start : vma1.vmStart.toNat ≤ vma2.vmStart.toNat := order
  have unfolded : (∀ addr, (vma1.merge vma2).Covers addr ↔ vma1.Covers addr ∨ vma2.Covers addr) ↔
      ∀ addr, vma1.vmStart.toNat ≤ addr ∧ addr < vma2.vmEnd.toNat ↔
        (vma1.vmStart.toNat ≤ addr ∧ addr < vma1.vmEnd.toNat) ∨
          (vma2.vmStart.toNat ≤ addr ∧ addr < vma2.vmEnd.toNat) := Iff.rfl
  rw [unfolded, Joins]
  split
  next meet =>
    rw [meet, BitVec.le_def, ← BitVec.toNat_inj]
    constructor
    · intro same
      by_contra gap
      -- the last byte of the first area is cut off
      have last := same (vma2.vmStart.toNat - 1)
      omega
    · intro joined addr
      omega
  next apart =>
    have back : vma2.vmEnd.toNat = vma1.vmStart.toNat :=
      congrArg BitVec.toNat (adjacent.resolve_left apart)
    rw [BitVec.le_def, back]
    constructor
    · intro same
      by_contra bytes
      -- the first byte of the first area is cut off
      have first := same vma1.vmStart.toNat
      omega
    · intro empty addr
      omega

/-- A split that parts the regions at the address cuts none amid others. -/
theorem SplitsCleanly.not_cutsAmid {splitAddr : b.Word} {regions : List (Region b)}
    (clean : SplitsCleanly splitAddr regions) : ¬ CutsAmid splitAddr regions := by
  induction regions with
  | nil => exact not_false
  | cons rg rest ih =>
      obtain ⟨here, later⟩ := List.pairwise_cons.mp clean
      rw [CutsAmid]
      split
      next => exact not_false
      next low =>
        split
        next beyond =>
          intro more
          obtain ⟨next, member⟩ := List.exists_mem_of_ne_nil rest more
          exact low (here next member beyond).1
        next => exact ih later

namespace MmHeap

/-- No region is on the lists of both areas. -/
def Unshared (h : MmHeap b M) (vma1 vma2 : Nat) : Prop :=
  ∀ rs1 rs2, h.FreeRgs vma1 rs1 → h.FreeRgs vma2 rs2 → rs1.Disjoint rs2

theorem unshared_comm {h : MmHeap b M} {vma1 vma2 : Nat} :
    h.Unshared vma1 vma2 ↔ h.Unshared vma2 vma1 :=
  ⟨fun apart rs2 rs1 list' list => (apart rs1 rs2 list list').symm,
    fun apart rs1 rs2 list list' => (apart rs2 rs1 list' list).symm⟩

theorem unshared_iff {h : MmHeap b M} {vma1 vma2 : Nat} {rs1 rs2 : List Nat}
    (list : h.FreeRgs vma1 rs1) (list' : h.FreeRgs vma2 rs2) :
    h.Unshared vma1 vma2 ↔ rs1.Disjoint rs2 := by
  refine ⟨fun apart => apart rs1 rs2 list list', fun apart rs rs' own own' => ?_⟩
  rwa [own.unique list, own'.unique list']

/-- The list from `mmap` has all areas of `ps` but the two as they were, and in place of those one
area that covers what both covered, with the free regions of both and the larger break. -/
structure MergeUnion (h t : MmHeap b M) (mmap : Option Nat) (ps : List Nat)
    (vma1 vma2 merged : Nat) (qs : List Nat) : Prop where
  one : merged = vma1 ∨ merged = vma2
  linked : Path t.vmNext mmap qs none
  nodes : qs.Perm (merged :: ps.filter fun p => p ≠ vma1 ∧ p ≠ vma2)
  others : ∀ p ∈ ps, p ≠ vma1 → p ≠ vma2 → t.area p = h.area p
  range : ∀ addr, (t.area merged).Covers addr ↔
    (h.area vma1).Covers addr ∨ (h.area vma2).Covers addr
  sbrk : (t.area merged).sbrk.toNat = max (h.area vma1).sbrk.toNat (h.area vma2).sbrk.toNat
  freeRgs : ∀ rs1 rs2, h.FreeRgs vma1 rs1 → h.FreeRgs vma2 rs2 →
    ∃ rs, t.FreeRgs merged rs ∧ rs.Perm (rs1 ++ rs2)
  region : t.region = h.region

section Merge

variable {h t : MmHeap b M} {mmap : Option Nat} {ps qs : List Nat} {vma1 vma2 merged : Nat}
  {rs rs1 rs2 : List Nat}

theorem MergeUnion.symm (union : MergeUnion h t mmap ps vma1 vma2 merged qs) :
    MergeUnion h t mmap ps vma2 vma1 merged qs where
  one := union.one.symm
  linked := union.linked
  nodes := by
    simpa only [and_comm] using union.nodes
  others := fun p member other other' => union.others p member other' other
  range := fun addr => (union.range addr).trans or_comm
  sbrk := union.sbrk.trans (max_comm _ _)
  freeRgs := fun rs1 rs2 list list' =>
    (union.freeRgs rs2 rs1 list' list).imp fun _ merged =>
      ⟨merged.1, merged.2.trans List.perm_append_comm⟩
  region := union.region

/-- The list without the second area, where that came next. -/
theorem MergedAt.relinked (merge : MergedAt h t vma1 vma2 rs) (linked : Path h.vmNext mmap ps none)
    (member : vma1 ∈ ps) (next : h.vmNext vma1 = some vma2) :
    ∃ qs, Path t.vmNext mmap qs none ∧
      qs.Perm (vma1 :: ps.filter fun p => p ≠ vma1 ∧ p ≠ vma2) := by
  obtain ⟨before, rest, rfl⟩ := List.append_of_mem member
  obtain ⟨-, beyond⟩ := path_split.mp linked
  rw [next] at beyond
  cases rest with
  | nil => cases beyond
  | cons second after =>
      obtain rfl : vma2 = second := Option.some.inj beyond.1
      have once := linked.nodup
      have joined : Path h.vmNext mmap (before ++ vma1 :: ([] ++ vma2 :: after)) none := linked
      have path := joined.unlink once
      rw [← merge.vmNext] at path
      refine ⟨before ++ vma1 :: after, path, ?_⟩
      have rest : (before ++ vma1 :: vma2 :: after).filter (fun p => p ≠ vma1 ∧ p ≠ vma2) =
          before ++ after := by
        simp only [List.nodup_append, List.nodup_cons, List.mem_cons, not_or] at once
        obtain ⟨-, ⟨⟨-, late⟩, late', -⟩, distinct⟩ := once
        have front : ∀ p ∈ before, p ≠ vma1 ∧ p ≠ vma2 := fun p here =>
          ⟨distinct p here vma1 (by simp), distinct p here vma2 (by simp)⟩
        have back : ∀ p ∈ after, p ≠ vma1 ∧ p ≠ vma2 := by
          intro p here
          constructor <;> rintro rfl
          · exact late here
          · exact late' here
        rw [List.filter_append, List.filter_eq_self.mpr (by simpa using front),
          List.filter_cons_of_neg (by simp), List.filter_cons_of_neg (by simp),
          List.filter_eq_self.mpr (by simpa using back)]
      rw [rest]
      exact List.perm_middle

/-- Where the two areas share a region, the list of the first never ends. -/
theorem MergedAt.unshared_of_union (merge : MergedAt h t vma1 vma2 rs1)
    (list : h.FreeRgs vma1 rs1) (list' : h.FreeRgs vma2 rs2)
    (union : MergeUnion h t mmap ps vma1 vma2 vma1 qs) : h.Unshared vma1 vma2 := by
  rw [unshared_iff list list']
  intro q member member'
  obtain ⟨joined, ended, -⟩ := union.freeRgs rs1 rs2 list list'
  have path := ended.path
  rw [merge.first, merge.rgNext] at path
  exact list.path.not_append_of_shared list'.path member member' path

theorem MergedAt.union_iff (merge : MergedAt h t vma1 vma2 rs1) (list : h.FreeRgs vma1 rs1)
    (list' : h.FreeRgs vma2 rs2) (linked : Path h.vmNext mmap ps none) (member : vma1 ∈ ps)
    (member' : vma2 ∈ ps) (other : vma1 ≠ vma2)
    (order : (h.area vma1).vmStart ≤ (h.area vma2).vmStart)
    (adjacent : (h.area vma1).vmEnd = (h.area vma2).vmStart ∨
      (h.area vma2).vmEnd = (h.area vma1).vmStart) :
    (∃ merged qs, MergeUnion h t mmap ps vma1 vma2 merged qs) ↔
      h.vmNext vma1 = some vma2 ∧ (h.area vma1).Joins (h.area vma2) ∧ h.Unshared vma1 vma2 := by
  rw [← VmAreaStruct.covers_merge_iff order adjacent]
  constructor
  · rintro ⟨merged, qs, union⟩
    have path := union.linked
    rw [merge.vmNext] at path
    have kept : ∀ p ∈ ps, p ≠ vma1 → p ≠ vma2 → p ∈ qs := by
      intro p here other other'
      apply union.nodes.symm.subset
      apply List.mem_cons_of_mem
      simpa [other, other'] using here
    obtain ⟨next, absent⟩ := linked.next_of_relinked member member' other path kept
    have there : merged ∈ qs := union.nodes.symm.subset List.mem_cons_self
    obtain rfl : merged = vma1 := union.one.resolve_right fun same => absent (same ▸ there)
    refine ⟨next, ?_, merge.unshared_of_union list list' union⟩
    rw [← merge.first]
    exact union.range
  · rintro ⟨next, range, unshared⟩
    obtain ⟨qs, path, nodes⟩ := merge.relinked linked member next
    have joined := merge.append list list' (unshared rs1 rs2 list list')
    refine ⟨vma1, qs, .inl rfl, path, nodes, fun p _ => merge.others p, ?_, ?_, ?_, merge.region⟩
    · rw [merge.first]
      exact range
    · rw [merge.first]
      show (if (h.area vma2).sbrk < (h.area vma1).sbrk then (h.area vma1).sbrk
        else (h.area vma2).sbrk).toNat = _
      split
      next more =>
        have less : (h.area vma2).sbrk.toNat < (h.area vma1).sbrk.toNat := more
        omega
      next less =>
        have most : ¬ (h.area vma2).sbrk.toNat < (h.area vma1).sbrk.toNat := less
        omega
    · intro rs rs' own own'
      obtain rfl := own.unique list
      obtain rfl := own'.unique list'
      exact ⟨_, joined, .refl _⟩

/-- For every list of areas and two on it that are adjacent and have lists of free regions, in
either order: `merge_vm_areas` leaves one area for the two and all others on the list exactly where
the one that starts first links to the other, the bytes up to where that ends are those of the
two, and they share no region. -/
theorem merge_unites_iff (linked : Path h.vmNext mmap ps none) (member : vma1 ∈ ps)
    (member' : vma2 ∈ ps) (other : vma1 ≠ vma2) (list : ∃ rs, h.FreeRgs vma1 rs)
    (list' : ∃ rs, h.FreeRgs vma2 rs)
    (adjacent : (h.area vma1).vmEnd = (h.area vma2).vmStart ∨
      (h.area vma2).vmEnd = (h.area vma1).vmStart) :
    (∃ t merged qs, h.mergeVmAreas vma1 vma2 = some (t, 0) ∧
        MergeUnion h t mmap ps vma1 vma2 merged qs) ↔
      h.vmNext (h.byStart vma1 vma2).1 = some (h.byStart vma1 vma2).2 ∧
        (h.area (h.byStart vma1 vma2).1).Joins (h.area (h.byStart vma1 vma2).2) ∧
          h.Unshared vma1 vma2 := by
  obtain ⟨rs1, list⟩ := list
  obtain ⟨rs2, list'⟩ := list'
  by_cases swap : (h.area vma2).vmStart < (h.area vma1).vmStart
  · have areas : h.byStart vma1 vma2 = (vma2, vma1) := if_pos swap
    obtain ⟨t, done, merge⟩ := mergeVmAreas_spec other adjacent
      (show h.FreeRgs (h.byStart vma1 vma2).1 rs2 by rwa [areas])
    rw [areas] at merge ⊢
    rw [unshared_comm, ← merge.union_iff list' list linked member' member other.symm
      (BitVec.le_of_lt swap) adjacent.symm]
    simp only [done, Option.some.injEq, Prod.mk.injEq, and_true]
    exact ⟨fun ⟨_, merged, qs, same, union⟩ => ⟨merged, qs, same ▸ union.symm⟩,
      fun ⟨merged, qs, union⟩ => ⟨t, merged, qs, rfl, union.symm⟩⟩
  · have areas : h.byStart vma1 vma2 = (vma1, vma2) := if_neg swap
    obtain ⟨t, done, merge⟩ := mergeVmAreas_spec other adjacent
      (show h.FreeRgs (h.byStart vma1 vma2).1 rs1 by rwa [areas])
    rw [areas] at merge ⊢
    rw [← merge.union_iff list list' linked member member' other (BitVec.not_lt.mp swap) adjacent]
    simp only [done, Option.some.injEq, Prod.mk.injEq, and_true]
    exact ⟨fun ⟨_, merged, qs, same, union⟩ => ⟨merged, qs, same ▸ union⟩,
      fun ⟨merged, qs, union⟩ => ⟨t, merged, qs, rfl, union⟩⟩

end Merge

section Split

variable {h t : MmHeap b M} {mmap : Option Nat} {before after rs lower upper : List Nat} {vma : Nat}
  {splitAddr : b.Word}

/-- The new area is behind the one that is split. -/
theorem SplitInto.vmNext (split : SplitInto h t vma splitAddr rs lower upper) :
    t.vmNext = Function.update (Function.update h.vmNext h.freshArea (h.vmNext vma)) vma
      (some h.freshArea) := by
  funext p
  by_cases here : p = vma
  · rw [here, Function.update_self]
    exact congrArg VmArea.vmNext split.lowerArea
  rw [Function.update_of_ne here]
  by_cases there : p = h.freshArea
  · rw [there, Function.update_self]
    exact congrArg VmArea.vmNext split.upperArea
  · rw [Function.update_of_ne there, MmHeap.vmNext, split.areas p here there]
    rfl

/-- The two parts meet at the address. -/
theorem SplitInto.bounds (split : SplitInto h t vma splitAddr rs lower upper) :
    (t.area vma).vmStart = (h.area vma).vmStart ∧ (t.area vma).vmEnd = splitAddr ∧
      (t.area h.freshArea).vmStart = splitAddr ∧ (t.area h.freshArea).vmEnd = (h.area vma).vmEnd :=
  ⟨congrArg VmArea.vmStart split.lowerArea, congrArg VmArea.vmEnd split.lowerArea,
    congrArg VmArea.vmStart split.upperArea, congrArg VmArea.vmEnd split.upperArea⟩

/-- An area is split, and the two parts are merged again: they make one area exactly where no region
was cut in two that has others behind it. -/
theorem merge_split_iff (linked : Path h.vmNext mmap (before ++ vma :: after) none)
    (bound : ∀ p ∈ before ++ vma :: after, p < h.freshArea) (list : h.FreeRgs vma rs)
    (low : (h.area vma).vmStart < splitAddr) (high : splitAddr < (h.area vma).vmEnd) :
    (∃ t u merged qs, h.splitVmArea true true vma splitAddr = some (t, 0) ∧
        t.mergeVmAreas vma h.freshArea = some (u, 0) ∧
          MergeUnion t u mmap (before ++ vma :: h.freshArea :: after) vma h.freshArea merged qs) ↔
      ¬ CutsAmid splitAddr (rs.map h.region) := by
  have known : vma < h.freshArea := bound vma (by simp)
  obtain ⟨t, lower, upper, done, split, shared⟩ := splitVmArea_spec list known low high
  obtain ⟨start, stop, start', stop'⟩ := split.bounds
  have absent : h.freshArea ∉ before ++ vma :: after := fun member => (bound _ member).ne rfl
  have path : Path t.vmNext mmap (before ++ vma :: h.freshArea :: after) none := by
    rw [split.vmNext]
    exact linked.insert linked.nodup absent
  have next : t.vmNext vma = some h.freshArea := by
    rw [split.vmNext, Function.update_self]
  have adjacent : (t.area vma).vmEnd = (t.area h.freshArea).vmStart := stop.trans start'.symm
  have less : (t.area vma).vmStart < (t.area h.freshArea).vmStart := by
    rwa [start, start']
  have order : t.byStart vma h.freshArea = (vma, h.freshArea) :=
    if_neg (BitVec.not_lt.mpr (BitVec.le_of_lt less))
  have joins : (t.area vma).Joins (t.area h.freshArea) := by
    rw [VmAreaStruct.Joins, if_pos adjacent, start', stop']
    exact .inl (BitVec.le_of_lt high)
  obtain ⟨u, joined, merge⟩ := mergeVmAreas_spec known.ne (.inl adjacent)
    (show t.FreeRgs (t.byStart vma h.freshArea).1 lower by rw [order]; exact split.lowerRgs)
  rw [order] at merge
  have unites := merge.union_iff split.lowerRgs split.upperRgs path (by simp) (by simp) known.ne
    (BitVec.le_of_lt less) (.inl adjacent)
  have result : (∃ t u merged qs, h.splitVmArea true true vma splitAddr = some (t, 0) ∧
      t.mergeVmAreas vma h.freshArea = some (u, 0) ∧
        MergeUnion t u mmap (before ++ vma :: h.freshArea :: after) vma h.freshArea merged qs) ↔
      ∃ merged qs,
        MergeUnion t u mmap (before ++ vma :: h.freshArea :: after) vma h.freshArea merged qs := by
    simp [done, joined]
  rw [result, unites, and_iff_right next, and_iff_right joins,
    unshared_iff split.lowerRgs split.upperRgs, shared]

end Split

/-- Area 0 and two areas of 4096 bytes behind it, the first half of each free. -/
def twoAreas (vmStart1 vmStart2 : Build.mm32.Word) : MmHeap .mm32 Unit where
  area
    | 0 => ⟨0, 0, 0, 0, some (), some 0, some 1⟩
    | 1 => ⟨1, vmStart1, vmStart1 + 0x1000, vmStart1, some (), some 1, some 2⟩
    | _ => ⟨2, vmStart2, vmStart2 + 0x1000, vmStart2, some (), some 2, none⟩
  freshArea := 3
  rg
    | 0 => ⟨0, 0, none⟩
    | 1 => ⟨vmStart1, vmStart1 + 0x800, none⟩
    | _ => ⟨vmStart2, vmStart2 + 0x800, none⟩
  freshRg := 3
  table := fun _ => 0

section TwoAreas

variable (vmStart1 vmStart2 : Build.mm32.Word)

theorem twoAreas_linked : Path (twoAreas vmStart1 vmStart2).vmNext (some 0) [0, 1, 2] none :=
  ⟨rfl, rfl, rfl, rfl⟩

theorem twoAreas_freeRgs (p : Nat) (member : p ∈ [0, 1, 2]) :
    (twoAreas vmStart1 vmStart2).FreeRgs p [p] := by
  simp only [List.mem_cons, List.not_mem_nil, or_false] at member
  obtain rfl | rfl | rfl := member <;> exact ⟨⟨rfl, rfl⟩, by simp [twoAreas]⟩

end TwoAreas

/-- The lower area is in front. -/
theorem merge_unites_ordered : ∃ t merged qs,
    (twoAreas 0x1000 0x2000).mergeVmAreas 1 2 = some (t, 0) ∧
      MergeUnion (twoAreas 0x1000 0x2000) t (some 0) [0, 1, 2] 1 2 merged qs := by
  refine (merge_unites_iff (twoAreas_linked ..) (by decide) (by decide) (by decide)
    ⟨_, twoAreas_freeRgs _ _ 1 (by decide)⟩ ⟨_, twoAreas_freeRgs _ _ 2 (by decide)⟩
    (by decide)).mpr ⟨by decide, by decide, ?_⟩
  rw [unshared_iff (twoAreas_freeRgs _ _ 1 (by decide)) (twoAreas_freeRgs _ _ 2 (by decide))]
  exact List.disjoint_singleton.mpr (by decide)

/-- The lower area is the last one, and is linked to itself. -/
theorem merge_loses_end : ¬ ∀ (h : MmHeap .mm32 Unit) (mmap : Option Nat) (ps : List Nat)
    (vma1 vma2 : Nat), Path h.vmNext mmap ps none →
    (ps.Pairwise fun p q => (h.area p).vmId < (h.area q).vmId) →
    (ps.Pairwise fun p q => (h.area q).vmEnd ≤ (h.area p).vmStart ∨
      (h.area p).vmEnd ≤ (h.area q).vmStart) →
    (∀ p ∈ ps, ∃ rs, h.FreeRgs p rs) → vma1 ∈ ps → vma2 ∈ ps → vma1 ≠ vma2 →
    ((h.area vma1).vmEnd = (h.area vma2).vmStart ∨ (h.area vma2).vmEnd = (h.area vma1).vmStart) →
    ∃ t merged qs, h.mergeVmAreas vma1 vma2 = some (t, 0) ∧
      MergeUnion h t mmap ps vma1 vma2 merged qs := by
  intro all
  obtain ⟨t, merged, qs, done, union⟩ := all (twoAreas 0x2000 0x1000) (some 0) [0, 1, 2] 1 2
    (twoAreas_linked ..) (by decide) (by decide) (fun p member => ⟨_, twoAreas_freeRgs _ _ p member⟩)
    (by decide) (by decide) (by decide) (by decide)
  have order : (twoAreas 0x2000 0x1000).byStart 1 2 = (2, 1) := by decide
  have list : (twoAreas 0x2000 0x1000).FreeRgs ((twoAreas 0x2000 0x1000).byStart 1 2).1 [2] := by
    rw [order]
    exact twoAreas_freeRgs _ _ 2 (by decide)
  obtain ⟨_, same, merge⟩ := mergeVmAreas_spec (by decide) (.inr (by decide)) list
  rw [order] at merge
  obtain ⟨rfl, -⟩ := Prod.mk.inj (Option.some.inj (same.symm.trans done))
  have links := merge.vmNext
  have path := union.linked
  rw [links] at path
  obtain ⟨ps, path⟩ := path.tail
  obtain ⟨ps, path⟩ := path.tail
  exact not_path_of_loop (by decide) path

end MmHeap

end SimpleOs.Mem
