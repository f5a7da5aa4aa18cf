import SimpleOs.Mem.Carve
import SimpleOs.Mem.VmLinks

/-!
# Bytes under a split

`split_vm_area` cuts the list of free regions of an area at one of its links, although
that list is in no order, and where it cuts a region in two it leaves what follows to
both areas.
-/

namespace SimpleOs.Mem

open LinkedList (mem_middle)

variable {b : Build}

/-- Where a region ends above the address and others follow it, neither it nor any of those
starts below. -/
def SplitsCleanly (splitAddr : b.Word) (regions : List (Region b)) : Prop :=
  regions.Pairwise fun rg rg' => splitAddr < rg.rgEnd → splitAddr ≤ rg.rgStart ∧ splitAddr ≤ rg'.rgStart

/-- Free regions parted at an address: none reaches across, and no byte is lost or doubled. -/
structure PartedAt (splitAddr : b.Word) (regions lower upper : List (Region b)) : Prop where
  below : ∀ rg ∈ lower, rg.rgEnd ≤ splitAddr
  above : ∀ rg ∈ upper, splitAddr ≤ rg.rgStart
  bytes : ∀ addr, Region.cover lower addr + Region.cover upper addr = Region.cover regions addr

section Regions

variable {splitAddr : b.Word} {rg : Region b} {rest : List (Region b)}

theorem partedAt_of_above (above : splitAddr ≤ rg.rgStart) (nonempty : rg.rgStart < rg.rgEnd) :
    PartedAt splitAddr (rg :: rest) [] (rg :: rest) ↔ SplitsCleanly splitAddr (rg :: rest) := by
  have beyond : splitAddr < rg.rgEnd := Nat.lt_of_le_of_lt above nonempty
  constructor
  · intro parted
    refine List.Pairwise.imp_of_mem ?_ (List.pairwise_of_forall fun _ _ => trivial)
    exact fun here there _ _ => ⟨parted.above _ here, parted.above _ there⟩
  · intro clean
    refine ⟨by simp, List.forall_mem_cons.mpr ⟨above, ?_⟩, fun addr => Nat.zero_add _⟩
    exact fun r member => ((List.pairwise_cons.mp clean).1 r member beyond).2

theorem partedAt_of_across (low : ¬ splitAddr ≤ rg.rgStart) (high : splitAddr < rg.rgEnd)
    (nonempty : ∀ r ∈ rest, r.rgStart < r.rgEnd) :
    PartedAt splitAddr (rg :: rest) (⟨rg.rgStart, splitAddr⟩ :: rest) (⟨splitAddr, rg.rgEnd⟩ :: rest) ↔
      SplitsCleanly splitAddr (rg :: rest) := by
  have alone : PartedAt splitAddr [rg] [⟨rg.rgStart, splitAddr⟩] [⟨splitAddr, rg.rgEnd⟩] := by
    refine ⟨by simp, by simp, fun addr => ?_⟩
    have start : rg.first ≤ splitAddr.toNat := Nat.le_of_not_le low
    have stop : splitAddr.toNat ≤ rg.last := Nat.le_of_lt high
    simp only [Region.cover, Intervals.cover_cons, Intervals.cover_nil, Nat.add_zero]
    exact Intervals.holds_cut start stop rfl rfl rfl rfl
  cases rest with
  | nil => exact iff_of_true alone (List.pairwise_singleton _ _)
  | cons next rest =>
      refine iff_of_false ?_ ?_
      · intro parted
        have below := parted.below next (by simp)
        have above := parted.above next (by simp)
        exact BitVec.not_le.mpr (nonempty next (by simp)) (BitVec.le_trans below above)
      · intro clean
        exact low ((List.pairwise_cons.mp clean).1 next (by simp) high).1

theorem partedAt_of_below (low : rg.rgEnd ≤ splitAddr) {stay move : List (Region b)} :
    PartedAt splitAddr (rg :: rest) (rg :: stay) move ↔ PartedAt splitAddr rest stay move := by
  constructor
  · intro parted
    refine ⟨fun r member => parted.below r (List.mem_cons_of_mem _ member), parted.above, ?_⟩
    intro addr
    have bytes := parted.bytes addr
    simp only [Region.cover, Intervals.cover_cons] at bytes ⊢
    omega
  · intro parted
    refine ⟨List.forall_mem_cons.mpr ⟨low, parted.below⟩, parted.above, ?_⟩
    intro addr
    have bytes := parted.bytes addr
    simp only [Region.cover, Intervals.cover_cons] at bytes ⊢
    omega

/-- The loop parts the regions exactly when it may stop at the first that ends above. -/
theorem partedAt_splitRegions (splitAddr : b.Word) {regions : List (Region b)}
    (nonempty : ∀ rg ∈ regions, rg.rgStart < rg.rgEnd) :
    PartedAt splitAddr regions (splitRegions splitAddr regions).1 (splitRegions splitAddr regions).2 ↔
      SplitsCleanly splitAddr regions := by
  induction regions with
  | nil => exact iff_of_true ⟨by simp [splitRegions], by simp [splitRegions], fun _ => rfl⟩ .nil
  | cons rg rest ih =>
      obtain ⟨here, later⟩ := List.forall_mem_cons.mp nonempty
      rw [splitRegions]
      split
      next above => exact partedAt_of_above above here
      next low =>
        split
        next high => exact partedAt_of_across low high later
        next low =>
          rw [partedAt_of_below (BitVec.not_lt.mp low), ih later, SplitsCleanly, SplitsCleanly,
            List.pairwise_cons, and_iff_right]
          exact fun _ _ high => absurd high low

/-- The regions on the lower list start where regions did. -/
theorem rgStart_of_mem_splitRegions {regions : List (Region b)}
    (member : rg ∈ (splitRegions splitAddr regions).1) : ∃ old ∈ regions, rg.rgStart = old.rgStart := by
  induction regions with
  | nil => cases member
  | cons first rest ih =>
      rw [splitRegions] at member
      split at member
      next => cases member
      next =>
        split at member
        next =>
          obtain rfl | later := List.mem_cons.mp member
          · exact ⟨first, by simp, rfl⟩
          · exact ⟨rg, List.mem_cons_of_mem _ later, rfl⟩
        next =>
          obtain rfl | later := List.mem_cons.mp member
          · exact ⟨rg, by simp, rfl⟩
          · obtain ⟨old, there, same⟩ := ih later
            exact ⟨old, List.mem_cons_of_mem _ there, same⟩

/-- The regions on the upper list end where regions did. -/
theorem rgEnd_of_mem_splitRegions {regions : List (Region b)}
    (member : rg ∈ (splitRegions splitAddr regions).2) : ∃ old ∈ regions, rg.rgEnd = old.rgEnd := by
  induction regions with
  | nil => cases member
  | cons first rest ih =>
      rw [splitRegions] at member
      split at member
      next => exact ⟨rg, member, rfl⟩
      next =>
        split at member
        next =>
          obtain rfl | later := List.mem_cons.mp member
          · exact ⟨first, by simp, rfl⟩
          · exact ⟨rg, List.mem_cons_of_mem _ later, rfl⟩
        next =>
          obtain ⟨old, there, same⟩ := ih member
          exact ⟨old, List.mem_cons_of_mem _ there, same⟩

end Regions

/-- The region lies in the range of the area. -/
def VmArea.Encloses (vma : VmArea b) (rg : Region b) : Prop :=
  vma.vmStart ≤ rg.rgStart ∧ rg.rgEnd ≤ vma.vmEnd

instance (vma : VmArea b) (rg : Region b) : Decidable (vma.Encloses rg) :=
  inferInstanceAs (Decidable (_ ∧ _))

namespace VmMap

/-- The area `vma` and the new one behind it divide the range and the free bytes that `vma`
had between them, and the rest of the list is as it was. -/
structure SplitPartition (s t : VmMap b) (before : List Nat) (vma : Nat) (after : List Nat)
    (splitAddr : b.Word) : Prop where
  linked : t.Linked (before ++ vma :: s.fresh :: after)
  others : ∀ p ∈ before ++ after, t.area p = s.area p
  lowerRange : (t.area vma).vmStart = (s.area vma).vmStart ∧ (t.area vma).vmEnd = splitAddr
  upperRange : (t.area s.fresh).vmStart = splitAddr ∧ (t.area s.fresh).vmEnd = (s.area vma).vmEnd
  lowerInside : ∀ rg ∈ (t.area vma).vmFreergList, (t.area vma).Encloses rg
  upperInside : ∀ rg ∈ (t.area s.fresh).vmFreergList, (t.area s.fresh).Encloses rg
  once : ∀ addr, (∃ rg ∈ (s.area vma).vmFreergList, rg.Contains addr) →
    Region.cover (t.area vma).vmFreergList addr +
      Region.cover (t.area s.fresh).vmFreergList addr = 1
  never : ∀ addr, (¬ ∃ rg ∈ (s.area vma).vmFreergList, rg.Contains addr) →
    Region.cover (t.area vma).vmFreergList addr +
      Region.cover (t.area s.fresh).vmFreergList addr = 0

section Split

variable {s t : VmMap b} {before after : List Nat} {vma : Nat} {splitAddr : b.Word}

/-- A split of disjoint regions inside the area is a partition where it parts them. -/
theorem SplitAt.partition_iff (split : SplitAt s t before vma after splitAddr)
    (linked : s.Linked (before ++ vma :: after))
    (inside : ∀ rg ∈ (s.area vma).vmFreergList, (s.area vma).Encloses rg)
    (apart : (s.area vma).vmFreergList.Pairwise Region.Disjoint) :
    SplitPartition s t before vma after splitAddr ↔
      PartedAt splitAddr (s.area vma).vmFreergList
        (splitRegions splitAddr (s.area vma).vmFreergList).1
        (splitRegions splitAddr (s.area vma).vmFreergList).2 := by
  have once := Region.pairwise_disjoint_iff.mp apart
  constructor
  · intro partition
    obtain ⟨-, -, -, -, lowerInside, upperInside, covered, uncovered⟩ := partition
    rw [split.lower] at lowerInside covered uncovered
    rw [split.upper] at upperInside covered uncovered
    refine ⟨fun rg member => (lowerInside rg member).2,
      fun rg member => (upperInside rg member).1, fun addr => ?_⟩
    have atMost := once addr
    by_cases free : ∃ rg ∈ (s.area vma).vmFreergList, rg.Contains addr
    · have some := Intervals.cover_pos_iff.mpr free
      have total : Region.cover (splitRegions splitAddr (s.area vma).vmFreergList).1 addr +
        Region.cover (splitRegions splitAddr (s.area vma).vmFreergList).2 addr = 1 :=
          covered addr free
      rw [total]
      exact Nat.le_antisymm some atMost
    · have none := Nat.eq_zero_of_not_pos (mt Intervals.cover_pos_iff.mp free)
      rw [Region.cover, Region.cover, Region.cover, none]
      exact uncovered addr free
  · intro parted
    refine ⟨split.linked, ?_, ?_, ?_, ?_, ?_, ?_, ?_⟩
    · intro p member
      have known : p ∈ before ++ vma :: after := mem_middle.mpr (.inr member)
      apply split.others p
      · rintro rfl
        have nodup := linked.path.nodup
        rw [List.nodup_middle, List.nodup_cons] at nodup
        exact nodup.1 member
      · exact (linked.bound p known).ne
    · rw [split.lower]
      exact ⟨rfl, rfl⟩
    · rw [split.upper]
      exact ⟨rfl, rfl⟩
    · rw [split.lower]
      intro rg member
      obtain ⟨old, there, same⟩ := rgStart_of_mem_splitRegions member
      refine ⟨?_, parted.below rg member⟩
      rw [same]
      exact (inside old there).1
    · rw [split.upper]
      intro rg member
      obtain ⟨old, there, same⟩ := rgEnd_of_mem_splitRegions member
      refine ⟨parted.above rg member, ?_⟩
      rw [same]
      exact (inside old there).2
    · intro addr free
      rw [split.lower, split.upper]
      have some := Intervals.cover_pos_iff.mpr free
      exact (parted.bytes addr).trans (Nat.le_antisymm (once addr) some)
    · intro addr free
      rw [split.lower, split.upper]
      exact (parted.bytes addr).trans
        (Nat.eq_zero_of_not_pos (mt Intervals.cover_pos_iff.mp free))

/-- For every area of a list, with free regions that have bytes, lie inside it and do not
overlap, in any order, and every address strictly inside: `split_vm_area` partitions area and
free bytes exactly where the loop may stop at the first region that ends above. -/
theorem split_partitions_iff (linked : s.Linked (before ++ vma :: after))
    (low : (s.area vma).vmStart < splitAddr) (high : splitAddr < (s.area vma).vmEnd)
    (nonempty : ∀ rg ∈ (s.area vma).vmFreergList, rg.rgStart < rg.rgEnd)
    (inside : ∀ rg ∈ (s.area vma).vmFreergList, (s.area vma).Encloses rg)
    (apart : (s.area vma).vmFreergList.Pairwise Region.Disjoint) :
    (∃ t, s.splitVmArea vma splitAddr = (t, 0) ∧ SplitPartition s t before vma after splitAddr) ↔
      SplitsCleanly splitAddr (s.area vma).vmFreergList := by
  obtain ⟨t, done, split⟩ := linked.splitVmArea low high
  rw [done, ← partedAt_splitRegions splitAddr nonempty, ← split.partition_iff linked inside apart]
  simp

end Split

/-- Area 0 with two free regions, the upper one freed last. -/
def unsorted : VmMap .mm32 where
  mmap := some 0
  area := fun _ => ⟨0, 0, 0x1000, 0x1000, true, [⟨0x800, 0x900⟩, ⟨0x100, 0x200⟩], none⟩
  fresh := 1
  made := []

theorem unsorted_linked : unsorted.Linked ([] ++ 0 :: []) := ⟨⟨rfl, rfl⟩, by decide⟩

theorem unsorted_apart : (unsorted.area 0).vmFreergList.Pairwise Region.Disjoint := by
  apply List.pairwise_pair.mpr
  rintro addr ⟨⟨above, -⟩, -, below⟩
  have low : 0x800 ≤ addr.toNat := above
  have high : addr.toNat < 0x200 := below
  omega

/-- Below both regions the list may be cut at its head. -/
theorem split_partitions_low :
    (∃ t, unsorted.splitVmArea 0 0x80 = (t, 0) ∧ SplitPartition unsorted t [] 0 [] 0x80) ↔
      SplitsCleanly (b := .mm32) 0x80 [⟨0x800, 0x900⟩, ⟨0x100, 0x200⟩] :=
  split_partitions_iff unsorted_linked (by decide) (by decide) (by decide)
    (by decide) unsorted_apart

/-- Between the two the lower region goes to the upper area. -/
theorem split_misplaces : ¬ ∀ (s : VmMap .mm32) (before : List Nat) (vma : Nat) (after : List Nat)
    (splitAddr : BitVec 32), s.Linked (before ++ vma :: after) →
    (s.area vma).vmStart < splitAddr → splitAddr < (s.area vma).vmEnd →
    (∀ rg ∈ (s.area vma).vmFreergList, rg.rgStart < rg.rgEnd) →
    (∀ rg ∈ (s.area vma).vmFreergList, (s.area vma).Encloses rg) →
    (s.area vma).vmFreergList.Pairwise Region.Disjoint →
    ∃ t, s.splitVmArea vma splitAddr = (t, 0) ∧ SplitPartition s t before vma after splitAddr := by
  intro all
  obtain ⟨t, done, partition⟩ := all unsorted [] 0 [] 0x400 unsorted_linked (by decide) (by decide)
    (by decide) (by decide) unsorted_apart
  have split : (unsorted.splitVmArea 0 _).1 = t := congrArg Prod.fst done
  subst split
  exact absurd (partition.upperInside ⟨0x100, 0x200⟩ (by decide)).1 (by decide)

end VmMap

end SimpleOs.Mem
