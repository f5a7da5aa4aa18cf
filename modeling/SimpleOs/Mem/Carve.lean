import SimpleOs.Lib.Intervals
import SimpleOs.Mem.Heap

/-!
# Carving free regions

`get_free_vmrg_area` takes the bytes for an allocation from the first free region that
looks long enough. It computes the end of the new region in a machine word, from a size
that came through an `int`, and tells a region that was found from none by its start.
Where the end does not wrap before a region is long enough, and the size is an `int`,
the search is exact: the bytes of the old list are those of the new one and those it
hands out.
-/

namespace SimpleOs.Mem

variable {b : Build}

namespace Region

/-- `rg_start` as an address. -/
def first (rg : Region b) : Nat := rg.rgStart.toNat

/-- `rg_end` as an address. -/
def last (rg : Region b) : Nat := rg.rgEnd.toNat

/-- The byte at the address lies in the region. -/
abbrev Contains (rg : Region b) (addr : Nat) : Prop := Intervals.Holds first last rg addr

/-- How many of the regions the byte at the address lies in. -/
abbrev cover (rgs : List (Region b)) (addr : Nat) : Nat := Intervals.cover first last rgs addr

/-- The region has room for `size` bytes. -/
def Long (size : Nat) (rg : Region b) : Prop := rg.first + size ≤ rg.last

instance (size : Nat) (rg : Region b) : Decidable (rg.Long size) := inferInstanceAs (Decidable (_ ≤ _))

theorem disjoint_iff_apart {rg rg' : Region b} :
    rg.Disjoint rg' ↔ Intervals.Apart first last rg rg' := by
  constructor
  · intro disjoint addr both
    have below : addr < 2 ^ b.width := both.1.2.trans rg.rgEnd.isLt
    have same : (BitVec.ofNat b.width addr).toNat = addr := by
      rw [BitVec.toNat_ofNat, Nat.mod_eq_of_lt below]
    apply disjoint (BitVec.ofNat b.width addr)
    simpa only [Intervals.Holds, first, last, BitVec.le_def, BitVec.lt_def, same] using both
  · intro apart addr both
    apply apart addr.toNat
    simpa only [Intervals.Holds, first, last, BitVec.le_def, BitVec.lt_def] using both

theorem pairwise_disjoint_iff {rgs : List (Region b)} :
    rgs.Pairwise Disjoint ↔ ∀ addr, cover rgs addr ≤ 1 := by
  have same : rgs.Pairwise Disjoint ↔ rgs.Pairwise (Intervals.Apart first last) :=
    ⟨fun pairs => pairs.imp disjoint_iff_apart.mp, fun pairs => pairs.imp disjoint_iff_apart.mpr⟩
  rw [same, Intervals.pairwise_apart_iff]

/-- The sum of start and size is at least the size of the address space. -/
def Wraps (size : b.Word) (rg : Region b) : Prop := 2 ^ b.width ≤ rg.first + size.toNat

theorem Long.not_wraps {size : b.Word} {rg : Region b} (long : rg.Long size.toNat) :
    ¬ rg.Wraps size := by
  have below : rg.last < 2 ^ b.width := rg.rgEnd.isLt
  rw [Wraps]
  rw [Long] at long
  omega

theorem toNat_add {size : b.Word} {rg : Region b} :
    (rg.rgStart + size).toNat = (rg.first + size.toNat) % 2 ^ b.width := BitVec.toNat_add ..

theorem toNat_add_of_long {size : b.Word} {rg : Region b} (long : rg.Long size.toNat) :
    (rg.rgStart + size).toNat = rg.first + size.toNat := by
  rw [toNat_add, Nat.mod_eq_of_lt (Nat.lt_of_not_le long.not_wraps)]

/-- Where the sum wraps it falls below the start. -/
theorem toNat_add_of_wraps {size : b.Word} {rg : Region b} (wraps : rg.Wraps size) :
    (rg.rgStart + size).toNat + 2 ^ b.width = rg.first + size.toNat := by
  have start : rg.first < 2 ^ b.width := rg.rgStart.isLt
  have bytes := size.isLt
  rw [Wraps] at wraps
  have low : rg.first + size.toNat - 2 ^ b.width < 2 ^ b.width := by omega
  rw [toNat_add, Nat.mod_eq_sub_mod wraps, Nat.mod_eq_of_lt low]
  omega

/-- The test of the search takes a region whose end wraps for one that is long enough. -/
theorem fits_iff {size : b.Word} {rg : Region b} (proper : rg.rgStart ≤ rg.rgEnd) :
    rg.rgStart + size ≤ rg.rgEnd ↔ rg.Long size.toNat ∨ rg.Wraps size := by
  have order : rg.first ≤ rg.last := proper
  rw [BitVec.le_def]
  by_cases wraps : rg.Wraps size
  · have value := toNat_add_of_wraps wraps
    have bytes := size.isLt
    refine iff_of_true ?_ (.inr wraps)
    show (rg.rgStart + size).toNat ≤ rg.last
    omega
  · have value : (rg.rgStart + size).toNat = rg.first + size.toNat := by
      rw [toNat_add, Nat.mod_eq_of_lt (Nat.lt_of_not_le wraps)]
    rw [value, or_iff_left wraps]
    exact Iff.rfl

end Region

/-- What the search leaves of the free list from the region that it takes on. -/
def leftover (size : b.Word) (rg : Region b) (after : List (Region b)) : List (Region b) :=
  if rg.rgStart + size < rg.rgEnd then ⟨rg.rgStart + size, rg.rgEnd⟩ :: after
  else
    match after with
    | next :: rest => next :: rest
    | [] => [⟨rg.rgEnd, rg.rgEnd⟩]

theorem fitRegion_of_fits {size : b.Word} {rg : Region b} (fits : rg.rgStart + size ≤ rg.rgEnd)
    (rest : List (Region b)) :
    fitRegion size (rg :: rest) = some (⟨rg.rgStart, rg.rgStart + size⟩, leftover size rg rest) := by
  rw [fitRegion, if_pos fits]
  dsimp only [leftover]
  split
  · rfl
  · cases rest <;> rfl

/-- The search takes the first region that passes its test. -/
theorem fitRegion_cases (size : b.Word) (rgs : List (Region b)) :
    (fitRegion size rgs = none ∧ ∀ rg ∈ rgs, ¬ rg.rgStart + size ≤ rg.rgEnd) ∨
    ∃ before rg after, rgs = before ++ rg :: after ∧
      (∀ r ∈ before, ¬ r.rgStart + size ≤ r.rgEnd) ∧ rg.rgStart + size ≤ rg.rgEnd ∧
      fitRegion size rgs =
        some (⟨rg.rgStart, rg.rgStart + size⟩, before ++ leftover size rg after) := by
  induction rgs with
  | nil => exact .inl ⟨rfl, by simp⟩
  | cons rg rest ih =>
      by_cases fits : rg.rgStart + size ≤ rg.rgEnd
      · exact .inr ⟨[], rg, rest, rfl, by simp, fits, fitRegion_of_fits fits rest⟩
      · rw [fitRegion, if_neg fits]
        obtain ⟨none, all⟩ | ⟨before, found, after, rfl, passed, here, result⟩ := ih
        · rw [none]
          exact .inl ⟨rfl, List.forall_mem_cons.mpr ⟨fits, all⟩⟩
        · rw [result]
          exact .inr ⟨rg :: before, found, after, rfl, List.forall_mem_cons.mpr ⟨fits, passed⟩,
            here, rfl⟩

/-- `newrg` is `size` bytes of the first region of `old` that is long enough, and `new` has
the other bytes. -/
structure Carved (size : b.Word) (old new : List (Region b)) (newrg : Region b) : Prop where
  exact : newrg.last = newrg.first + size.toNat
  inside : ∃ before rg after, old = before ++ rg :: after ∧
    (∀ r ∈ before, ¬ r.Long size.toNat) ∧ rg.Long size.toNat ∧
      rg.first ≤ newrg.first ∧ newrg.last ≤ rg.last
  bytes : ∀ addr, (∃ rg ∈ new, rg.Contains addr) ↔
    (∃ rg ∈ old, rg.Contains addr) ∧ ¬ newrg.Contains addr
  apart : new.Pairwise Region.Disjoint

section Leftover

variable {size : b.Word} {rg : Region b} {before after : List (Region b)}

/-- The bytes of the region that was taken and those of what is left. -/
theorem cover_leftover (long : rg.Long size.toNat) (addr : Nat) :
    Region.cover (leftover size rg after) addr +
        (if (⟨rg.rgStart, rg.rgStart + size⟩ : Region b).Contains addr then 1 else 0) =
      Region.cover (rg :: after) addr := by
  have end_ := Region.toNat_add_of_long long
  rw [Region.Long] at long
  have cut : ((if (⟨rg.rgStart, rg.rgStart + size⟩ : Region b).Contains addr then 1 else 0) +
      if (⟨rg.rgStart + size, rg.rgEnd⟩ : Region b).Contains addr then 1 else 0) =
        if rg.Contains addr then 1 else 0 :=
    Intervals.holds_cut (r := rg) (s := ⟨rg.rgStart, rg.rgStart + size⟩)
      (t := ⟨rg.rgStart + size, rg.rgEnd⟩) (Nat.le_add_right _ _) long rfl end_ end_ rfl
  simp only [Region.Contains, Region.cover] at cut ⊢
  rw [Intervals.cover_cons, ← cut]
  unfold leftover
  split
  next => rw [Intervals.cover_cons]; omega
  next full =>
    rw [BitVec.lt_def, end_] at full
    have none : ¬ (⟨rg.rgStart + size, rg.rgEnd⟩ : Region b).Contains addr := by
      apply Intervals.not_holds_of_le
      show rg.last ≤ (rg.rgStart + size).toNat
      rw [end_]
      exact Nat.le_of_not_lt full
    rw [if_neg none]
    cases after with
    | cons next rest => dsimp only; omega
    | nil =>
        have empty : ¬ (⟨rg.rgEnd, rg.rgEnd⟩ : Region b).Contains addr :=
          Intervals.not_holds_of_le le_rfl
        simp only [Intervals.cover_cons, if_neg empty, Intervals.cover_nil]
        omega

/-- Every byte is as often in what is left of the list and in what was taken as in the list. -/
theorem cover_taken (long : rg.Long size.toNat) (addr : Nat) :
    Region.cover (before ++ leftover size rg after) addr +
        (if (⟨rg.rgStart, rg.rgStart + size⟩ : Region b).Contains addr then 1 else 0) =
      Region.cover (before ++ rg :: after) addr := by
  have tail : Intervals.cover Region.first Region.last (leftover size rg after) addr + _ =
    Intervals.cover Region.first Region.last (rg :: after) addr := cover_leftover long addr
  rw [Region.cover, Intervals.cover_append, Region.cover, Intervals.cover_append]
  omega

theorem carved_of_long (apart : (before ++ rg :: after).Pairwise Region.Disjoint)
    (passed : ∀ r ∈ before, ¬ r.Long size.toNat) (long : rg.Long size.toNat) :
    Carved size (before ++ rg :: after) (before ++ leftover size rg after)
      ⟨rg.rgStart, rg.rgStart + size⟩ := by
  have end_ := Region.toNat_add_of_long long
  have once := Region.pairwise_disjoint_iff.mp apart
  have total : ∀ addr, Region.cover (before ++ leftover size rg after) addr + _ =
    Region.cover (before ++ rg :: after) addr := cover_taken long
  refine ⟨end_, ⟨before, rg, after, rfl, passed, long, le_rfl, ?_⟩, ?_, ?_⟩
  · show (rg.rgStart + size).toNat ≤ rg.last
    rw [end_]
    exact long
  · intro addr
    rw [← Intervals.cover_pos_iff, ← Intervals.cover_pos_iff]
    have bytes := total addr
    have atMost := once addr
    by_cases taken : (⟨rg.rgStart, rg.rgStart + size⟩ : Region b).Contains addr
    · rw [if_pos taken] at bytes
      have none : ¬ 0 < Region.cover (before ++ leftover size rg after) addr := by omega
      simp only [none, taken, not_true_eq_false, and_false]
    · rw [if_neg taken, Nat.add_zero] at bytes
      rw [and_iff_left taken]
      change 0 < Region.cover _ addr ↔ 0 < Region.cover _ addr
      rw [bytes]
  · apply Region.pairwise_disjoint_iff.mpr
    intro addr
    have bytes := total addr
    have atMost := once addr
    omega

end Leftover

section Search

variable {mmap : List (Vma b)} {vmaid : Int} {i : Nat} {vma : Vma b} {size : b.Word}

/-- The areas with another free list at one place. -/
def putFreergs (mmap : List (Vma b)) (i : Nat) (rgs : List (Region b)) : List (Vma b) :=
  mmap.modify i fun vma => { vma with vmFreergList := rgs }

theorem putFreergs_eq_self_iff (place : mmap[i]? = some vma) {rgs : List (Region b)} :
    putFreergs mmap i rgs = mmap ↔ rgs = vma.vmFreergList := by
  have after : (putFreergs mmap i rgs)[i]? = some { vma with vmFreergList := rgs } := by
    rw [putFreergs, List.getElem?_modify_eq, place]
    rfl
  constructor
  · intro same
    rw [same, place] at after
    exact (congrArg Vma.vmFreergList (Option.some.inj after)).symm
  · rintro rfl
    apply List.ext_getElem?
    intro j
    by_cases here : j = i
    · subst here
      rw [after, place]
    · rw [putFreergs, List.getElem?_modify_ne _ _ (Ne.symm here)]

theorem putFreergs_inj (place : mmap[i]? = some vma) {rgs rgs' : List (Region b)}
    (same : putFreergs mmap i rgs = putFreergs mmap i rgs') : rgs = rgs' := by
  have entry := congrArg (fun mmap => mmap[i]?.map Vma.vmFreergList) same
  simpa [putFreergs, place] using entry

theorem getFreeVmrgArea_of_none (found : getVmaByNum mmap vmaid = some (some i))
    (place : mmap[i]? = some vma) (none : fitRegion (b.viaInt size) vma.vmFreergList = none) :
    getFreeVmrgArea mmap vmaid size = some (mmap, Option.none) := by
  rw [getFreeVmrgArea, found]
  simp only [place, Option.bind_some, none]

theorem getFreeVmrgArea_of_some (found : getVmaByNum mmap vmaid = some (some i))
    (place : mmap[i]? = some vma) {newrg : Region b} {rest : List (Region b)}
    (fit : fitRegion (b.viaInt size) vma.vmFreergList = some (newrg, rest)) :
    getFreeVmrgArea mmap vmaid size =
      some (putFreergs mmap i rest,
        if newrg.rgStart = BitVec.allOnes b.width then none else some newrg) := by
  rw [getFreeVmrgArea, found]
  simp only [place, Option.bind_some, fit, putFreergs]
  split <;> rfl

/-- The search either gives `size` bytes of the first region that is long enough and takes
no others off the list, or fails, leaves the list, and no region is long enough. -/
def CarvesExactly (mmap : List (Vma b)) (vmaid : Int) (i : Nat) (vma : Vma b) (size : b.Word) :
    Prop :=
  (∃ newrg rest, getFreeVmrgArea mmap vmaid size = some (putFreergs mmap i rest, some newrg) ∧
      Carved size vma.vmFreergList rest newrg) ∨
    (getFreeVmrgArea mmap vmaid size = some (mmap, none) ∧
      ∀ rg ∈ vma.vmFreergList, ¬ rg.Long size.toNat)

/-- Where the size survives the `int`, every region whose end would wrap comes after one
that is long enough. Where it does not, no region is long enough, and no region would do for
the size that comes out, unless that is zero and the list is one empty region at the top
address, which is what the search takes for having found none. -/
def Carvable (size : b.Word) (rgs : List (Region b)) : Prop :=
  if b.viaInt size = size then
    ∀ before rg after, rgs = before ++ rg :: after → rg.Wraps size →
      ∃ r ∈ before, r.Long size.toNat
  else
    (∀ rg ∈ rgs, ¬ rg.Long size.toNat ∧ ¬ rg.Long (b.viaInt size).toNat ∧
      ¬ rg.Wraps (b.viaInt size)) ∨
    (b.viaInt size = 0 ∧ rgs = [⟨BitVec.allOnes b.width, BitVec.allOnes b.width⟩])

theorem carvesExactly_of_miss (found : getVmaByNum mmap vmaid = some (some i))
    (place : mmap[i]? = some vma) (none : fitRegion (b.viaInt size) vma.vmFreergList = none) :
    CarvesExactly mmap vmaid i vma size ↔ ∀ rg ∈ vma.vmFreergList, ¬ rg.Long size.toNat := by
  simp [CarvesExactly, getFreeVmrgArea_of_none found place none]

/-- The search that passed its test at `rg` is exact, or it took that region for none and
the list is unchanged by chance. -/
theorem carvesExactly_of_hit (found : getVmaByNum mmap vmaid = some (some i))
    (place : mmap[i]? = some vma) {before after : List (Region b)} {rg : Region b}
    (list : vma.vmFreergList = before ++ rg :: after)
    (fit : fitRegion (b.viaInt size) vma.vmFreergList =
      some (⟨rg.rgStart, rg.rgStart + b.viaInt size⟩, before ++ leftover (b.viaInt size) rg after)) :
    CarvesExactly mmap vmaid i vma size ↔
      (rg.rgStart ≠ BitVec.allOnes b.width ∧
        Carved size vma.vmFreergList (before ++ leftover (b.viaInt size) rg after)
          ⟨rg.rgStart, rg.rgStart + b.viaInt size⟩) ∨
      (rg.rgStart = BitVec.allOnes b.width ∧ leftover (b.viaInt size) rg after = rg :: after ∧
        ∀ rg ∈ vma.vmFreergList, ¬ rg.Long size.toNat) := by
  have same : putFreergs mmap i (before ++ leftover (b.viaInt size) rg after) = mmap ↔
      leftover (b.viaInt size) rg after = rg :: after := by
    rw [putFreergs_eq_self_iff place, list, List.append_cancel_left_eq]
  rw [CarvesExactly, getFreeVmrgArea_of_some found place fit]
  by_cases top : rg.rgStart = BitVec.allOnes b.width
  · simp [top, same]
  · simp only [top, if_false, ne_eq, not_false_eq_true, true_and, Option.some.injEq, Prod.mk.injEq,
      reduceCtorEq, and_false, false_and, or_false]
    constructor
    · rintro ⟨newrg, rest, ⟨areas, rfl⟩, carved⟩
      rwa [putFreergs_inj place areas]
    · intro carved
      exact ⟨_, _, ⟨rfl, rfl⟩, carved⟩

/-- Where bytes are taken, the list changes. -/
theorem leftover_ne {rg : Region b} (bytes : size ≠ 0) (fits : rg.rgStart + size ≤ rg.rgEnd)
    (after : List (Region b)) : leftover size rg after ≠ rg :: after := by
  have moved : rg.rgStart + size ≠ rg.rgStart := by simpa using bytes
  intro same
  unfold leftover at same
  split at same
  next => exact moved (congrArg Region.rgStart (List.cons.inj same).1)
  next full =>
    split at same
    next next rest => exact List.cons_ne_self _ _ same.symm
    next =>
      have start : rg.rgEnd = rg.rgStart := congrArg Region.rgStart (List.cons.inj same).1
      have stop : rg.rgStart + size = rg.rgEnd :=
        BitVec.le_antisymm fits (BitVec.not_lt.mp full)
      exact moved (stop.trans start)

/-- Only an empty region at the end of the list survives being taken for no bytes. -/
theorem leftover_zero {rg : Region b} (empty : rg.rgEnd ≤ rg.rgStart) (after : List (Region b)) :
    leftover 0 rg after = rg :: after ↔ after = [] ∧ rg.rgStart = rg.rgEnd := by
  have full : ¬ rg.rgStart + 0 < rg.rgEnd := by
    rw [add_zero]
    exact BitVec.not_lt.mpr empty
  unfold leftover
  rw [if_neg full]
  split
  next next rest => simp
  next =>
    constructor
    · intro same
      exact ⟨rfl, (congrArg Region.rgStart (List.cons.inj same).1).symm⟩
    · rintro ⟨-, same⟩
      rw [← same]
      exact congrArg (fun stop => [(⟨rg.rgStart, stop⟩ : Region b)]) same

theorem Region.Long.ne_top {rg : Region b} (bytes : size ≠ 0) (long : rg.Long size.toNat) :
    rg.rgStart ≠ BitVec.allOnes b.width := by
  intro top
  have positive : 0 < size.toNat := Nat.pos_of_ne_zero fun zero => bytes (BitVec.eq_of_toNat_eq zero)
  have below : rg.last < 2 ^ b.width := rg.rgEnd.isLt
  rw [Region.Long, Region.first, top, BitVec.toNat_allOnes] at long
  omega

/-- A region met after the one that the search takes on comes after it in any split. -/
theorem mem_before_of_split {before after before' after' : List (Region b)} {rg rg' : Region b}
    (split : before ++ rg :: after = before' ++ rg' :: after') (late : rg' ∉ before)
    (other : rg' ≠ rg) : rg ∈ before' := by
  obtain ⟨mid, rfl, tail⟩ | ⟨mid, rfl, tail⟩ := List.append_eq_append_iff.mp split
  · cases mid with
    | nil => exact absurd (List.cons.inj tail).1.symm other
    | cons first rest =>
        obtain ⟨rfl, -⟩ := List.cons.inj tail
        exact List.mem_append_right _ (List.mem_cons_self ..)
  · cases mid with
    | nil => exact absurd (List.cons.inj tail).1 other
    | cons first rest =>
        obtain ⟨rfl, -⟩ := List.cons.inj tail
        exact absurd (List.mem_append_right _ (List.mem_cons_self ..)) late

section Exact

variable {before after : List (Region b)} {rg : Region b}

/-- With a size that survives the `int`, the search is exact where it ends at a region that is
long enough. -/
theorem carved_or_iff_of_kept (apart : (before ++ rg :: after).Pairwise Region.Disjoint)
    (proper : ∀ r ∈ before ++ rg :: after, r.rgStart ≤ r.rgEnd) (bytes : size ≠ 0)
    (passed : ∀ r ∈ before, ¬ r.rgStart + size ≤ r.rgEnd) (fits : rg.rgStart + size ≤ rg.rgEnd) :
    ((rg.rgStart ≠ BitVec.allOnes b.width ∧
        Carved size (before ++ rg :: after) (before ++ leftover size rg after)
          ⟨rg.rgStart, rg.rgStart + size⟩) ∨
      (rg.rgStart = BitVec.allOnes b.width ∧ leftover size rg after = rg :: after ∧
        ∀ r ∈ before ++ rg :: after, ¬ r.Long size.toNat)) ↔
    ∀ before' rg' after', before ++ rg :: after = before' ++ rg' :: after' → rg'.Wraps size →
      ∃ r ∈ before', r.Long size.toNat := by
  have skipped : ∀ r ∈ before, ¬ r.Long size.toNat ∧ ¬ r.Wraps size := by
    intro r member
    rw [← not_or, ← Region.fits_iff (proper r (List.mem_append_left _ member))]
    exact passed r member
  have here : rg.rgStart ≤ rg.rgEnd := proper rg (by simp)
  have changed := leftover_ne bytes fits after
  obtain long | wraps := (Region.fits_iff here).mp fits
  · refine iff_of_true (.inl ⟨long.ne_top bytes, ?_⟩) ?_
    · exact carved_of_long apart (fun r member => (skipped r member).1) long
    · intro before' rg' after' split wraps
      refine ⟨rg, mem_before_of_split split ?_ ?_, long⟩
      · exact fun member => (skipped rg' member).2 wraps
      · rintro rfl
        exact long.not_wraps wraps
  · refine iff_of_false ?_ ?_
    · rintro (⟨-, carved⟩ | ⟨-, same, -⟩)
      · have short := Region.toNat_add_of_wraps wraps
        have exact_ : (rg.rgStart + size).toNat = rg.first + size.toNat := carved.exact
        have positive := Nat.two_pow_pos b.width
        omega
      · exact changed same
    · intro all
      obtain ⟨r, member, long⟩ := all before rg after rfl wraps
      exact (skipped r member).1 long

/-- With a size that does not survive the `int`, a region that passes the test makes the search
go wrong, but for one. -/
theorem carved_or_iff_of_lost {s : b.Word}
    (proper : ∀ r ∈ before ++ rg :: after, r.rgStart ≤ r.rgEnd) (bytes : size ≠ 0)
    (lost : s ≠ size) (passed : ∀ r ∈ before, ¬ r.rgStart + s ≤ r.rgEnd)
    (fits : rg.rgStart + s ≤ rg.rgEnd) :
    ((rg.rgStart ≠ BitVec.allOnes b.width ∧
        Carved size (before ++ rg :: after) (before ++ leftover s rg after)
          ⟨rg.rgStart, rg.rgStart + s⟩) ∨
      (rg.rgStart = BitVec.allOnes b.width ∧ leftover s rg after = rg :: after ∧
        ∀ r ∈ before ++ rg :: after, ¬ r.Long size.toNat)) ↔
    s = 0 ∧ before ++ rg :: after = [⟨BitVec.allOnes b.width, BitVec.allOnes b.width⟩] := by
  constructor
  · rintro (⟨-, carved⟩ | ⟨top, same, -⟩)
    · have exact_ : (rg.rgStart + s).toNat = rg.first + size.toNat := carved.exact
      have value : rg.rgStart + s = rg.rgStart + size := by
        apply BitVec.eq_of_toNat_eq
        have sum : (rg.rgStart + size).toNat = (rg.first + size.toNat) % 2 ^ b.width :=
          Region.toNat_add
        rw [sum, ← exact_, Nat.mod_eq_of_lt (rg.rgStart + s).isLt]
      exact absurd (add_left_cancel value) lost
    · have zero : s = 0 := by
        by_contra some
        exact leftover_ne some fits after same
      subst zero
      have stop : rg.rgEnd ≤ rg.rgStart := by
        rw [top, BitVec.le_def, BitVec.toNat_allOnes]
        exact Nat.le_sub_one_of_lt rg.rgEnd.isLt
      obtain ⟨rfl, empty⟩ := (leftover_zero stop after).mp same
      have first : before = [] := by
        apply List.eq_nil_iff_forall_not_mem.mpr
        intro r member
        apply passed r member
        rw [add_zero]
        exact proper r (List.mem_append_left _ member)
      refine ⟨rfl, ?_⟩
      rw [first, List.nil_append, ← top]
      exact congrArg (fun stop => [(⟨rg.rgStart, stop⟩ : Region b)]) empty.symm
  · rintro ⟨rfl, single⟩
    have only : ∀ r ∈ before ++ rg :: after,
        r = ⟨BitVec.allOnes b.width, BitVec.allOnes b.width⟩ := by
      rw [single]
      simp
    have here := only rg (by simp)
    have rest : after = [] := by
      have count := congrArg List.length single
      rw [List.length_append, List.length_cons, List.length_singleton] at count
      exact List.length_eq_zero_iff.mp (by omega)
    refine .inr ⟨by rw [here], ?_, ?_⟩
    · exact (leftover_zero (by rw [here]; exact BitVec.le_refl _) after).mpr ⟨rest, by rw [here]⟩
    · intro r member long
      exact long.ne_top bytes (by rw [only r member])

end Exact

/-- From any free list of regions that do not overlap, and for any size but zero: the search is
exact just where the size survives the `int` and no region whose end would wrap comes before one
that is long enough, and by chance in two cases besides. -/
theorem carves_exactly_iff (found : getVmaByNum mmap vmaid = some (some i))
    (place : mmap[i]? = some vma) (proper : ∀ rg ∈ vma.vmFreergList, rg.rgStart ≤ rg.rgEnd)
    (apart : vma.vmFreergList.Pairwise Region.Disjoint) (bytes : size ≠ 0) :
    CarvesExactly mmap vmaid i vma size ↔ Carvable size vma.vmFreergList := by
  obtain ⟨none, short⟩ | ⟨before, rg, after, list, passed, fits, fit⟩ :=
    fitRegion_cases (b.viaInt size) vma.vmFreergList
  · rw [carvesExactly_of_miss found place none, Carvable]
    have missed : ∀ rg ∈ vma.vmFreergList,
        ¬ rg.Long (b.viaInt size).toNat ∧ ¬ rg.Wraps (b.viaInt size) := by
      intro rg member
      rw [← not_or, ← Region.fits_iff (proper rg member)]
      exact short rg member
    split
    next kept =>
      rw [kept] at missed
      refine iff_of_true (fun rg member => (missed rg member).1) ?_
      intro before rg after list wraps
      exact absurd wraps (missed rg (by simp [list])).2
    next =>
      constructor
      · exact fun none => .inl fun rg member => ⟨none rg member, missed rg member⟩
      · rintro (all | ⟨zero, single⟩)
        · exact fun rg member => (all rg member).1
        · have tooShort := short ⟨BitVec.allOnes b.width, BitVec.allOnes b.width⟩ (by simp [single])
          rw [zero, add_zero] at tooShort
          exact absurd (BitVec.le_refl _) tooShort
  · rw [carvesExactly_of_hit found place list fit, Carvable]
    rw [list] at proper apart ⊢
    split
    next kept =>
      rw [kept] at passed fits ⊢
      exact carved_or_iff_of_kept apart proper bytes passed fits
    next lost =>
      have here : rg.rgStart ≤ rg.rgEnd := proper rg (by simp)
      have hit : ¬ ∀ r ∈ before ++ rg :: after, ¬ r.Long size.toNat ∧
          ¬ r.Long (b.viaInt size).toNat ∧ ¬ r.Wraps (b.viaInt size) := by
        intro all
        obtain ⟨-, short, low⟩ := all rg (by simp)
        exact not_or.mpr ⟨short, low⟩ ((Region.fits_iff here).mp fits)
      rw [or_iff_right hit]
      exact carved_or_iff_of_lost proper bytes lost passed fits

end Search

/-- An area 0 with one free region of 256 bytes. -/
def oneRegion : Vma .mm64 := ⟨0, 0, 4096, 256, [⟨0, 256⟩]⟩

/-- A request that the region can serve, and that the search serves exactly. -/
theorem carves_exactly_small :
    CarvesExactly [oneRegion] 0 0 oneRegion 16 ↔ Carvable 16 oneRegion.vmFreergList :=
  carves_exactly_iff (by decide) rfl (by decide) (List.pairwise_singleton _ _) (by decide)

/-- A request for 4 GiB and 16 bytes gets 16 bytes. -/
theorem carving_truncates : ¬ ∀ (mmap : List (Vma .mm64)) (vmaid : Int) (i : Nat) (vma : Vma .mm64)
    (size : BitVec 64), getVmaByNum mmap vmaid = some (some i) → mmap[i]? = some vma →
    (∀ rg ∈ vma.vmFreergList, rg.rgStart ≤ rg.rgEnd) →
    vma.vmFreergList.Pairwise Region.Disjoint → size ≠ 0 →
    CarvesExactly mmap vmaid i vma size := by
  intro all
  have carves := all [oneRegion] 0 0 oneRegion 0x100000010 (by decide) rfl (by decide)
    (List.pairwise_singleton _ _) (by decide)
  have short : (getFreeVmrgArea [oneRegion] 0 0x100000010).map Prod.snd = some (some ⟨0, 16⟩) := by
    decide
  obtain ⟨newrg, rest, search, carved⟩ | ⟨search, -⟩ := carves
  · cases short.symm.trans (congrArg (Option.map Prod.snd) search)
    exact absurd carved.exact (by decide)
  · cases short.symm.trans (congrArg (Option.map Prod.snd) search)

end SimpleOs.Mem
