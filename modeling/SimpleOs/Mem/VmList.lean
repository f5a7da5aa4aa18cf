import SimpleOs.Mem.Heap
import SimpleOs.Mem.VmLinks

/-!
# The invariant of the area list

The areas on the list are sorted by `vm_id`, their ranges are disjoint and each has its
break and its free regions inside. `Kept` says so for a list of nodes that the links of
the areas pass; to what is wanted it adds what the calls rely on themselves, that the
free regions are empty and in the order of their addresses.

The calls do not keep it by themselves. An area may be added under an id that is taken,
a split may choose such an id, a merge relinks the area that starts first even where it
is the later one on the list, and the sums of `inc_vma_limit` may wrap. `Careful` are
the calls where none of this happens.
-/

namespace SimpleOs.Mem

open LinkedList (Path path_split mem_middle)

variable {b : Build}

/-- The addresses of an area. -/
def VmArea.range (vma : VmArea b) : Region b := ⟨vma.vmStart, vma.vmEnd⟩

theorem VmArea.disjoint_of_overlaps {x y : VmArea b} (apart : x.overlaps y = false) :
    x.range.Disjoint y.range := by
  rintro addr ⟨⟨above, below⟩, above', below'⟩
  simp only [range, BitVec.le_def, BitVec.lt_def] at above below above' below'
  simp only [overlaps, Bool.and_eq_false_iff, decide_eq_false_iff_not, BitVec.lt_def] at apart
  omega

theorem Region.Disjoint.symm {x y : Region b} (apart : x.Disjoint y) : y.Disjoint x :=
  fun addr both => apart addr both.symm

/-- What is wanted of an area: its break and its free regions lie in its range. -/
structure VmArea.Contained (vma : VmArea b) : Prop where
  low : vma.vmStart ≤ vma.sbrk
  high : vma.sbrk ≤ vma.vmEnd
  inside : ∀ rg ∈ vma.vmFreergList, vma.vmStart ≤ rg.rgStart ∧ rg.rgEnd ≤ vma.vmEnd

/-- The free regions of an area are empty, and in the order of their addresses. -/
structure VmArea.Sound (vma : VmArea b) : Prop extends vma.Contained where
  points : ∀ rg ∈ vma.vmFreergList, rg.rgStart = rg.rgEnd
  sorted : vma.vmFreergList.Pairwise fun rg rg' => rg.rgStart ≤ rg'.rgStart

namespace VmArea.Alike

variable {x y : VmArea b}

theorem range (alike : x.Alike y) : x.range = y.range := by
  rw [VmArea.range, VmArea.range, alike.vmStart, alike.vmEnd]

theorem sound (alike : x.Alike y) (sound : y.Sound) : x.Sound := by
  obtain ⟨vmId, vmStart, vmEnd, sbrk, regions⟩ := alike
  refine ⟨⟨?_, ?_, ?_⟩, ?_, ?_⟩
  · rw [vmStart, sbrk]
    exact sound.low
  · rw [sbrk, vmEnd]
    exact sound.high
  · rw [regions, vmStart, vmEnd]
    exact sound.inside
  · rw [regions]
    exact sound.points
  · rw [regions]
    exact sound.sorted

end VmArea.Alike

namespace VmMap

/-- The list is finite, with increasing ids and disjoint ranges, and its areas belong to
the `mm` and contain their breaks and free regions. -/
def WellLinked (s : VmMap b) : Prop :=
  ∃ ps, Path s.next s.mmap ps none ∧
    ps.Pairwise (fun p q => (s.area p).vmId < (s.area q).vmId) ∧
    ps.Pairwise (fun p q => (s.area p).range.Disjoint (s.area q).range) ∧
    ∀ p ∈ ps, (s.area p).vmMm = true ∧ (s.area p).Contained

/-- The list passes `ps`, and every area there is is sound. -/
structure Kept (s : VmMap b) (ps : List Nat) : Prop where
  path : Path s.next s.mmap ps none
  ids : ps.Pairwise fun p q => (s.area p).vmId < (s.area q).vmId
  apart : ps.Pairwise fun p q => (s.area p).range.Disjoint (s.area q).range
  owned : ∀ p ∈ ps, (s.area p).vmMm = true
  sound : ∀ p < s.fresh, (s.area p).Sound
  bound : ∀ p ∈ ps, p < s.fresh
  made : ∀ p ∈ s.made, p < s.fresh

theorem Kept.wellLinked {s : VmMap b} {ps : List Nat} (kept : s.Kept ps) : s.WellLinked :=
  ⟨ps, kept.path, kept.ids, kept.apart,
    fun p member => ⟨kept.owned p member, (kept.sound p (kept.bound p member)).toContained⟩⟩

theorem Kept.linked {s : VmMap b} {ps : List Nat} (kept : s.Kept ps) : s.Linked ps :=
  ⟨kept.path, kept.bound⟩

theorem Kept.nodup {s : VmMap b} {ps : List Nat} (kept : s.Kept ps) : ps.Nodup := kept.path.nodup

theorem kept_init (b : Build) : (init b).Kept [0] where
  path := ⟨rfl, rfl⟩
  ids := List.pairwise_singleton _ _
  apart := List.pairwise_singleton _ _
  owned := by simp [init]
  sound := by
    intro p _
    refine ⟨⟨BitVec.le_refl _, BitVec.le_refl _, ?_⟩, ?_, List.pairwise_singleton _ _⟩
    · simp [init]
    · simp [init]
  bound := by simp [init]
  made := by simp [init]

/-- The calls that keep the invariant. -/
def Careful (s : VmMap b) : VmCall b → Prop
  | .createVmArea _ _ _ => True
  | .addVmArea newVma =>
      (∃ p < s.fresh, s.listed p ∧ (s.area p).overlaps (s.area newVma)) ∨
        ∀ p < s.fresh, s.listed p → (s.area p).vmId ≠ (s.area newVma).vmId
  | .removeVmArea _ => True
  | .mergeVmAreas vma1 vma2 =>
      let low := s.area (s.byStart vma1 vma2).1
      let high := s.area (s.byStart vma1 vma2).2
      (low.vmEnd ≠ high.vmStart ∧ high.vmEnd ≠ low.vmStart) ∨
        (low.vmId ≤ high.vmId ∧ low.vmEnd = high.vmStart)
  | .splitVmArea vma splitAddr =>
      (splitAddr ≤ (s.area vma).vmStart ∨ (s.area vma).vmEnd ≤ splitAddr) ∨
        ((s.area vma).vmId < (s.area vma).vmId + 1 ∧
          ∀ p < s.fresh, s.listed p → (s.area p).vmId ≠ (s.area vma).vmId + 1)
  | .incVmaLimit vmaid incSz =>
      ∀ p < s.fresh, s.getVmaByNum vmaid = some (some p) →
        let vma := (s.grown p incSz).area p
        (vma.vmEnd ≤ vma.vmStart ∨
            ∃ q < s.fresh, s.listed q ∧ q ≠ p ∧ vma.overlaps (s.area q)) ∨
          (incSz ≤ b.pageAlignsz incSz ∧ (s.area p).vmEnd ≤ vma.vmEnd)

/-! ## Adding and removing -/

section Relink

variable {s t : VmMap b} {ps qs : List Nat}

/-- Relinking areas keeps what is said of each and of two. -/
theorem Kept.relink (kept : s.Kept ps) (alike : ∀ p, (t.area p).Alike (s.area p))
    (fresh : t.fresh = s.fresh) (made : ∀ p ∈ t.made, p ∈ s.made)
    (path : Path t.next t.mmap qs none)
    (ids : qs.Pairwise fun p q => (s.area p).vmId < (s.area q).vmId)
    (apart : qs.Pairwise fun p q => (s.area p).range.Disjoint (s.area q).range)
    (owned : ∀ p ∈ qs, (t.area p).vmMm = true) (bound : ∀ p ∈ qs, p < s.fresh) : t.Kept qs where
  path := path
  ids := by
    apply ids.imp
    intro p q less
    rw [(alike p).vmId, (alike q).vmId]
    exact less
  apart := by
    apply apart.imp
    intro p q disjoint
    rw [(alike p).range, (alike q).range]
    exact disjoint
  owned := owned
  sound := by
    intro p below
    rw [fresh] at below
    exact (alike p).sound (kept.sound p below)
  bound := fresh ▸ bound
  made := by
    intro p member
    rw [fresh]
    exact kept.made p (made p member)

/-- An area linked in where its id belongs. -/
theorem Kept.insert {before after : List Nat} {new : Nat} (kept : s.Kept (before ++ after))
    (relinked : s.Relinked t) (linked : t.Linked (before ++ new :: after))
    (below : ∀ p ∈ before, (s.area p).vmId < (s.area new).vmId)
    (above : ∀ p ∈ after, (s.area new).vmId < (s.area p).vmId)
    (apart : ∀ p ∈ before ++ after, (s.area p).range.Disjoint (s.area new).range)
    (owned : (s.area new).vmMm = true) : t.Kept (before ++ new :: after) := by
  refine kept.relink relinked.alike relinked.fresh relinked.made linked.path
    (pairwise_insert kept.ids below above) (pairwise_insert kept.apart ?_ ?_) ?_ ?_
  · exact fun p member => apart p (List.mem_append_left _ member)
  · exact fun p member => (apart p (List.mem_append_right _ member)).symm
  · intro p member
    rw [relinked.vmMm p]
    obtain rfl | old := mem_middle.mp member
    · exact owned
    · exact kept.owned p old
  · rw [← relinked.fresh]
    exact linked.bound

/-- The insertion puts an area with an id of its own where it belongs. -/
theorem Kept.insertById {new : Nat} (kept : s.Kept ps)
    (vacant : ∀ p ∈ ps, (s.area p).vmId ≠ (s.area new).vmId)
    (apart : ∀ p ∈ ps, (s.area p).range.Disjoint (s.area new).range)
    (owned : (s.area new).vmMm = true) (bound : new < s.fresh)
    (done : s.insertById new = some t) : ∃ qs, t.Kept qs := by
  obtain ⟨t, before, after, inserted, rfl, linked, relinked, below, above⟩ :=
    kept.linked.insertById (fun member => vacant new member rfl) bound
  rw [done] at inserted
  cases inserted
  have ahead : ∀ p ∈ before, (s.area p).vmId < (s.area new).vmId := fun p member =>
    BitVec.lt_of_le_ne (below p member) (vacant p (List.mem_append_left _ member))
  have behind : ∀ p ∈ after, (s.area new).vmId < (s.area p).vmId := by
    cases after with
    | nil => simp
    | cons q after =>
        have beyond := BitVec.lt_of_le_ne (above q rfl) (vacant q (by simp)).symm
        have rest := (List.pairwise_cons.mp (List.pairwise_append.mp kept.ids).2.1).1
        exact List.forall_mem_cons.mpr
          ⟨beyond, fun p member => BitVec.lt_trans beyond (rest p member)⟩
  exact ⟨_, kept.insert relinked linked ahead behind apart owned⟩

/-- The loop of the insertion ends, with a node in front of the new one. -/
theorem Kept.insertById_isSome (kept : s.Kept ps) (new : Nat) : (s.insertById new).isSome := by
  have path := kept.path
  rw [VmMap.insertById]
  cases start : s.mmap with
  | none => rfl
  | some head =>
      rw [start] at path
      cases ps with
      | nil => cases path
      | cons first rest =>
          obtain ⟨same, later⟩ := path
          cases same
          dsimp only
          split
          next => rfl
          next =>
            obtain ⟨before, found, after, -, -, -, -, result⟩ :=
              kept.linked.find later (by simp) (some head)
                fun cur => !decide ((s.area cur).vmId < (s.area new).vmId)
            rw [result]
            cases before.getLast? <;> rfl

/-- Giving an area to the `mm` leaves the list alone. -/
theorem Kept.own (kept : s.Kept ps) (new : Nat) :
    (s.setArea new { s.area new with vmMm := true }).Kept ps := by
  have links : (s.setArea new { s.area new with vmMm := true }).next = s.next :=
    next_setArea_of_link s new rfl
  refine kept.relink ?_ rfl (fun p member => member) ?_ kept.ids kept.apart ?_ kept.bound
  · intro p
    by_cases same : p = new
    · subst same
      rw [area_setArea_self]
      exact ⟨rfl, rfl, rfl, rfl, rfl⟩
    · rw [area_setArea_of_ne _ _ same]
      exact .refl _
  · rw [links]
    exact kept.path
  · intro p member
    by_cases same : p = new
    · subst same
      rw [area_setArea_self]
    · rw [area_setArea_of_ne _ _ same]
      exact kept.owned p member

theorem Kept.addVmArea {new : Nat} {ret : Int} (kept : s.Kept ps) (made : new ∈ s.made)
    (careful : s.Careful (.addVmArea new)) (done : s.addVmArea new = some (t, ret)) :
    ∃ qs, t.Kept qs := by
  have bound := kept.made new made
  rw [VmMap.addVmArea] at done
  split at done
  next => cases done
  next =>
    cases done
    exact ⟨ps, kept⟩
  next prev hit =>
    have free := kept.linked.find_all hit
    have vacant : ∀ p ∈ ps, (s.area p).vmId ≠ (s.area new).vmId := by
      obtain ⟨p, _, listed, overlaps⟩ | vacant := careful
      · rw [kept.linked.listed_iff] at listed
        rw [free p listed] at overlaps
        cases overlaps
      · exact fun p member => vacant p (kept.bound p member) ((kept.linked.listed_iff p).mpr member)
    have absent : ∀ p ∈ ps, p ≠ new := fun p member same => vacant p member (same ▸ rfl)
    obtain ⟨linked, inserted, same⟩ := Option.map_eq_some_iff.mp done
    obtain ⟨rfl, -⟩ := Prod.mk.inj same
    have others : ∀ p ∈ ps, (s.setArea new { s.area new with vmMm := true }).area p = s.area p :=
      fun p member => area_setArea_of_ne s _ (absent p member)
    refine (kept.own new).insertById ?_ ?_ ?_ bound inserted
    · intro p member
      rw [others p member, area_setArea_self]
      exact vacant p member
    · intro p member
      rw [others p member, area_setArea_self]
      exact VmArea.disjoint_of_overlaps (free p member)
    · rw [area_setArea_self]

theorem Kept.removeVmArea {vmaid : BitVec 32} {ret : Int} (kept : s.Kept ps)
    (done : s.removeVmArea vmaid = some (t, ret)) : ∃ qs, t.Kept qs := by
  obtain ⟨before, cur, after, left, rfl, -, -, removed, linked, relinked⟩ | ⟨-, absent⟩ :=
    kept.linked.removeVmArea vmaid
  · rw [done] at removed
    cases removed
    have fewer : (before ++ after).Sublist (before ++ cur :: after) :=
      (List.Sublist.refl before).append (List.sublist_cons_self cur after)
    refine ⟨_, kept.relink relinked.alike relinked.fresh relinked.made linked.path
      (kept.ids.sublist fewer) (kept.apart.sublist fewer) ?_ fun p member =>
        kept.bound p (fewer.subset member)⟩
    intro p member
    rw [relinked.vmMm p]
    exact kept.owned p (fewer.subset member)
  · rw [done] at absent
    cases absent
    exact ⟨ps, kept⟩

end Relink

end VmMap

end SimpleOs.Mem
