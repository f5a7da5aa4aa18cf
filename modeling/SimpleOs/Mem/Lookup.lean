import SimpleOs.Mem.VmList

/-!
# Looking up an area and checking its range

`get_vma_by_num` walks the list to the first id that is not below the number, whether it
is that number or not, and runs off the end of a list where there is none.
`validate_overlap_vm_area` looks its area up in this way and then compares the present
range of that area with the others; the range that is planned is only tested for being
non-empty.
-/

namespace SimpleOs.Mem

open LinkedList (search)

variable {b : Build}

/-- `vm_id` as the `int` that `get_vma_by_num` compares. -/
def VmArea.num (vma : VmArea b) : Int := (vma.vmId.setWidth 32).toInt

/-- The area has the id that `create_vm_area` gives for a number. -/
def VmArea.Numbered (vma : VmArea b) (vmaid : BitVec 32) : Prop := vma.vmId = vmaid.signExtend 64

instance (vma : VmArea b) (vmaid : BitVec 32) : Decidable (vma.Numbered vmaid) :=
  inferInstanceAs (Decidable (_ = _))

/-- `OVERLAP` of a planned range with an area. -/
def VmArea.Meets (vma : VmArea b) (vmastart vmaend : b.Word) : Prop :=
  vmastart < vma.vmEnd ∧ vma.vmStart < vmaend

instance (vma : VmArea b) (vmastart vmaend : b.Word) : Decidable (vma.Meets vmastart vmaend) :=
  inferInstanceAs (Decidable (_ ∧ _))

theorem VmArea.Numbered.num_eq {vma : VmArea b} {vmaid : BitVec 32} (numbered : vma.Numbered vmaid) :
    vma.num = vmaid.toInt := by
  have kept : vma.vmId.setWidth 32 = vmaid := by
    rw [numbered]
    apply BitVec.eq_of_getLsbD_eq
    intro i low
    have inWord : i < 64 := low.trans (by decide)
    rw [BitVec.getLsbD_setWidth, BitVec.getLsbD_signExtend, if_pos low, decide_eq_true low,
      decide_eq_true inWord, Bool.true_and, Bool.true_and]
  rw [VmArea.num, kept]

namespace VmMap

variable {s : VmMap b} {ps : List Nat} {vmaid : BitVec 32} {p : Nat}

/-- The first area of the list whose id is not below the number. -/
def FirstFrom (s : VmMap b) (ps : List Nat) (vmaid : BitVec 32) (cur : Nat) : Prop :=
  ∃ before after, ps = before ++ cur :: after ∧ (∀ q ∈ before, (s.area q).num < vmaid.toInt) ∧
    vmaid.toInt ≤ (s.area cur).num

theorem FirstFrom.mem {cur : Nat} (first : s.FirstFrom ps vmaid cur) : cur ∈ ps := by
  obtain ⟨before, after, rfl, -⟩ := first
  simp

theorem FirstFrom.unique {cur cur' : Nat} (first : s.FirstFrom ps vmaid cur)
    (first' : s.FirstFrom ps vmaid cur') : cur = cur' := by
  have found : ∀ {cur}, s.FirstFrom ps vmaid cur →
      ps.find? (fun q => decide (vmaid.toInt ≤ (s.area q).num)) = some cur := by
    rintro cur ⟨before, after, split, below, from_⟩
    refine List.find?_eq_some_iff_append.mpr ⟨decide_eq_true from_, before, after, split, ?_⟩
    intro q early
    simpa using below q early
  exact Option.some.inj ((found first).symm.trans (found first'))

/-- What the lookup does on any list: `NULL` where the list is empty, the first area from the
number on, or a fault where all ids are below the number. -/
theorem Linked.getVmaByNum_cases (linked : s.Linked ps) (vmaid : BitVec 32) :
    (ps = [] ∧ s.getVmaByNum vmaid = some none) ∨
    (ps ≠ [] ∧ (∀ p ∈ ps, (s.area p).num < vmaid.toInt) ∧ s.getVmaByNum vmaid = none) ∨
    ∃ cur, s.FirstFrom ps vmaid cur ∧ s.getVmaByNum vmaid = some (some cur) := by
  have passes : ∀ q, (!((s.area q).vmId.setWidth 32).slt vmaid) = false ↔
      (s.area q).num < vmaid.toInt := by
    intro q
    simp [BitVec.slt, VmArea.num]
  rw [getVmaByNum]
  cases head : s.mmap with
  | none =>
      have path := linked.path
      rw [head] at path
      cases ps with
      | nil => exact .inl ⟨rfl, rfl⟩
      | cons p ps => cases path.1
  | some first =>
      have some : ps ≠ [] := by
        rintro rfl
        cases head.symm.trans linked.path
      dsimp only
      rw [← head]
      obtain ⟨before, found, after, rfl, start, passed, met, result⟩ :=
        linked.find linked.path (le_refl _) none
          fun p => !((s.area p).vmId.setWidth 32).slt vmaid
      rw [result]
      cases found with
      | none =>
          rw [List.head?_eq_none_iff] at start
          subst start
          rw [List.append_nil] at some ⊢
          exact .inr (.inl ⟨some, fun p member => (passes p).mp (passed p member), rfl⟩)
      | some cur =>
          obtain ⟨rest, rfl⟩ := List.head?_eq_some_iff.mp start
          refine .inr (.inr ⟨cur, ⟨before, rest, rfl, ?_, ?_⟩, rfl⟩)
          · exact fun q member => (passes q).mp (passed q member)
          · apply Int.not_lt.mp
            rw [← passes, met cur rfl]
            decide

/-- An area with the number, or any from it on, keeps the walk on the list. -/
theorem Linked.exists_firstFrom (linked : s.Linked ps) (member : p ∈ ps)
    (from_ : vmaid.toInt ≤ (s.area p).num) :
    ∃ cur, s.FirstFrom ps vmaid cur ∧ s.getVmaByNum vmaid = some (some cur) := by
  obtain ⟨rfl, -⟩ | ⟨-, below, -⟩ | hit := linked.getVmaByNum_cases vmaid
  · cases member
  · exact absurd (below p member) (Int.not_lt.mpr from_)
  · exact hit

/-! ## Looking up an area by its number -/

/-- `found` is the area with that number if there is one, and `NULL` if there is none. -/
structure LooksUp (s : VmMap b) (ps : List Nat) (vmaid : BitVec 32) (found : Option Nat) :
    Prop where
  hit : ∀ p ∈ ps, (s.area p).Numbered vmaid → found = some p
  miss : (∀ p ∈ ps, ¬ (s.area p).Numbered vmaid) → found = none

/-- In increasing order the areas with smaller ids are those in front. -/
theorem mem_before_iff {before after : List Nat}
    (increasing : (before ++ p :: after).Pairwise fun q r => (s.area q).vmId < (s.area r).vmId)
    {q : Nat} : q ∈ before ↔ q ∈ before ++ p :: after ∧ (s.area q).vmId < (s.area p).vmId := by
  obtain ⟨-, rest, order⟩ := List.pairwise_append.mp increasing
  obtain ⟨later, -⟩ := List.pairwise_cons.mp rest
  constructor
  · intro early
    exact ⟨List.mem_append_left _ early, order q early p List.mem_cons_self⟩
  · rintro ⟨member, less⟩
    obtain early | here | late : q ∈ before ∨ q = p ∨ q ∈ after := by simpa using member
    · exact early
    · rw [here] at less
      exact absurd less (BitVec.lt_irrefl _)
    · exact absurd (BitVec.lt_trans less (later q late)) (BitVec.lt_irrefl _)

/-- In increasing order no two areas have one id. -/
theorem eq_of_vmId_eq
    (increasing : ps.Pairwise fun p q => (s.area p).vmId < (s.area q).vmId) {q : Nat}
    (member : p ∈ ps) (member' : q ∈ ps) (same : (s.area p).vmId = (s.area q).vmId) : p = q := by
  have symm : Std.Symm fun p q => (s.area p).vmId ≠ (s.area q).vmId := ⟨fun _ _ => Ne.symm⟩
  by_contra other
  exact (increasing.imp BitVec.ne_of_lt).forall member member' other same

/-- For every list with increasing ids and every number: the lookup is exact where the list is
empty, or has an area with that number and no smaller id is as large as an `int`. -/
theorem lookup_exact_iff (linked : s.Linked ps)
    (increasing : ps.Pairwise fun p q => (s.area p).vmId < (s.area q).vmId) (vmaid : BitVec 32) :
    (∃ found, s.getVmaByNum vmaid = some found ∧ s.LooksUp ps vmaid found) ↔
      ps = [] ∨ ∃ p ∈ ps, (s.area p).Numbered vmaid ∧
        ∀ q ∈ ps, (s.area q).vmId < (s.area p).vmId → (s.area q).num < vmaid.toInt := by
  constructor
  · rintro ⟨found, result, exact_⟩
    obtain ⟨none, -⟩ | ⟨-, -, fault⟩ | ⟨cur, first, hit⟩ := linked.getVmaByNum_cases vmaid
    · exact .inl none
    · rw [fault] at result
      cases result
    · obtain rfl := Option.some.inj (result.symm.trans hit)
      right
      by_cases listed : ∃ p ∈ ps, (s.area p).Numbered vmaid
      · obtain ⟨p, member, numbered⟩ := listed
        obtain rfl := Option.some.inj (exact_.hit p member numbered)
        refine ⟨cur, member, numbered, ?_⟩
        obtain ⟨before, after, rfl, below, -⟩ := first
        exact fun q here less => below q ((mem_before_iff increasing).mpr ⟨here, less⟩)
      · cases exact_.miss fun p member numbered => listed ⟨p, member, numbered⟩
  · rintro (rfl | ⟨p, member, numbered, below⟩)
    · obtain ⟨-, result⟩ | ⟨some, -⟩ | ⟨cur, first, -⟩ := linked.getVmaByNum_cases vmaid
      · exact ⟨none, result, by simp, fun _ => rfl⟩
      · exact absurd rfl some
      · cases first.mem
    · obtain ⟨cur, first, hit⟩ := linked.exists_firstFrom member numbered.num_eq.ge
      have here : cur = p := by
        obtain ⟨before, after, rfl, passed, from_⟩ := first
        obtain early | same | late : p ∈ before ∨ p = cur ∨ p ∈ after := by simpa using member
        · exact absurd (passed p early) (Int.not_lt.mpr numbered.num_eq.ge)
        · exact same.symm
        · obtain ⟨-, rest, -⟩ := List.pairwise_append.mp increasing
          have less := (List.pairwise_cons.mp rest).1 p late
          exact absurd (below cur (by simp) less) (Int.not_lt.mpr from_)
      subst here
      refine ⟨some cur, hit, ?_, fun none => absurd numbered (none cur member)⟩
      intro q there same
      rw [eq_of_vmId_eq increasing there member (same.trans numbered.symm)]

/-- Areas `[0, 0x1000)`, `[0x2000, 0x3000)` and `[0x4000, 0x5000)`. -/
def neighbours : VmMap .mm32 where
  mmap := some 0
  area
    | 0 => ⟨0, 0, 0x1000, 0x1000, true, [], some 1⟩
    | 1 => ⟨1, 0x2000, 0x3000, 0x3000, true, [], some 2⟩
    | _ => ⟨2, 0x4000, 0x5000, 0x5000, true, [], none⟩
  fresh := 3
  made := []

theorem neighbours_linked : neighbours.Linked [0, 1, 2] := ⟨⟨rfl, rfl, rfl, rfl⟩, by decide⟩

/-- The lookup passes two areas. -/
theorem lookup_exact_third : ∃ found, neighbours.getVmaByNum 2 = some found ∧
    neighbours.LooksUp [0, 1, 2] 2 found :=
  (lookup_exact_iff neighbours_linked (by decide) 2).mpr
    (.inr ⟨2, by decide, by decide, by decide⟩)

/-- A number above all ids runs off the list of a fresh `mm`. -/
theorem lookup_runs_off : ¬ ∀ (s : VmMap .mm32) (ps : List Nat) (vmaid : BitVec 32), s.Linked ps →
    (ps.Pairwise fun p q => (s.area p).vmId < (s.area q).vmId) →
    ∃ found, s.getVmaByNum vmaid = some found ∧ s.LooksUp ps vmaid found := by
  intro all
  obtain ⟨found, result, -⟩ := all (init .mm32) [0] 1 (kept_init .mm32).linked
    (List.pairwise_singleton _ _)
  have fault : (init .mm32).getVmaByNum 1 = none := by decide
  rw [fault] at result
  cases result

/-! ## Checking a planned range -/

/-- The check for a number on the list compares the present range of the area that the lookup
stops at. -/
theorem Linked.validateOverlapVmArea_cases (linked : s.Linked ps) (member : p ∈ ps)
    (numbered : (s.area p).Numbered vmaid) {vmastart vmaend : b.Word}
    (nonempty : vmastart < vmaend) :
    ∃ cur ret, s.FirstFrom ps vmaid cur ∧
      s.validateOverlapVmArea vmaid vmastart vmaend = some ret ∧
      (ret = 0 ↔ ¬ ∃ q ∈ ps, q ≠ cur ∧ (s.area cur).overlaps (s.area q) = true) := by
  obtain ⟨cur, first, hit⟩ := linked.exists_firstFrom member numbered.num_eq.ge
  rw [validateOverlapVmArea, if_neg (BitVec.not_le.mpr nonempty), hit]
  dsimp only
  cases walk : s.find (fun p => p ≠ cur && (s.area cur).overlaps (s.area p)) none s.mmap with
  | none => exact absurd walk (linked.find_ne_none _)
  | some result =>
      obtain ⟨prev, found⟩ := result
      cases found with
      | none =>
          refine ⟨cur, 0, first, rfl, iff_of_true rfl ?_⟩
          rintro ⟨q, here, other, meets⟩
          have passed := linked.find_all walk q here
          simp [other, meets] at passed
      | some q =>
          obtain ⟨before, after, rfl, -, stops, -⟩ := linked.find_some walk
          rw [Bool.and_eq_true, decide_eq_true_eq] at stops
          refine ⟨cur, -1, first, rfl, iff_of_false (by decide) ?_⟩
          exact not_not_intro ⟨q, by simp, stops⟩

/-- The check returns, and gives 0 exactly where the planned range is not empty and meets no
area but the given one. -/
def Validates (s : VmMap b) (ps : List Nat) (p : Nat) (vmaid : BitVec 32)
    (vmastart vmaend : b.Word) : Prop :=
  ∃ ret, s.validateOverlapVmArea vmaid vmastart vmaend = some ret ∧
    (ret = 0 ↔ vmastart < vmaend ∧ ∀ q ∈ ps, q ≠ p → ¬ (s.area q).Meets vmastart vmaend)

/-- For every list, every area on it and every planned range for its number: the check decides
about the planned range where that is empty, or where it meets another area just as the present
range of the area does that the lookup stops at. -/
theorem overlap_validated_iff (linked : s.Linked ps) (member : p ∈ ps)
    (numbered : (s.area p).Numbered vmaid) (vmastart vmaend : b.Word) :
    s.Validates ps p vmaid vmastart vmaend ↔
      vmaend ≤ vmastart ∨ ∃ cur, s.FirstFrom ps vmaid cur ∧
        ((∃ q ∈ ps, q ≠ cur ∧ (s.area cur).overlaps (s.area q) = true) ↔
          ∃ q ∈ ps, q ≠ p ∧ (s.area q).Meets vmastart vmaend) := by
  by_cases nonempty : vmastart < vmaend
  · obtain ⟨cur, ret, first, checked, passes⟩ :=
      linked.validateOverlapVmArea_cases member numbered nonempty
    have free : (vmastart < vmaend ∧ ∀ q ∈ ps, q ≠ p → ¬ (s.area q).Meets vmastart vmaend) ↔
        ¬ ∃ q ∈ ps, q ≠ p ∧ (s.area q).Meets vmastart vmaend := by
      simp [nonempty]
    rw [Validates, checked]
    simp only [Option.some.injEq, exists_eq_left']
    rw [passes, free, not_iff_not, or_iff_right (BitVec.not_le.mpr nonempty)]
    constructor
    · exact fun alike => ⟨cur, first, alike⟩
    · rintro ⟨cur', first', alike⟩
      rwa [first.unique first']
  · have empty : vmaend ≤ vmastart := BitVec.not_lt.mp nonempty
    refine iff_of_true ⟨-1, if_pos empty, iff_of_false (by decide) ?_⟩ (.inl empty)
    exact fun planned => nonempty planned.1

/-- Area 1 may grow up to where area 2 starts. -/
theorem overlap_validated_second : neighbours.Validates [0, 1, 2] 1 1 0x2000 0x4000 := by
  refine (overlap_validated_iff neighbours_linked (by decide) (by decide) _ _).mpr
    (.inr ⟨1, ⟨[0], [2], rfl, by decide, by decide⟩, ?_⟩)
  exact iff_of_false (by decide) (by decide)

/-- Area 0 is to be moved onto area 1. -/
theorem planned_overlap_passes : ¬ ∀ (s : VmMap .mm32) (ps : List Nat) (p : Nat)
    (vmaid : BitVec 32) (vmastart vmaend : Build.mm32.Word), s.Linked ps → p ∈ ps →
    (s.area p).Numbered vmaid → s.Validates ps p vmaid vmastart vmaend := by
  intro all
  obtain ⟨ret, checked, decides⟩ := all neighbours [0, 1, 2] 0 0 0x2000 0x3000 neighbours_linked
    (by decide) (by decide)
  have passes : neighbours.validateOverlapVmArea 0 0x2000 0x3000 = some 0 := by decide
  obtain rfl := Option.some.inj (checked.symm.trans passes)
  exact (decides.mp rfl).2 1 (by decide) (by decide) (by decide)

end VmMap

end SimpleOs.Mem
