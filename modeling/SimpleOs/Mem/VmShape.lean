import SimpleOs.Mem.VmList

/-!
# The area list over whole runs

Creating, merging, splitting and growing areas keep the invariant of the list when they
are careful, and with adding and removing so does every run of careful calls. A merge
that is not careful makes the list cyclic.
-/

namespace SimpleOs.Mem

open LinkedList (Path path_cons not_path_of_loop mem_after)

variable {b : Build}

/-! ## Areas joined, cut and grown -/

/-- A sum that is not below its first part does not wrap. -/
theorem toNat_add_of_le {w : Nat} {x y : BitVec w} (grows : x ≤ x + y) :
    (x + y).toNat = x.toNat + y.toNat := by
  have below := BitVec.le_def.mp grows
  rw [BitVec.toNat_add] at below ⊢
  by_cases fits : x.toNat + y.toNat < 2 ^ w
  · exact Nat.mod_eq_of_lt fits
  · have once : (x.toNat + y.toNat) % 2 ^ w = x.toNat + y.toNat - 2 ^ w := by
      rw [Nat.mod_eq_sub_mod (Nat.not_lt.mp fits)]
      apply Nat.mod_eq_of_lt
      omega
    omega

namespace VmArea.Sound

variable {low high vma : VmArea b}

theorem merge (sound : low.Sound) (sound' : high.Sound) (meet : low.vmEnd = high.vmStart) :
    (low.merge high).Sound := by
  have upto : low.vmStart ≤ high.vmStart :=
    BitVec.le_trans (BitVec.le_trans sound.low sound.high) (BitVec.le_of_eq meet)
  have beyond : low.vmEnd ≤ high.vmEnd :=
    BitVec.le_trans (BitVec.le_of_eq meet) (BitVec.le_trans sound'.low sound'.high)
  refine ⟨⟨?_, ?_, ?_⟩, ?_, ?_⟩
  · show low.vmStart ≤ if high.sbrk < low.sbrk then low.sbrk else high.sbrk
    split
    · exact sound.low
    · exact BitVec.le_trans upto sound'.low
  · show (if high.sbrk < low.sbrk then low.sbrk else high.sbrk) ≤ high.vmEnd
    split
    · exact BitVec.le_trans sound.high beyond
    · exact sound'.high
  · intro rg member
    obtain first | second := List.mem_append.mp member
    · obtain ⟨above, below⟩ := sound.inside rg first
      exact ⟨above, BitVec.le_trans below beyond⟩
    · obtain ⟨above, below⟩ := sound'.inside rg second
      exact ⟨BitVec.le_trans upto above, below⟩
  · intro rg member
    obtain first | second := List.mem_append.mp member
    · exact sound.points rg first
    · exact sound'.points rg second
  · refine List.pairwise_append.mpr ⟨sound.sorted, sound'.sorted, ?_⟩
    intro rg member rg' member'
    rw [sound.points rg member]
    exact BitVec.le_trans (sound.inside rg member).2
      (BitVec.le_trans (BitVec.le_of_eq meet) (sound'.inside rg' member').1)

theorem clear {vma : VmArea b} (sound : vma.Sound) :
    VmArea.Sound { vma with vmFreergList := [] } :=
  ⟨⟨sound.low, sound.high, by simp⟩, by simp, List.Pairwise.nil⟩

/-- Empty regions are not cut: those below the address stay, the others move. -/
theorem splitRegions_spec (splitAddr : b.Word) {regions : List (Region b)}
    (points : ∀ rg ∈ regions, rg.rgStart = rg.rgEnd)
    (sorted : regions.Pairwise fun rg rg' => rg.rgStart ≤ rg'.rgStart) :
    (splitRegions splitAddr regions).1 ++ (splitRegions splitAddr regions).2 = regions ∧
      (∀ rg ∈ (splitRegions splitAddr regions).1, rg.rgEnd ≤ splitAddr) ∧
        ∀ rg ∈ (splitRegions splitAddr regions).2, splitAddr ≤ rg.rgStart := by
  induction regions with
  | nil => simp [splitRegions]
  | cons rg rest ih =>
      obtain ⟨point, points⟩ := List.forall_mem_cons.mp points
      obtain ⟨least, sorted⟩ := List.pairwise_cons.mp sorted
      obtain ⟨parts, stay, move⟩ := ih points sorted
      rw [splitRegions]
      split
      next beyond =>
        refine ⟨rfl, by simp, List.forall_mem_cons.mpr ⟨beyond, ?_⟩⟩
        exact fun rg' member => BitVec.le_trans beyond (least rg' member)
      next below =>
        have ends : ¬ splitAddr < rg.rgEnd := by
          rw [← point]
          exact fun less => below (BitVec.le_of_lt less)
        rw [if_neg ends]
        exact ⟨by simp [parts], List.forall_mem_cons.mpr ⟨BitVec.not_lt.mp ends, stay⟩, move⟩

theorem lower (sound : vma.Sound) {splitAddr : b.Word} (above : vma.vmStart ≤ splitAddr)
    (newVma : Nat) : (vma.lower splitAddr newVma).Sound := by
  obtain ⟨parts, stay, -⟩ := splitRegions_spec splitAddr sound.points sound.sorted
  have old : (splitRegions splitAddr vma.vmFreergList).1.Sublist vma.vmFreergList := by
    conv_rhs => rw [← parts]
    exact List.sublist_append_left ..
  refine ⟨⟨?_, ?_, ?_⟩, ?_, sound.sorted.sublist old⟩
  · show vma.vmStart ≤ if splitAddr < vma.sbrk then splitAddr else vma.sbrk
    split
    · exact above
    · exact sound.low
  · show (if splitAddr < vma.sbrk then splitAddr else vma.sbrk) ≤ splitAddr
    split
    · exact BitVec.le_refl _
    · exact BitVec.not_lt.mp ‹_›
  · exact fun rg member => ⟨(sound.inside rg (old.subset member)).1, stay rg member⟩
  · exact fun rg member => sound.points rg (old.subset member)

theorem upper (sound : vma.Sound) {splitAddr : b.Word} (below : splitAddr ≤ vma.vmEnd) :
    (vma.upper splitAddr).Sound := by
  obtain ⟨parts, -, move⟩ := splitRegions_spec splitAddr sound.points sound.sorted
  have old : (splitRegions splitAddr vma.vmFreergList).2.Sublist vma.vmFreergList := by
    conv_rhs => rw [← parts]
    exact List.sublist_append_right ..
  refine ⟨⟨?_, ?_, ?_⟩, ?_, sound.sorted.sublist old⟩
  · show splitAddr ≤ if splitAddr < vma.sbrk then vma.sbrk else splitAddr
    split
    · exact BitVec.le_of_lt ‹_›
    · exact BitVec.le_refl _
  · show (if splitAddr < vma.sbrk then vma.sbrk else splitAddr) ≤ vma.vmEnd
    split
    · exact sound.high
    · exact below
  · exact fun rg member => ⟨move rg member, (sound.inside rg (old.subset member)).2⟩
  · exact fun rg member => sound.points rg (old.subset member)

theorem grow (sound : vma.Sound) {incSz incAmt : b.Word} (covers : incSz ≤ incAmt)
    (grows : vma.vmEnd ≤ vma.vmEnd + incAmt) :
    VmArea.Sound { vma with vmEnd := vma.vmEnd + incAmt, sbrk := vma.sbrk + incSz } := by
  have high := BitVec.le_def.mp sound.high
  have less := BitVec.le_def.mp covers
  have whole := toNat_add_of_le grows
  have part : (vma.sbrk + incSz).toNat = vma.sbrk.toNat + incSz.toNat := by
    apply BitVec.toNat_add_of_lt
    omega
  refine ⟨⟨?_, ?_, ?_⟩, sound.points, sound.sorted⟩
  · have low := BitVec.le_def.mp sound.low
    rw [BitVec.le_def, part]
    exact Nat.le_trans low (Nat.le_add_right _ _)
  · rw [BitVec.le_def, part, whole]
    omega
  · intro rg member
    obtain ⟨above, below⟩ := sound.inside rg member
    exact ⟨above, BitVec.le_trans below grows⟩

end VmArea.Sound

theorem VmArea.range_merge {low high : VmArea b} (meet : low.vmEnd = high.vmStart)
    {x : Region b} (apart : low.range.Disjoint x) (apart' : high.range.Disjoint x) :
    (low.merge high).range.Disjoint x := by
  rintro addr ⟨⟨above, under⟩, other⟩
  by_cases first : addr < low.vmEnd
  · exact apart addr ⟨⟨above, first⟩, other⟩
  · refine apart' addr ⟨⟨?_, under⟩, other⟩
    rw [BitVec.not_lt, meet] at first
    exact first

theorem VmArea.range_lower {vma : VmArea b} {splitAddr : b.Word} (below : splitAddr ≤ vma.vmEnd)
    (newVma : Nat) {x : Region b} (apart : vma.range.Disjoint x) :
    (vma.lower splitAddr newVma).range.Disjoint x := by
  rintro addr ⟨⟨above, under⟩, other⟩
  have inside := Nat.lt_of_lt_of_le (BitVec.lt_def.mp under) (BitVec.le_def.mp below)
  exact apart addr ⟨⟨above, BitVec.lt_def.mpr inside⟩, other⟩

theorem VmArea.range_upper {vma : VmArea b} {splitAddr : b.Word} (above : vma.vmStart ≤ splitAddr)
    {x : Region b} (apart : vma.range.Disjoint x) : (vma.upper splitAddr).range.Disjoint x := by
  rintro addr ⟨⟨beyond, under⟩, other⟩
  exact apart addr ⟨⟨BitVec.le_trans above beyond, under⟩, other⟩

theorem VmArea.lower_disjoint_upper (vma : VmArea b) (splitAddr : b.Word) (newVma : Nat) :
    (vma.lower splitAddr newVma).range.Disjoint (vma.upper splitAddr).range := by
  rintro addr ⟨⟨_, under⟩, beyond, _⟩
  exact BitVec.not_lt.mpr beyond under

namespace VmMap

/-! ## Creating, merging, splitting and growing -/

section Reshape

variable {s : VmMap b} {ps : List Nat}

theorem Kept.createVmArea (kept : s.Kept ps) (vmaid : BitVec 32) {vmStart vmEnd : b.Word}
    (order : vmStart ≤ vmEnd) : (s.createVmArea vmaid vmStart vmEnd).Kept ps := by
  have others : ∀ p ≠ s.fresh, (s.createVmArea vmaid vmStart vmEnd).area p = s.area p :=
    fun p other => area_setArea_of_ne s _ other
  have old : ∀ p ∈ ps, (s.createVmArea vmaid vmStart vmEnd).area p = s.area p :=
    fun p member => others p (kept.bound p member).ne
  refine ⟨?_, ?_, ?_, ?_, ?_, ?_, ?_⟩
  · apply kept.path.congr
    intro p member
    rw [next, next, old p member]
  · apply kept.ids.imp_of_mem
    intro p q member member' less
    rwa [old p member, old q member']
  · apply kept.apart.imp_of_mem
    intro p q member member' disjoint
    rwa [old p member, old q member']
  · intro p member
    rw [old p member]
    exact kept.owned p member
  · intro p below
    by_cases new : p = s.fresh
    · subst new
      have created : (s.createVmArea vmaid vmStart vmEnd).area s.fresh =
          ⟨vmaid.signExtend 64, vmStart, vmEnd, vmStart, false, [⟨vmStart, vmStart⟩], none⟩ :=
        area_setArea_self ..
      rw [created]
      refine ⟨⟨BitVec.le_refl _, order, ?_⟩, ?_, List.pairwise_singleton _ _⟩
      · simp [order]
      · simp
    · rw [others p new]
      exact kept.sound p (Nat.lt_of_le_of_ne (Nat.le_of_lt_succ below) new)
  · exact fun p member => Nat.lt_succ_of_lt (kept.bound p member)
  · intro p member
    obtain rfl | older := List.mem_cons.mp member
    · exact Nat.lt_succ_self _
    · exact Nat.lt_succ_of_lt (kept.made p older)

theorem Kept.apart_of_ne (kept : s.Kept ps) {p q : Nat} (member : p ∈ ps) (member' : q ∈ ps)
    (other : p ≠ q) : (s.area p).range.Disjoint (s.area q).range := by
  have symm : Std.Symm fun p q => (s.area p).range.Disjoint (s.area q).range :=
    ⟨fun _ _ => Region.Disjoint.symm⟩
  exact kept.apart.forall member member' other

/-- Areas that keep their ids may be changed, and some be linked out. -/
theorem Kept.reshape {t : VmMap b} {qs : List Nat} (kept : s.Kept ps) (fewer : qs.Sublist ps)
    (fresh : t.fresh = s.fresh) (made : t.made = s.made)
    (alike : ∀ p, (t.area p).vmId = (s.area p).vmId ∧ (t.area p).vmMm = (s.area p).vmMm)
    (path : Path t.next t.mmap qs none)
    (apart : ∀ p ∈ qs, ∀ q ∈ qs, p ≠ q → (t.area p).range.Disjoint (t.area q).range)
    (sound : ∀ p < s.fresh, (t.area p).Sound) : t.Kept qs where
  path := path
  ids := by
    apply (kept.ids.sublist fewer).imp
    intro p q less
    rwa [(alike p).1, (alike q).1]
  apart := (kept.nodup.sublist fewer).pairwise_of_forall_ne apart
  owned := by
    intro p member
    rw [(alike p).2]
    exact kept.owned p (fewer.subset member)
  sound := fresh ▸ sound
  bound := by
    intro p member
    rw [fresh]
    exact kept.bound p (fewer.subset member)
  made := by
    rw [fresh, made]
    exact kept.made

/-- One area is changed, and some are linked out. -/
theorem Kept.setArea {p : Nat} {vma : VmArea b} {qs : List Nat} (kept : s.Kept ps)
    (fewer : qs.Sublist ps) (alike : vma.vmId = (s.area p).vmId ∧ vma.vmMm = (s.area p).vmMm)
    (path : Path (Function.update s.next p vma.vmNext) s.mmap qs none)
    (apart : p ∈ qs → ∀ q ∈ qs, q ≠ p → vma.range.Disjoint (s.area q).range) (sound : vma.Sound) :
    (s.setArea p vma).Kept qs := by
  have changed : (s.setArea p vma).area p = vma := area_setArea_self ..
  have others : ∀ q ≠ p, (s.setArea p vma).area q = s.area q :=
    fun q other => area_setArea_of_ne s vma other
  refine kept.reshape fewer rfl rfl ?_ ?_ ?_ ?_
  · intro q
    by_cases same : q = p
    · rw [same, changed]
      exact alike
    · rw [others q same]
      exact ⟨rfl, rfl⟩
  · rw [next_setArea]
    exact path
  · intro q here q' here' distinct
    by_cases same : q = p
    · subst same
      rw [changed, others q' distinct.symm]
      exact apart here q' here' distinct.symm
    by_cases same' : q' = p
    · subst same'
      rw [changed, others q distinct]
      exact (apart here' q here distinct).symm
    · rw [others q same, others q' same']
      exact kept.apart_of_ne (fewer.subset here) (fewer.subset here') distinct
  · intro q below
    by_cases same : q = p
    · rw [same, changed]
      exact sound
    · rw [others q same]
      exact kept.sound q below

/-- The path past what lies between two areas, the upper one included. -/
theorem Kept.bypass {lo hi : Nat} (kept : s.Kept ps) (member : lo ∈ ps) (member' : hi ∈ ps)
    (order : (s.area lo).vmId ≤ (s.area hi).vmId) :
    ∃ qs, qs.Sublist ps ∧ Path (Function.update s.next lo (s.next hi)) s.mmap qs none ∧
      ∀ p ∈ qs, p ≠ lo → p ≠ hi := by
  by_cases same : hi = lo
  · subst same
    rw [Function.update_eq_self]
    exact ⟨ps, .refl ps, kept.path, fun _ _ other => other⟩
  obtain ⟨before, rest, rfl⟩ := List.append_of_mem member
  have later : hi ∈ rest := by
    obtain early | rfl | later : hi ∈ before ∨ hi = lo ∨ hi ∈ rest := by simpa using member'
    · have less := (List.pairwise_append.mp kept.ids).2.2 hi early lo (by simp)
      exact absurd less (BitVec.not_lt.mpr order)
    · exact absurd rfl same
    · exact later
  obtain ⟨mid, after, rfl⟩ := List.append_of_mem later
  have fewer : (lo :: after).Sublist (lo :: (mid ++ hi :: after)) :=
    ((List.sublist_cons_self hi after).trans (List.sublist_append_right mid _)).cons_cons lo
  refine ⟨before ++ lo :: after, (List.Sublist.refl before).append fewer,
    kept.path.unlink kept.nodup, ?_⟩
  rintro p here - rfl
  have nodup := kept.nodup
  rw [← List.cons_append, ← List.append_assoc] at nodup
  obtain ⟨-, tail, distinct⟩ := List.nodup_append.mp nodup
  obtain early | rfl | late : p ∈ before ∨ p = lo ∨ p ∈ after := by simpa using here
  · exact distinct p (by simp [early]) p (by simp) rfl
  · exact same rfl
  · exact (List.nodup_cons.mp tail).1 late

/-- A merge with an area that comes later on the list. -/
theorem Kept.merge {lo hi : Nat} (kept : s.Kept ps) (member : lo ∈ ps) (member' : hi ∈ ps)
    (order : (s.area lo).vmId ≤ (s.area hi).vmId) (meet : (s.area lo).vmEnd = (s.area hi).vmStart)
    {t u : VmMap b} (stored : t = s.setArea lo ((s.area lo).merge (s.area hi)))
    (cleared : u = t.setArea hi { t.area hi with vmFreergList := [] }) : ∃ qs, u.Kept qs := by
  obtain ⟨qs, fewer, path, others⟩ := kept.bypass member member' order
  have below := kept.bound hi member'
  have merged : t.Kept qs := by
    rw [stored]
    refine kept.setArea fewer ⟨rfl, rfl⟩ path ?_
      ((kept.sound lo (kept.bound lo member)).merge (kept.sound hi below) meet)
    intro _ p here other
    have there := fewer.subset here
    exact VmArea.range_merge meet (kept.apart_of_ne member there other.symm)
      (kept.apart_of_ne member' there (others p here other).symm)
  refine ⟨qs, ?_⟩
  rw [cleared]
  refine merged.setArea (.refl qs) ⟨rfl, rfl⟩ ?_ ?_ (merged.sound hi ?_).clear
  · have links : Function.update t.next hi (t.next hi) = t.next := Function.update_eq_self hi t.next
    exact links.symm ▸ merged.path
  · exact fun here q here' other => merged.apart_of_ne here here' other.symm
  · rw [stored]
    exact below

theorem byStart_cases (s : VmMap b) (vma1 vma2 : Nat) :
    s.byStart vma1 vma2 = (vma2, vma1) ∨ s.byStart vma1 vma2 = (vma1, vma2) := by
  rw [byStart]
  split
  · exact .inl rfl
  · exact .inr rfl

theorem Kept.mergeVmAreas {vma1 vma2 : Nat} (kept : s.Kept ps) (member : vma1 ∈ ps)
    (member' : vma2 ∈ ps) (careful : s.Careful (.mergeVmAreas vma1 vma2)) :
    ∃ qs, (s.mergeVmAreas vma1 vma2).1.Kept qs := by
  rw [VmMap.mergeVmAreas]
  split
  next => exact ⟨ps, kept⟩
  next adjacent =>
    have members : (s.byStart vma1 vma2).1 ∈ ps ∧ (s.byStart vma1 vma2).2 ∈ ps := by
      obtain same | same := s.byStart_cases vma1 vma2 <;> rw [same]
      · exact ⟨member', member⟩
      · exact ⟨member, member'⟩
    obtain ⟨apart, apart'⟩ | ⟨order, meet⟩ := careful
    · refine absurd ?_ adjacent
      obtain same | same := s.byStart_cases vma1 vma2 <;> rw [same] at apart apart'
      · exact ⟨apart', apart⟩
      · exact ⟨apart, apart'⟩
    · exact kept.merge members.1 members.2 order meet rfl rfl

section Split

variable {before after : List Nat} {vma p : Nat} {splitAddr : b.Word} {t : VmMap b}

/-- A split leaves the ids and the owners of the list. -/
theorem SplitAt.alike (split : SplitAt s t before vma after splitAddr)
    (kept : s.Kept (before ++ vma :: after)) (here : p ∈ before ++ vma :: after) :
    (t.area p).vmId = (s.area p).vmId ∧ (t.area p).vmMm = (s.area p).vmMm := by
  by_cases cut : p = vma
  · subst cut
    rw [split.lower]
    exact ⟨rfl, rfl⟩
  · rw [split.others p cut (kept.bound p here).ne]
    exact ⟨rfl, rfl⟩

/-- A split takes no addresses into an area of the list. -/
theorem SplitAt.shrinks (split : SplitAt s t before vma after splitAddr)
    (kept : s.Kept (before ++ vma :: after)) (below : splitAddr ≤ (s.area vma).vmEnd)
    (here : p ∈ before ++ vma :: after) {x : Region b} (apart : (s.area p).range.Disjoint x) :
    (t.area p).range.Disjoint x := by
  by_cases cut : p = vma
  · subst cut
    rw [split.lower]
    exact VmArea.range_lower below _ apart
  · rwa [split.others p cut (kept.bound p here).ne]

/-- The new area of a split has no address of an area of the list. -/
theorem SplitAt.beside (split : SplitAt s t before vma after splitAddr)
    (kept : s.Kept (before ++ vma :: after)) (above : (s.area vma).vmStart ≤ splitAddr)
    (here : p ∈ before ++ vma :: after) : (t.area p).range.Disjoint (t.area s.fresh).range := by
  rw [split.upper]
  by_cases cut : p = vma
  · subst cut
    rw [split.lower]
    exact VmArea.lower_disjoint_upper _ _ _
  · rw [split.others p cut (kept.bound p here).ne]
    exact (VmArea.range_upper above (kept.apart_of_ne (by simp) here (Ne.symm cut))).symm

/-- A split under an id that nothing on the list has. -/
theorem Kept.split (kept : s.Kept (before ++ vma :: after))
    (split : SplitAt s t before vma after splitAddr) (above : (s.area vma).vmStart ≤ splitAddr)
    (below : splitAddr ≤ (s.area vma).vmEnd)
    (successor : (s.area vma).vmId < (s.area vma).vmId + 1)
    (vacant : ∀ p ∈ before ++ vma :: after, (s.area p).vmId ≠ (s.area vma).vmId + 1) :
    t.Kept (before ++ vma :: s.fresh :: after) := by
  have member : vma ∈ before ++ vma :: after := by simp
  have early : ∀ p ∈ before, p ∈ before ++ vma :: after := fun _ => List.mem_append_left _
  have late : ∀ p ∈ after, p ∈ before ++ vma :: after := by
    intro p here
    simp [here]
  obtain ⟨-, sorted, ordered⟩ := List.pairwise_append.mp kept.ids
  obtain ⟨greater, -⟩ := List.pairwise_cons.mp sorted
  refine ⟨split.linked.path, ?_, ?_, ?_, ?_, split.linked.bound, ?_⟩
  · refine pairwise_insert_after ?_ ?_ ?_ ?_
    · apply kept.ids.imp_of_mem
      intro p q here here' less
      rwa [(split.alike kept here).1, (split.alike kept here').1]
    · intro p here
      rw [(split.alike kept (early p here)).1, split.upper]
      exact BitVec.lt_trans (ordered p here vma (by simp)) successor
    · rw [(split.alike kept member).1, split.upper]
      exact successor
    · intro p here
      rw [(split.alike kept (late p here)).1, split.upper]
      have other := vacant p (late p here)
      have more := greater p here
      show (s.area vma).vmId + 1 < (s.area p).vmId
      bv_omega
  · refine pairwise_insert_after ?_ ?_ ?_ ?_
    · apply kept.apart.imp_of_mem
      intro p q here here' apart
      exact split.shrinks kept below here (split.shrinks kept below here' apart.symm).symm
    · exact fun p here => split.beside kept above (early p here)
    · exact split.beside kept above member
    · exact fun p here => (split.beside kept above (late p here)).symm
  · intro p here
    obtain rfl | here := mem_after.mp here
    · rw [split.upper]
      exact kept.owned vma member
    · rw [(split.alike kept here).2]
      exact kept.owned p here
  · intro p less
    have whole := kept.sound vma (kept.bound vma member)
    by_cases cut : p = vma
    · subst cut
      rw [split.lower]
      exact whole.lower above _
    by_cases new : p = s.fresh
    · subst new
      rw [split.upper]
      exact whole.upper below
    · rw [split.others p cut new]
      refine kept.sound p (Nat.lt_of_le_of_ne (Nat.le_of_lt_succ ?_) new)
      rwa [split.fresh] at less
  · intro p here
    rw [split.made] at here
    rw [split.fresh]
    exact Nat.lt_succ_of_lt (kept.made p here)

end Split

theorem Kept.splitVmArea {vma : Nat} {splitAddr : b.Word} (kept : s.Kept ps) (member : vma ∈ ps)
    (careful : s.Careful (.splitVmArea vma splitAddr)) :
    ∃ qs, (s.splitVmArea vma splitAddr).1.Kept qs := by
  by_cases outside : splitAddr ≤ (s.area vma).vmStart ∨ (s.area vma).vmEnd ≤ splitAddr
  · rw [VmMap.splitVmArea, if_pos outside]
    exact ⟨ps, kept⟩
  · obtain ⟨successor, vacant⟩ := careful.resolve_left outside
    rw [not_or, BitVec.not_le, BitVec.not_le] at outside
    obtain ⟨low, high⟩ := outside
    have fresh : ∀ p ∈ ps, (s.area p).vmId ≠ (s.area vma).vmId + 1 :=
      fun p here => vacant p (kept.bound p here) ((kept.linked.listed_iff p).mpr here)
    obtain ⟨before, after, rfl⟩ := List.append_of_mem member
    obtain ⟨t, done, split⟩ := kept.linked.splitVmArea low high
    rw [done]
    exact ⟨_, kept.split split (BitVec.le_of_lt low) (BitVec.le_of_lt high) successor fresh⟩

section Grow

variable {p : Nat} {incSz : b.Word}

/-- Growing an area leaves the links and the ids, so searches for an id, alone. -/
theorem find_grown (stop : Nat → Bool) (prev cur : Option Nat) :
    (s.grown p incSz).find stop prev cur = s.find stop prev cur := by
  have links : (s.grown p incSz).next = s.next := next_setArea_of_link s p rfl
  rw [VmMap.find, links]
  rfl

theorem vmId_grown (q : Nat) : ((s.grown p incSz).area q).vmId = (s.area q).vmId := by
  by_cases same : q = p
  · subst same
    rw [grown, area_setArea_self]
  · rw [grown, area_setArea_of_ne _ _ same]

theorem getVmaByNum_grown (vmaid : BitVec 32) :
    (s.grown p incSz).getVmaByNum vmaid = s.getVmaByNum vmaid := by
  rw [getVmaByNum, getVmaByNum]
  simp only [find_grown, vmId_grown]
  rfl

theorem Kept.mem_of_getVmaByNum {vmaid : BitVec 32} (kept : s.Kept ps)
    (hit : s.getVmaByNum vmaid = some (some p)) : p ∈ ps := by
  rw [getVmaByNum] at hit
  split at hit
  next => cases hit
  next =>
    split at hit
    next prev q found =>
      cases hit
      obtain ⟨before, after, rfl, -⟩ := kept.linked.find_some found
      simp
    next => cases hit

/-- What the overlap check lets pass. -/
theorem Kept.validateOverlapVmArea {vmaid : BitVec 32} {vmastart vmaend : b.Word} {overlap : Int}
    (kept : s.Kept ps) (hit : s.getVmaByNum vmaid = some (some p))
    (valid : (s.grown p incSz).validateOverlapVmArea vmaid vmastart vmaend = some overlap)
    (passes : ¬ overlap < 0) :
    ¬ vmaend ≤ vmastart ∧
      ∀ q ∈ ps, q ≠ p → ((s.grown p incSz).area p).overlaps (s.area q) = false := by
  rw [VmMap.validateOverlapVmArea, getVmaByNum_grown, hit] at valid
  split at valid
  next =>
    cases valid
    exact absurd (by decide) passes
  next nonempty =>
    refine ⟨nonempty, ?_⟩
    simp only [find_grown] at valid
    split at valid
    next => cases valid
    next =>
      cases valid
      exact absurd (by decide) passes
    next prev none =>
      intro q member other
      have free := kept.linked.find_all none q member
      have same : (s.grown p incSz).area q = s.area q := area_setArea_of_ne s _ other
      simpa [other, same] using free

theorem Kept.incVmaLimit {vmaid : BitVec 32} {t : VmMap b} {ret : Int} (kept : s.Kept ps)
    (careful : s.Careful (.incVmaLimit vmaid incSz))
    (done : s.incVmaLimit vmaid incSz = some (t, ret)) : t.Kept ps := by
  rw [VmMap.incVmaLimit] at done
  split at done
  next => cases done
  next =>
    cases done
    exact kept
  next p hit =>
    have member := kept.mem_of_getVmaByNum hit
    dsimp only at done
    split at done
    next => cases done
    next overlap valid =>
      split at done
      next =>
        cases done
        exact kept
      next passes =>
        cases done
        obtain ⟨nonempty, free⟩ := kept.validateOverlapVmArea hit valid passes
        obtain (empty | ⟨q, _, listed, other, overlaps⟩) | ⟨covers, grows⟩ :=
          careful p (kept.bound p member) hit
        · exact absurd empty nonempty
        · rw [free q ((kept.linked.listed_iff q).mp listed) other] at overlaps
          cases overlaps
        have grown_area : (s.grown p incSz).area p = { s.area p with
            vmEnd := (s.area p).vmEnd + b.pageAlignsz incSz
            sbrk := (s.area p).sbrk + incSz } := area_setArea_self ..
        rw [grown_area] at grows
        refine kept.setArea (.refl ps) ⟨rfl, rfl⟩ ?_ ?_
          ((kept.sound p (kept.bound p member)).grow covers grows)
        · have links : Function.update s.next p (s.next p) = s.next := Function.update_eq_self p s.next
          exact links.symm ▸ kept.path
        · intro _ q here other
          have apart := VmArea.disjoint_of_overlaps (free q here other)
          rwa [grown_area] at apart

end Grow

end Reshape

/-! ## Runs -/

/-- On a list that is kept the walks of `add_vm_area` and `remove_vm_area` end. -/
theorem Kept.returns {s : VmMap b} {ps : List Nat} (kept : s.Kept ps) (newVma : Nat)
    (vmaid : BitVec 32) : (s.addVmArea newVma).isSome ∧ (s.removeVmArea vmaid).isSome := by
  constructor
  · rw [VmMap.addVmArea]
    split
    next stuck => exact absurd stuck (kept.linked.find_ne_none _)
    next => rfl
    next =>
      rw [Option.isSome_map]
      exact (kept.own newVma).insertById_isSome newVma
  · rw [VmMap.removeVmArea]
    split
    next => rfl
    next =>
      split
      next stuck => exact absurd stuck (kept.linked.find_ne_none _)
      next => rfl
      next => rfl

theorem Kept.step {s t : VmMap b} {ps : List Nat} {call : VmCall b} (kept : s.Kept ps)
    (careful : s.Careful call) (step : (vmSystem b).step s call = some t) : ∃ qs, t.Kept qs := by
  cases call with
  | createVmArea vmaid vmStart vmEnd =>
      obtain ⟨order, same⟩ := Option.ite_none_right_eq_some.mp step
      cases same
      exact ⟨ps, kept.createVmArea vmaid order⟩
  | addVmArea newVma =>
      obtain ⟨made, added⟩ := Option.ite_none_right_eq_some.mp step
      obtain ⟨⟨t, ret⟩, done, rfl⟩ := Option.map_eq_some_iff.mp added
      exact kept.addVmArea made careful done
  | removeVmArea vmaid =>
      obtain ⟨⟨t, ret⟩, done, rfl⟩ := Option.map_eq_some_iff.mp step
      exact kept.removeVmArea done
  | mergeVmAreas vma1 vma2 =>
      obtain ⟨listed, same⟩ := Option.ite_none_right_eq_some.mp step
      cases same
      obtain ⟨first, second⟩ := Bool.and_eq_true_iff.mp listed
      exact kept.mergeVmAreas ((kept.linked.listed_iff _).mp first) ((kept.linked.listed_iff _).mp second) careful
  | splitVmArea vma splitAddr =>
      obtain ⟨listed, same⟩ := Option.ite_none_right_eq_some.mp step
      cases same
      exact kept.splitVmArea ((kept.linked.listed_iff _).mp listed) careful
  | incVmaLimit vmaid incSz =>
      obtain ⟨⟨t, ret⟩, done, rfl⟩ := Option.map_eq_some_iff.mp step
      exact ⟨ps, kept.incVmaLimit careful done⟩

/-- In every run of careful calls the list of areas keeps its invariant. -/
theorem vma_list_kept (b : Build) (calls : List (VmCall b)) (s : VmMap b)
    (careful : (vmSystem b).StepsMeet Careful (.init b) calls)
    (run : (vmSystem b).run (.init b) calls = some s) : s.WellLinked := by
  have kept := TransitionSystem.run_of_stepsMeet (P := fun s : VmMap b => ∃ ps, s.Kept ps)
    (fun s call t held careful step => held.elim fun ps kept => kept.step careful step)
    ⟨[0], kept_init b⟩ careful run
  obtain ⟨ps, kept⟩ := kept
  exact kept.wellLinked

instance (s : VmMap b) : (call : VmCall b) → Decidable (s.Careful call)
  | .createVmArea _ _ _ => .isTrue trivial
  | .addVmArea newVma => inferInstanceAs (Decidable
      ((∃ p < s.fresh, s.listed p ∧ (s.area p).overlaps (s.area newVma)) ∨
        ∀ p < s.fresh, s.listed p → (s.area p).vmId ≠ (s.area newVma).vmId))
  | .removeVmArea _ => .isTrue trivial
  | .mergeVmAreas vma1 vma2 => inferInstanceAs (Decidable
      (((s.area (s.byStart vma1 vma2).1).vmEnd ≠ (s.area (s.byStart vma1 vma2).2).vmStart ∧
          (s.area (s.byStart vma1 vma2).2).vmEnd ≠ (s.area (s.byStart vma1 vma2).1).vmStart) ∨
        ((s.area (s.byStart vma1 vma2).1).vmId ≤ (s.area (s.byStart vma1 vma2).2).vmId ∧
          (s.area (s.byStart vma1 vma2).1).vmEnd = (s.area (s.byStart vma1 vma2).2).vmStart)))
  | .splitVmArea vma splitAddr => inferInstanceAs (Decidable
      ((splitAddr ≤ (s.area vma).vmStart ∨ (s.area vma).vmEnd ≤ splitAddr) ∨
        ((s.area vma).vmId < (s.area vma).vmId + 1 ∧
          ∀ p < s.fresh, s.listed p → (s.area p).vmId ≠ (s.area vma).vmId + 1)))
  | .incVmaLimit vmaid incSz => inferInstanceAs (Decidable
      (∀ p < s.fresh, s.getVmaByNum vmaid = some (some p) →
        let vma := (s.grown p incSz).area p
        (vma.vmEnd ≤ vma.vmStart ∨
            ∃ q < s.fresh, s.listed q ∧ q ≠ p ∧ vma.overlaps (s.area q)) ∨
          (incSz ≤ b.pageAlignsz incSz ∧ (s.area p).vmEnd ≤ vma.vmEnd)))

/-- Areas 1 and 2 side by side, and area 0 grown to a page, which is then cut; areas 1
and 2 are merged, and what is left of the two is removed. -/
def carefulCalls : List (VmCall .mm32) :=
  [.createVmArea 2 0x2000 0x3000, .addVmArea 1, .createVmArea 3 0x3000 0x4000, .addVmArea 2,
    .incVmaLimit 0 300, .splitVmArea 0 0x80, .mergeVmAreas 1 2, .removeVmArea 2]

theorem vma_list_kept_careful : ∃ s, (vmSystem .mm32).run (.init .mm32) carefulCalls = some s ∧
    s.WellLinked := by
  have runs : ((vmSystem .mm32).run (.init .mm32) carefulCalls).isSome = true := by
    decide +kernel
  obtain ⟨s, run⟩ := Option.isSome_iff_exists.mp runs
  exact ⟨s, run, vma_list_kept .mm32 carefulCalls s (by decide +kernel) run⟩

/-- Two areas side by side, the upper one with the smaller id. -/
def crossedCalls : List (VmCall .mm32) :=
  [.createVmArea 1 0x2000 0x3000, .addVmArea 1, .createVmArea 2 0x1000 0x2000, .addVmArea 2,
    .mergeVmAreas 1 2]

/-- The merge links the area that starts first, the last on the list, to itself. -/
theorem merge_links_to_itself : ¬ ∀ (b : Build) (calls : List (VmCall b)) (s : VmMap b),
    (vmSystem b).run (.init b) calls = some s → s.WellLinked := by
  intro kept
  have cycle : ((vmSystem .mm32).run (.init .mm32) crossedCalls).any (fun s =>
      decide (s.mmap = some 0) && decide (s.next 0 = some 1) && decide (s.next 1 = some 2) &&
        decide (s.next 2 = some 2)) = true := by
    decide +kernel
  obtain ⟨s, run, facts⟩ := (Option.any_eq_true _ _).mp cycle
  simp only [Bool.and_eq_true, decide_eq_true_eq] at facts
  obtain ⟨⟨⟨start, first⟩, second⟩, loop⟩ := facts
  obtain ⟨ps, path, -⟩ := kept .mm32 crossedCalls s run
  rw [start] at path
  obtain ⟨ps, path⟩ := path.tail
  rw [first] at path
  obtain ⟨ps, path⟩ := path.tail
  rw [second] at path
  exact not_path_of_loop loop path

end VmMap

end SimpleOs.Mem
