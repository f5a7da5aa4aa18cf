import SimpleOs.Lib.Transition
import SimpleOs.Mem.Device

/-!
# Where the frames of a device are

A caller gets frames from a device and puts back what it holds. Over any sequence of such calls
the free list, the used list and the frames the caller holds are together the frames there were
at first. `MEMPHY_get_usedfp` keeps these accounts although it takes the first free frame
instead of the one it is asked for; `MEMPHY_validate`, which only counts, sees nothing else than
lists that are too long.
-/

namespace SimpleOs.Mem

variable {b : Build} {M : Type}

/-- The frames of a used list. -/
abbrev framesOf (used : List (b.Word × Option M)) : List b.Word := used.map Prod.fst

/-- A device, and the frames that its caller has got and not put back. -/
structure FramePool (b : Build) (M : Type) where
  device : Device b M
  held : List b.Word

inductive FrameCall (b : Build) (M : Type) where
  | getFreefp
  | putFreefp (fpn : b.Word)
  | getUsedfp (fpn : b.Word) (owner : Option M)
  | putUsedfp (fpn : b.Word) (owner : Option M)
  | removeUsedfp (fpn : b.Word)
  | freeUsedfp (fpn : b.Word)

/-- Only frames that the caller holds are put. -/
def FrameCall.Allowed (held : List b.Word) : FrameCall b M → Prop
  | .putFreefp fpn => fpn ∈ held
  | .putUsedfp fpn _ => fpn ∈ held
  | _ => True

/-- A device with all its frames on the free list. -/
structure Device.Stocked (n : Nat) (d : Device b M) : Prop where
  storage : d.storage ≠ none
  frames : d.totalFrames = n
  nonempty : 1 ≤ n
  lists : d.Lists (stock b n) []

/-- The calls of a caller that puts frames it holds only. The nodes it asks for are granted. -/
def frameSystem (b : Build) (M : Type) : TransitionSystem (FramePool b M) (FrameCall b M) where
  init s := (∃ n, s.device.Stocked n) ∧ s.held = []
  step s
    | .getFreefp =>
        match s.device.getFreefp with
        | none => some s
        | some (fpn, d) => some ⟨d, fpn :: s.held⟩
    | .putFreefp fpn =>
        if fpn ∈ s.held then (s.device.putFreefp true fpn).map fun d => ⟨d, s.held.erase fpn⟩
        else none
    | .getUsedfp fpn owner => some ⟨(s.device.getUsedfp true fpn owner).1, s.held⟩
    | .putUsedfp fpn owner =>
        if fpn ∈ s.held then some ⟨(s.device.putUsedfp true fpn owner).1, s.held.erase fpn⟩
        else none
    | .removeUsedfp fpn =>
        (s.device.removeUsedfp fpn).map fun (d, ret) =>
          ⟨d, if ret = 0 then fpn :: s.held else s.held⟩
    | .freeUsedfp fpn => (s.device.freeUsedfp true fpn).map fun (d, _) => ⟨d, s.held⟩

/-- The frames are on the lists and in the hands of the caller, each in one place. -/
structure Accounted (n : Nat) (s : FramePool b M) : Prop where
  storage : s.device.storage ≠ none
  frames : s.device.totalFrames = n
  nonempty : 1 ≤ n
  lists : ∃ free used, s.device.Lists free used ∧
    (free ++ framesOf used ++ s.held).Perm (stock b n)

theorem accounted_init {s : FramePool b M} {n : Nat} (stocked : s.device.Stocked n)
    (none : s.held = []) : Accounted n s := by
  refine ⟨stocked.storage, stocked.frames, stocked.nonempty, stock b n, [], stocked.lists, ?_⟩
  rw [none]
  simp

/-- What is taken off the used list is no longer among its frames. -/
theorem perm_eraseP {used : List (b.Word × Option M)} {fpn : b.Word}
    (present : ∃ e ∈ used, e.1 = fpn) :
    (fpn :: framesOf (used.eraseP fun e => e.1 = fpn)).Perm (framesOf used) := by
  obtain ⟨e, member, same⟩ := present
  obtain ⟨hit, before, after, -, meets, split, erased⟩ :=
    List.exists_of_eraseP (p := fun e => decide (e.1 = fpn)) member (decide_eq_true same)
  rw [erased, split, framesOf, framesOf, List.map_append, List.map_append, List.map_cons,
    of_decide_eq_true meets]
  exact List.perm_middle.symm

namespace Accounted

variable {s : FramePool b M} {n : Nat} {free : List b.Word} {used : List (b.Word × Option M)}
  {d : Device b M} {fpn : b.Word}

/-- A step that rearranges the frames. -/
theorem rearrange {held : List b.Word} (accounted : Accounted n s)
    (lists : d.Lists free used) (same : s.device.SameBytes d)
    (perm : (free ++ framesOf used ++ held).Perm (stock b n)) : Accounted n ⟨d, held⟩ := by
  refine ⟨?_, same.totalFrames.trans accounted.frames, accounted.nonempty, free, used, lists, perm⟩
  rw [same.storage]
  exact accounted.storage

/-- A frame that is put leaves the hands of the caller. -/
theorem perm_put {held others : List b.Word} (holds : fpn ∈ held) :
    (fpn :: (others ++ held.erase fpn)).Perm (others ++ held) :=
  List.perm_middle.symm.trans ((List.perm_cons_erase holds).symm.append_left others)

/-- A frame is taken off the used list and given to the free list, or to the caller. -/
theorem perm_removed {others : List b.Word} (present : ∃ e ∈ used, e.1 = fpn) :
    (fpn :: free ++ framesOf (used.eraseP fun e => e.1 = fpn) ++ others).Perm
      (free ++ framesOf used ++ others) :=
  (List.perm_middle.symm.trans ((perm_eraseP present).append_left free)).append_right others

/-- Every allowed call completes and keeps the accounts. -/
theorem step (accounted : Accounted n s) {call : FrameCall b M} (allowed : call.Allowed s.held) :
    ∃ t, (frameSystem b M).step s call = some t ∧ Accounted n t := by
  obtain ⟨free, used, lists, perm⟩ := accounted.lists
  cases call with
  | getFreefp =>
      cases free with
      | nil => exact ⟨s, by simp only [frameSystem, lists.getFreefp_nil], accounted⟩
      | cons first free =>
          obtain ⟨head, got, rest⟩ := lists.getFreefp_cons
          refine ⟨⟨s.device.setFree head, first :: s.held⟩, by simp only [frameSystem, got], ?_⟩
          exact accounted.rearrange rest ⟨rfl, rfl⟩ (List.perm_middle.trans perm)
  | putFreefp fpn =>
      obtain ⟨d, put, after, same⟩ := lists.putFreefp fpn
      refine ⟨⟨d, s.held.erase fpn⟩, ?_, ?_⟩
      · exact (if_pos allowed).trans (by rw [put]; rfl)
      · exact accounted.rearrange after same ((perm_put allowed).trans perm)
  | getUsedfp fpn owner =>
      refine ⟨_, rfl, ?_⟩
      cases free with
      | nil =>
          rw [lists.getUsedfp_nil]
          exact accounted
      | cons first free =>
          obtain ⟨d, got, after, same⟩ := lists.getUsedfp_cons true fpn owner
          rw [got]
          exact accounted.rearrange after same
            ((List.perm_middle.append_right s.held).trans perm)
  | putUsedfp fpn owner =>
      obtain ⟨d, put, after, same⟩ := lists.putUsedfp fpn owner
      refine ⟨⟨d, s.held.erase fpn⟩, ?_, ?_⟩
      · exact (if_pos allowed).trans (by rw [put])
      · refine accounted.rearrange after same (.trans ?_ ((perm_put allowed).trans perm))
        exact List.perm_middle.append_right (s.held.erase fpn)
  | removeUsedfp fpn =>
      by_cases present : ∃ e ∈ used, e.1 = fpn
      · obtain ⟨d, removed, after, same⟩ := lists.removeUsedfp present
        refine ⟨⟨d, fpn :: s.held⟩, by simp only [frameSystem, removed]; rfl, ?_⟩
        exact accounted.rearrange after same
          (List.perm_middle.trans ((perm_removed present).trans perm))
      · exact ⟨s, by simp only [frameSystem, lists.removeUsedfp_of_absent present]; rfl, accounted⟩
  | freeUsedfp fpn =>
      by_cases present : ∃ e ∈ used, e.1 = fpn
      · obtain ⟨d, freed, after, same⟩ := lists.freeUsedfp present
        refine ⟨⟨d, s.held⟩, by simp only [frameSystem, freed]; rfl, ?_⟩
        exact accounted.rearrange after same ((perm_removed present).trans perm)
      · exact ⟨s, by simp only [frameSystem, lists.freeUsedfp_of_absent present]; rfl, accounted⟩

theorem run (accounted : Accounted n s) {calls : List (FrameCall b M)} {t : FramePool b M}
    (run : (frameSystem b M).run s calls = some t) : Accounted n t := by
  refine TransitionSystem.run_preserves ?_ run accounted
  intro s call t accounted step
  by_cases allowed : call.Allowed s.held
  · obtain ⟨t', step', after⟩ := accounted.step allowed
    obtain rfl := Option.some.inj (step.symm.trans step')
    exact after
  · -- the guard turns down a frame that the caller does not hold
    cases call with
    | putFreefp fpn => cases step.symm.trans (if_neg allowed)
    | putUsedfp fpn owner => cases step.symm.trans (if_neg allowed)
    | getFreefp => exact absurd trivial allowed
    | getUsedfp fpn owner => exact absurd trivial allowed
    | removeUsedfp fpn => exact absurd trivial allowed
    | freeUsedfp fpn => exact absurd trivial allowed

/-- No frame is in two places. -/
theorem nodup (accounted : Accounted n s)
    (perm : (free ++ framesOf used ++ s.held).Perm (stock b n)) :
    (free ++ framesOf used ++ s.held).Nodup := by
  have few := s.device.totalFrames_lt
  have wide : 2 ^ 32 ≤ 2 ^ b.width := Nat.pow_le_pow_right (by decide) b.wellFormed.int
  have frames := accounted.frames
  exact perm.nodup_iff.mpr (nodup_stock (by omega))

/-- The lists are not too long for the validator. -/
theorem validates (accounted : Accounted n s) : s.device.validate = some 0 := by
  obtain ⟨free, used, ⟨ps, qs, linked, rfl, rfl⟩, perm⟩ := accounted.lists
  have frames := accounted.frames
  have several := accounted.nonempty
  have size := Device.maxsz_pos_of_totalFrames (d := s.device) (by omega)
  have few := s.device.totalFrames_lt
  have listed : ps.length + qs.length ≤ n := by
    have count := perm.length_eq
    simp only [List.length_append, List.length_map, stock, List.length_range] at count
    omega
  rw [Device.validate_eq accounted.storage size linked.free linked.used,
    Device.toInt_count (by omega), if_neg (by omega)]

end Accounted

/-- Whatever the caller does with the frames it holds: free list, used list and held frames are the
frames there were at first. So no frame is got that is in use, none is found free and used, and the
validator is content. Every further call of this kind completes. -/
theorem frames_conserved {s t : FramePool b M} {n : Nat} (stocked : s.device.Stocked n)
    (none : s.held = []) {calls : List (FrameCall b M)}
    (run : (frameSystem b M).run s calls = some t) :
    ∃ free used, t.device.Lists free used ∧
      (free ++ framesOf used ++ t.held).Perm (stock b n) ∧
      (∀ fpn d, t.device.getFreefp = some (fpn, d) → fpn ∉ framesOf used ∧ fpn ∉ t.held) ∧
      (∀ fpn owner, ¬ (t.device.isFrameFree fpn = some 1 ∧
        (t.device.findFrame fpn owner).map Prod.fst = some 0)) ∧
      t.device.validate = some 0 ∧
      ∀ call : FrameCall b M, call.Allowed t.held → (frameSystem b M).step t call ≠ .none := by
  have accounted := (accounted_init stocked none).run run
  obtain ⟨free, used, lists, perm⟩ := accounted.lists
  have once := accounted.nodup perm
  have apart : ∀ fpn ∈ free, fpn ∉ framesOf used ∧ fpn ∉ t.held := by
    intro fpn member
    rw [List.append_assoc] at once
    have distinct := (List.nodup_append.mp once).2.2 fpn member
    exact ⟨fun other => distinct fpn (List.mem_append_left _ other) rfl,
      fun other => distinct fpn (List.mem_append_right _ other) rfl⟩
  refine ⟨free, used, lists, perm, ?_, ?_, accounted.validates, ?_⟩
  · intro fpn d got
    cases free with
    | nil =>
        rw [lists.getFreefp_nil] at got
        cases got
    | cons first free =>
        obtain ⟨head, got', -⟩ := lists.getFreefp_cons
        obtain ⟨rfl, -⟩ := Prod.mk.inj (Option.some.inj (got.symm.trans got'))
        exact apart _ List.mem_cons_self
  · rintro fpn owner ⟨isFree, isUsed⟩
    rw [lists.isFrameFree] at isFree
    rw [lists.findFrame] at isUsed
    have member : fpn ∈ free := by
      by_contra off
      rw [if_neg off] at isFree
      cases isFree
    split at isUsed
    next => cases isUsed
    next e hit =>
      have same := List.find?_some hit
      exact (apart fpn member).1 (List.mem_map.mpr ⟨e, List.mem_of_find?_eq_some hit, by simpa using same⟩)
  · intro call allowed stuck
    obtain ⟨t', step, -⟩ := accounted.step allowed
    rw [stuck] at step
    cases step

/-- A device of two pages. -/
def twoFrames : FramePool .mm32 Unit := ⟨(Device.unset .mm32 Unit).initMemphy 512 1, []⟩

theorem stocked_twoFrames : twoFrames.device.Stocked 2 := by
  refine ⟨?_, by decide, by decide, [0, 1], [], ⟨⟨⟨rfl, rfl, rfl⟩, by decide⟩, .nil rfl, ?_⟩,
    by decide, rfl⟩
  · exact (Device.storage_initMemphy _ _ _).trans_ne (Option.some_ne_none _)
  · simp

theorem frames_conserved_twoFrames : ∃ t, (frameSystem .mm32 Unit).run twoFrames
    [.getFreefp, .putUsedfp 0 (some ()), .getUsedfp 1 none, .removeUsedfp 0, .putFreefp 0] = some t ∧
      t.device.validate = some 0 := by
  have replay : ((frameSystem .mm32 Unit).run twoFrames
      [.getFreefp, .putUsedfp 0 (some ()), .getUsedfp 1 none, .removeUsedfp 0,
        .putFreefp 0]).isSome = true := by
    decide
  obtain ⟨t, run⟩ := Option.isSome_iff_exists.mp replay
  obtain ⟨free, used, -, -, -, -, validates, -⟩ := frames_conserved stocked_twoFrames rfl run
  exact ⟨t, run, validates⟩

/-! ## The frame that is asked for -/

namespace Device

/-- The frame that was asked for has moved from the free list to the used list and can be moved back,
and no other frame has moved. -/
structure Taken (d : Device b M) (free : List b.Word) (used : List (b.Word × Option M))
    (granted : Bool) (fpn : b.Word) (owner : Option M) : Prop where
  wasFree : fpn ∈ free
  notFree : d.isFrameFree fpn = some 0
  owned : ∀ unset, d.findFrame fpn unset = some (0, owner)
  others : ∃ free' used', d.Lists free' used' ∧ ∀ other, other ≠ fpn →
    (other ∈ free' ↔ other ∈ free) ∧ ∀ o, (other, o) ∈ used' ↔ (other, o) ∈ used
  undone : ∃ d' free' used', d.freeUsedfp granted fpn = some (d', 0) ∧ d'.Lists free' used' ∧
    (∀ f, f ∈ free' ↔ f ∈ free) ∧ ∀ e, e ∈ used' ↔ e ∈ used

/-- `MEMPHY_get_usedfp` takes the frame that it is asked for, or leaves the lists alone. `granted` and
`granted'` say whether `malloc` has a node for it and for `MEMPHY_free_usedfp` after it. -/
structure TakesAsked (d : Device b M) (free : List b.Word) (used : List (b.Word × Option M))
    (granted granted' : Bool) (fpn : b.Word) (owner : Option M) : Prop where
  taken : (d.getUsedfp granted fpn owner).2 = 0 →
    (d.getUsedfp granted fpn owner).1.Taken free used granted' fpn owner
  refused : (d.getUsedfp granted fpn owner).2 = -1 →
    (d.getUsedfp granted fpn owner).1.Lists free used

variable {d : Device b M} {free : List b.Word} {used : List (b.Word × Option M)}

/-- What a caller gets who asks for the first free frame. -/
theorem taken_of_first {fpn : b.Word} {owner : Option M} (lists : d.Lists free ((fpn, owner) :: used))
    (once : fpn ∉ free) : d.Taken (fpn :: free) used true fpn owner := by
  have present : ∃ e ∈ (fpn, owner) :: used, e.1 = fpn := ⟨_, List.mem_cons_self, rfl⟩
  refine ⟨List.mem_cons_self, ?_, ?_, ⟨free, _, lists, ?_⟩, ?_⟩
  · rw [lists.isFrameFree, if_neg once]
  · intro unset
    rw [lists.findFrame, List.find?_cons_of_pos (by simp)]
  · intro other apart
    simp [apart]
  · obtain ⟨d', freed, after, -⟩ := lists.freeUsedfp present
    rw [List.eraseP_cons_of_pos (by simp)] at after
    exact ⟨d', _, _, freed, after, fun _ => .rfl, fun _ => .rfl⟩

/-- `MEMPHY_get_usedfp` meets a request exactly if nothing is free, or the frame asked for is the first
on the free list and `malloc` grants the nodes. -/
theorem takesAsked_iff (lists : d.Lists free used) (once : (free ++ framesOf used).Nodup)
    (granted granted' : Bool) (fpn : b.Word) (owner : Option M) :
    d.TakesAsked free used granted granted' fpn owner ↔
      free = [] ∨ free.head? = some fpn ∧ granted = true ∧ granted' = true := by
  cases free with
  | nil =>
      refine iff_of_true ?_ (.inl rfl)
      have got := lists.getUsedfp_nil granted fpn owner
      refine ⟨fun success => ?_, fun _ => ?_⟩
      · rw [got] at success
        cases success
      · rw [got]
        exact lists
  | cons first free =>
      obtain ⟨d', got, after, -⟩ := lists.getUsedfp_cons granted fpn owner
      constructor
      · intro asked
        right
        cases granted with
        | false =>
            -- the first frame is gone without a node for it
            have kept := asked.refused (by rw [got]; rfl)
            rw [got] at kept
            exact absurd (kept.unique after).1 (List.cons_ne_self _ _)
        | true =>
            have taken := asked.taken (by rw [got]; rfl)
            rw [got] at taken
            have off : fpn ∉ free := by
              have isFree := taken.notFree
              rw [after.isFrameFree] at isFree
              intro member
              rw [if_pos member] at isFree
              cases isFree
            obtain rfl : fpn = first := (List.mem_cons.mp taken.wasFree).resolve_right off
            refine ⟨rfl, rfl, ?_⟩
            obtain ⟨back, -, -, freed, -⟩ := taken.undone
            cases granted' with
            | true => rfl
            | false =>
                rw [after.freeUsedfp_refused ⟨_, List.mem_cons_self, rfl⟩] at freed
                cases freed
      · rintro (none | ⟨asked, rfl, rfl⟩)
        · cases none
        · obtain rfl := Option.some.inj asked
          refine ⟨fun _ => ?_, fun failed => ?_⟩
          · rw [got]
            refine taken_of_first after fun member => ?_
            exact (List.nodup_cons.mp once).1 (List.mem_append_left _ member)
          · rw [got] at failed
            cases failed

theorem once_twoFrames : (stock .mm32 2 ++ framesOf ([] : List (_ × Option Unit))).Nodup := by
  decide

theorem takesAsked_first :
    twoFrames.device.TakesAsked (stock .mm32 2) [] true true 0 (some ()) :=
  (takesAsked_iff stocked_twoFrames.lists once_twoFrames true true 0 (some ())).mpr
    (.inr ⟨rfl, rfl, rfl⟩)

/-- Asked for frame 1 the device gives away frame 0. -/
theorem other_frame_taken : ¬ ∀ (d : Device .mm32 Unit) (free : List Build.mm32.Word)
    (used : List (Build.mm32.Word × Option Unit)) (fpn : Build.mm32.Word) (owner : Option Unit),
    d.Lists free used → (free ++ framesOf used).Nodup →
      d.TakesAsked free used true true fpn owner := by
  intro all
  have taken := (all _ _ _ 1 none stocked_twoFrames.lists once_twoFrames).taken rfl
  have isFree : (twoFrames.device.getUsedfp true 1 none).1.isFrameFree 1 = some 1 := by decide
  rw [taken.notFree] at isFree
  cases isFree

/-! ## The validator -/

/-- No frame number occurs twice on the lists through `ps` and `qs`, and all are on the device. -/
structure Valid (d : Device b M) (ps qs : List Nat) : Prop where
  once : (framesOf (ps.map d.entry) ++ framesOf (qs.map d.entry)).Nodup
  onDevice : ∀ f ∈ framesOf (ps.map d.entry) ++ framesOf (qs.map d.entry),
    (f.toNat : Int) < d.totalFrames

/-- There is room for so many different frames on the device. -/
theorem Valid.length_le {ps qs : List Nat} (valid : d.Valid ps qs) :
    ((ps.length + qs.length : Nat) : Int) ≤ max d.totalFrames 0 := by
  have inside : (framesOf (ps.map d.entry) ++ framesOf (qs.map d.entry)).map BitVec.toNat ⊆
      List.range d.totalFrames.toNat := by
    intro i member
    obtain ⟨f, listed, rfl⟩ := List.mem_map.mp member
    have below := valid.onDevice f listed
    exact List.mem_range.mpr (by omega)
  have distinct : ((framesOf (ps.map d.entry) ++ framesOf (qs.map d.entry)).map BitVec.toNat).Nodup :=
    valid.once.map fun _ _ => BitVec.eq_of_toNat_eq
  have shorter := (distinct.subperm inside).length_le
  simp only [List.length_map, List.length_append, List.length_range] at shorter
  omega

/-- The validator tells valid lists from others exactly where it counts more nodes than there are
frames, or there is nothing to find. -/
theorem validate_exact_iff {ps qs : List Nat} (storage : d.storage ≠ none)
    (size : 0 < d.maxsz.toInt) (free : d.Passes d.freeFpList ps) (used : d.Passes d.usedFpList qs) :
    (d.validate = some 0 ↔ d.Valid ps qs) ↔
      d.totalFrames < (BitVec.ofNat 32 (ps.length + qs.length)).toInt ∨ d.Valid ps qs := by
  rw [validate_eq storage size free used]
  by_cases many : d.totalFrames < (BitVec.ofNat 32 (ps.length + qs.length)).toInt
  · rw [if_pos many]
    refine iff_of_true (iff_of_false (by simp) fun valid => ?_) (.inl many)
    have few := valid.length_le
    have frames : 0 ≤ d.totalFrames := Int.tdiv_nonneg size.le (Int.natCast_nonneg _)
    have bound := d.totalFrames_lt
    rw [max_eq_left frames] at few
    rw [toInt_count (by omega)] at many
    omega
  · rw [if_neg many, or_iff_right many]
    exact ⟨fun exact_ => exact_.mp rfl, fun valid => iff_of_true rfl valid⟩

theorem validate_exact_twoFrames : twoFrames.device.validate = some 0 ↔
    twoFrames.device.Valid [0, 1] [] := by
  have free : twoFrames.device.Passes twoFrames.device.freeFpList [0, 1] :=
    ⟨⟨rfl, rfl, rfl⟩, by decide⟩
  have used : twoFrames.device.Passes twoFrames.device.usedFpList [] := ⟨rfl, by decide⟩
  have frames : framesOf ([0, 1].map twoFrames.device.entry) = stock .mm32 2 := by decide
  refine (validate_exact_iff stocked_twoFrames.storage (by decide) free used).mpr (.inr ⟨?_, ?_⟩)
  · rw [frames]
    decide
  · rw [frames, stocked_twoFrames.frames]
    intro f listed
    rw [List.map_nil, framesOf, List.map_nil, List.append_nil] at listed
    exact Int.ofNat_lt.mpr (lt_of_mem_stock listed)

/-- Frame 0 on both lists of a device of two pages. -/
def frameTwice : Device .mm32 Unit :=
  { twoFrames.device with
    freeFpList := some 2
    usedFpList := some 3
    node := fun _ => ⟨0, none, none⟩
    fresh := 4 }

theorem duplicate_passes : ¬ ∀ (d : Device .mm32 Unit) (ps qs : List Nat), d.storage ≠ none →
    0 < d.maxsz.toInt → d.Passes d.freeFpList ps → d.Passes d.usedFpList qs →
      (d.validate = some 0 ↔ d.Valid ps qs) := by
  intro exact_
  have passes : frameTwice.validate = some 0 := by decide
  have valid := (exact_ frameTwice [2] [3] stocked_twoFrames.storage (by decide)
    ⟨⟨rfl, rfl⟩, by decide⟩ ⟨⟨rfl, rfl⟩, by decide⟩).mp passes
  exact absurd valid.once (by decide)

end Device

end SimpleOs.Mem
