import SimpleOs.Mem.VmArea

/-!
# Walks and links of the area list

What holds of any list of areas, sorted or not: a walk over it ends, an insertion links
a new area in between two others, and a removal links it out. `Relinked` says that
nothing but links has changed.
-/

namespace SimpleOs.Mem

open LinkedList (Path search search_spec path_append path_split mem_middle mem_after)

variable {b : Build}

/-- The same area up to its place. -/
structure VmArea.Alike (x y : VmArea b) : Prop where
  vmId : x.vmId = y.vmId
  vmStart : x.vmStart = y.vmStart
  vmEnd : x.vmEnd = y.vmEnd
  sbrk : x.sbrk = y.sbrk
  vmFreergList : x.vmFreergList = y.vmFreergList

namespace VmArea.Alike

variable {x y : VmArea b}

theorem refl (x : VmArea b) : x.Alike x := ⟨rfl, rfl, rfl, rfl, rfl⟩

theorem trans {z : VmArea b} (alike : x.Alike y) (alike' : y.Alike z) : x.Alike z :=
  ⟨alike.vmId.trans alike'.vmId, alike.vmStart.trans alike'.vmStart,
    alike.vmEnd.trans alike'.vmEnd, alike.sbrk.trans alike'.sbrk,
    alike.vmFreergList.trans alike'.vmFreergList⟩

/-- With the same owner and the same link it is the same area. -/
theorem eq (alike : x.Alike y) (vmMm : x.vmMm = y.vmMm) (vmNext : x.vmNext = y.vmNext) :
    x = y := by
  obtain ⟨vmId, vmStart, vmEnd, sbrk, vmFreergList⟩ := alike
  cases x
  cases y
  simp_all

end VmArea.Alike

namespace VmMap

/-- The links from `mmap` on pass `ps`, nodes that have been allocated. -/
structure Linked (s : VmMap b) (ps : List Nat) : Prop where
  path : Path s.next s.mmap ps none
  bound : ∀ p ∈ ps, p < s.fresh

/-- The areas differ in their links only. -/
structure Relinked (s t : VmMap b) : Prop where
  alike : ∀ p, (t.area p).Alike (s.area p)
  vmMm : ∀ p, (t.area p).vmMm = (s.area p).vmMm
  fresh : t.fresh = s.fresh
  made : ∀ p ∈ t.made, p ∈ s.made

namespace Relinked

variable {s t u : VmMap b}

theorem refl (s : VmMap b) : s.Relinked s := ⟨fun _ => .refl _, fun _ => rfl, rfl, fun _ => id⟩

theorem trans (first : s.Relinked t) (second : t.Relinked u) : s.Relinked u :=
  ⟨fun p => (second.alike p).trans (first.alike p), fun p => (second.vmMm p).trans (first.vmMm p),
    second.fresh.trans first.fresh, fun p member => first.made p (second.made p member)⟩

theorem setNext (s : VmMap b) (p : Nat) (link : Option Nat) : s.Relinked (s.setNext p link) := by
  have area : ∀ q, ((s.setNext p link).area q).Alike (s.area q) ∧
      ((s.setNext p link).area q).vmMm = (s.area q).vmMm := by
    intro q
    by_cases same : q = p
    · subst same
      rw [VmMap.setNext, area_setArea_self]
      exact ⟨⟨rfl, rfl, rfl, rfl, rfl⟩, rfl⟩
    · rw [VmMap.setNext, area_setArea_of_ne _ _ same]
      exact ⟨.refl _, rfl⟩
  exact ⟨fun q => (area q).1, fun q => (area q).2, rfl, fun _ => id⟩

end Relinked

theorem pairwise_insert {R : Nat → Nat → Prop} {before after : List Nat} {p : Nat}
    (pairs : (before ++ after).Pairwise R) (below : ∀ q ∈ before, R q p)
    (above : ∀ q ∈ after, R p q) : (before ++ p :: after).Pairwise R := by
  obtain ⟨first, second, between⟩ := List.pairwise_append.mp pairs
  refine List.pairwise_append.mpr ⟨first, List.pairwise_cons.mpr ⟨above, second⟩, ?_⟩
  intro q member r member'
  obtain rfl | later := List.mem_cons.mp member'
  · exact below q member
  · exact between q member r later

theorem pairwise_insert_after {R : Nat → Nat → Prop} {before after : List Nat} {p q : Nat}
    (pairs : (before ++ q :: after).Pairwise R) (below : ∀ r ∈ before, R r p) (next : R q p)
    (above : ∀ r ∈ after, R p r) : (before ++ q :: p :: after).Pairwise R := by
  rw [List.append_cons] at pairs ⊢
  refine pairwise_insert pairs ?_ above
  intro r member
  obtain early | last := List.mem_append.mp member
  · exact below r early
  · rw [List.mem_singleton.mp last]
    exact next

namespace Linked

variable {s t : VmMap b} {ps qs : List Nat}

/-- There are no more areas on the list than there are areas. -/
theorem length_le (linked : s.Linked ps) : ps.length ≤ s.fresh :=
  linked.path.length_le linked.bound

theorem find (linked : s.Linked ps) {cur : Option Nat} (path : Path s.next cur qs none)
    (part : qs.length ≤ ps.length) (prev : Option Nat) (stop : Nat → Bool) :
    ∃ before found after, qs = before ++ after ∧ after.head? = found ∧
      (∀ q ∈ before, stop q = false) ∧ (∀ q, found = some q → stop q = true) ∧
        s.find stop prev cur = some (before.getLast?.or prev, found) :=
  search_spec path (Nat.lt_succ_of_le (part.trans linked.length_le))

/-- A search for the nodes of the list that finds none says something of all of them. -/
theorem find_all (linked : s.Linked ps) {stop : Nat → Bool} {prev : Option Nat}
    (none : s.find stop .none s.mmap = some (prev, .none)) : ∀ p ∈ ps, stop p = false := by
  obtain ⟨before, found, after, rfl, first, passed, _, result⟩ :=
    linked.find linked.path (le_refl _) .none stop
  rw [none, Option.some.injEq, Prod.mk.injEq] at result
  rw [← result.2, List.head?_eq_none_iff] at first
  rwa [first, List.append_nil]

theorem find_some (linked : s.Linked ps) {stop : Nat → Bool} {prev : Option Nat} {p : Nat}
    (hit : s.find stop none s.mmap = some (prev, some p)) :
    ∃ before after, ps = before ++ p :: after ∧ before.getLast? = prev ∧ stop p = true ∧
      ∀ q ∈ before, stop q = false := by
  obtain ⟨before, found, after, rfl, first, passed, met, result⟩ :=
    linked.find linked.path (le_refl _) none stop
  rw [hit, Option.some.injEq, Prod.mk.injEq, Option.or_none] at result
  obtain ⟨last, rfl⟩ := result
  obtain ⟨rest, rfl⟩ := List.head?_eq_some_iff.mp first
  exact ⟨before, rest, rfl, last.symm, met p rfl, passed⟩

/-- The walk over the list ends. -/
theorem find_ne_none (linked : s.Linked ps) (stop : Nat → Bool) :
    s.find stop none s.mmap ≠ none := by
  obtain ⟨before, found, after, -, -, -, -, result⟩ :=
    linked.find linked.path (le_refl _) none stop
  rw [result]
  exact Option.some_ne_none _

theorem listed_iff (linked : s.Linked ps) (p : Nat) : s.listed p = true ↔ p ∈ ps := by
  rw [listed]
  constructor
  · intro found
    split at found
    next prev q hit =>
      obtain ⟨before, after, rfl, _, same, _⟩ := linked.find_some hit
      rw [decide_eq_true_eq] at same
      simp [same]
    next => cases found
  · intro member
    obtain ⟨before, found, after, split, first, passed, _, result⟩ :=
      linked.find linked.path (le_refl _) none fun cur => cur = p
    rw [result]
    cases found with
    | some q => rfl
    | none =>
        rw [List.head?_eq_none_iff] at first
        rw [split, first, List.append_nil] at member
        simpa using passed p member

/-- Areas that are alike and stand in the same order have the same links. -/
theorem area_eq (linked : s.Linked ps) (linked' : t.Linked ps)
    (alike : ∀ p ∈ ps, (t.area p).Alike (s.area p) ∧ (t.area p).vmMm = (s.area p).vmMm) :
    t.mmap = s.mmap ∧ ∀ p ∈ ps, t.area p = s.area p := by
  refine ⟨linked'.path.head_eq.symm.trans linked.path.head_eq, ?_⟩
  intro p member
  obtain ⟨same, vmMm⟩ := alike p member
  obtain ⟨before, after, rfl⟩ := List.append_of_mem member
  have link := (path_split.mp linked.path).2.head_eq
  have link' := (path_split.mp linked'.path).2.head_eq
  exact same.eq vmMm (link'.symm.trans link)

/-- An area linked in at the front. -/
theorem cons {new : Nat} (linked : s.Linked ps) (absent : new ∉ ps) (bound : new < s.fresh) :
    ({ s.setNext new s.mmap with mmap := some new } : VmMap b).Linked (new :: ps) := by
  have links : ({ s.setNext new s.mmap with mmap := some new } : VmMap b).next =
      Function.update s.next new s.mmap := next_setNext ..
  refine ⟨?_, List.forall_mem_cons.mpr ⟨bound, linked.bound⟩⟩
  rw [links]
  refine ⟨rfl, ?_⟩
  rw [Function.update_self]
  exact linked.path.update absent s.mmap

/-- An area linked in behind `prev`. -/
theorem insertAfter {before after : List Nat} {new prev : Nat}
    (linked : s.Linked (before ++ prev :: after)) (absent : new ∉ before ++ prev :: after)
    (bound : new < s.fresh) :
    ((s.setNext new after.head?).setNext prev (some new)).Linked
      (before ++ prev :: new :: after) := by
  have links : ((s.setNext new after.head?).setNext prev (some new)).next =
      Function.update (Function.update s.next new (s.next prev)) prev (some new) := by
    rw [next_setNext, next_setNext, (path_split.mp linked.path).2.head_eq]
  refine ⟨?_, ?_⟩
  · rw [links]
    exact linked.path.insert linked.path.nodup absent
  · intro p member
    obtain rfl | old := mem_after.mp member
    · exact bound
    · exact linked.bound p old

/-- The insertion finds a place behind areas whose ids are not larger, and in front of
one whose id is not smaller. -/
theorem insertById {new : Nat} (linked : s.Linked ps) (absent : new ∉ ps) (bound : new < s.fresh) :
    ∃ t before after, s.insertById new = some t ∧ ps = before ++ after ∧
      t.Linked (before ++ new :: after) ∧ s.Relinked t ∧
      (∀ p ∈ before, (s.area p).vmId ≤ (s.area new).vmId) ∧
        ∀ p ∈ after.head?, (s.area new).vmId ≤ (s.area p).vmId := by
  have front := linked.cons absent bound
  have relinked : s.Relinked { s.setNext new s.mmap with mmap := some new } := by
    obtain ⟨alike, vmMm, fresh, made⟩ := Relinked.setNext s new s.mmap
    exact ⟨alike, vmMm, fresh, made⟩
  have path := linked.path
  rw [VmMap.insertById]
  cases start : s.mmap with
  | none =>
      rw [start] at front relinked
      have empty : ps = [] := by
        rw [start] at path
        exact List.head?_eq_none_iff.mp path.head_eq
      subst empty
      exact ⟨_, [], [], rfl, rfl, front, relinked, by simp, by simp⟩
  | some head =>
      rw [start] at path front relinked
      cases ps with
      | nil => cases path
      | cons first rest =>
          obtain ⟨same, later⟩ := path
          cases same
          dsimp only
          split
          next low =>
            refine ⟨_, [], head :: rest, rfl, rfl, front, relinked, by simp, ?_⟩
            simpa using BitVec.le_of_lt low
          next high =>
            obtain ⟨before, found, after, rfl, rfl, passed, met, result⟩ :=
              linked.find later (by simp) (some head)
                fun cur => !decide ((s.area cur).vmId < (s.area new).vmId)
            obtain ⟨init, prev, split⟩ : ∃ init prev, head :: before = init ++ [prev] :=
              ⟨_, _, (List.dropLast_concat_getLast (by simp)).symm⟩
            have last : before.getLast?.or (some head) = some prev := by
              have ends := congrArg List.getLast? split
              rw [List.getLast?_concat, List.getLast?_cons] at ends
              rw [← ends]
              cases before.getLast? <;> rfl
            have regroup : head :: (before ++ after) = init ++ prev :: after := by
              rw [← List.cons_append, split, List.append_assoc, List.singleton_append]
            rw [regroup] at linked absent
            refine ⟨(s.setNext new after.head?).setNext prev (some new), head :: before, after,
              ?_, rfl, ?_, ?_, ?_, ?_⟩
            · rw [result, last]
            · rw [split, List.append_assoc, List.singleton_append]
              exact linked.insertAfter absent bound
            · exact (Relinked.setNext s new after.head?).trans (.setNext _ prev (some new))
            · refine List.forall_mem_cons.mpr ⟨BitVec.not_lt.mp high, ?_⟩
              intro p member
              have below : (s.area p).vmId < (s.area new).vmId := by simpa using passed p member
              exact BitVec.le_of_lt below
            · intro p next
              simpa using met p next

/-- A removal links out the first area with the id, if there is one. -/
theorem removeVmArea (linked : s.Linked ps) (vmaid : BitVec 32) :
    (∃ before cur after t, ps = before ++ cur :: after ∧
      (∀ p ∈ before, (s.area p).vmId ≠ vmaid.signExtend 64) ∧
      (s.area cur).vmId = vmaid.signExtend 64 ∧ s.removeVmArea vmaid = some (t, 0) ∧
        t.Linked (before ++ after) ∧ s.Relinked t) ∨
    ((∀ p ∈ ps, (s.area p).vmId ≠ vmaid.signExtend 64) ∧
      s.removeVmArea vmaid = some (s, -1)) := by
  rw [VmMap.removeVmArea]
  split
  next start =>
    have path := linked.path
    rw [start] at path
    rw [List.head?_eq_none_iff.mp path.head_eq]
    exact .inr ⟨by simp, rfl⟩
  next head start =>
    split
    next stuck => exact absurd stuck (linked.find_ne_none _)
    next none =>
      refine .inr ⟨?_, rfl⟩
      intro p member
      simpa using linked.find_all none p member
    next prev cur hit =>
      left
      obtain ⟨before, after, rfl, last, here, passed⟩ := linked.find_some hit
      have fewer : ∀ p ∈ before ++ after, p < s.fresh := by
        intro p member
        exact linked.bound p (mem_middle.mpr (.inr member))
      have erased : ∀ p ∈ s.made.erase cur, p ∈ s.made := fun p member => List.mem_of_mem_erase member
      have others : ∀ p ∈ before, (s.area p).vmId ≠ vmaid.signExtend 64 := by
        intro p member
        simpa using passed p member
      refine ⟨before, cur, after, _, rfl, others, by simpa using here, rfl, ?_, ?_⟩
      · cases prev with
        | none =>
            rw [List.getLast?_eq_none_iff] at last
            subst last
            exact ⟨(path_split.mp linked.path).2, fewer⟩
        | some prev =>
            obtain ⟨init, rfl⟩ := List.getLast?_eq_some_iff.mp last
            refine ⟨?_, fewer⟩
            have links : ({ s.setNext prev (s.next cur) with made := s.made.erase cur } :
                VmMap b).next = Function.update s.next prev (s.next cur) := next_setNext ..
            have path := linked.path
            have once := path.nodup
            have regroup : init ++ [prev] ++ cur :: after =
                init ++ prev :: ([] ++ cur :: after) := by simp
            rw [regroup] at path once
            show Path ({ s.setNext prev (s.next cur) with made := s.made.erase cur } :
              VmMap b).next _ _ _
            rw [links, List.append_assoc, List.singleton_append]
            exact path.unlink once
      · cases prev with
        | none => exact ⟨fun _ => .refl _, fun _ => rfl, rfl, erased⟩
        | some prev =>
            obtain ⟨alike, vmMm, fresh, -⟩ := Relinked.setNext s prev (s.next cur)
            exact ⟨alike, vmMm, fresh, erased⟩

end Linked

/-- What `add_vm_area` makes of a list where it does not refuse an area. -/
structure Inserted (s t : VmMap b) (ps : List Nat) (new : Nat) (before after : List Nat) : Prop where
  split : ps = before ++ after
  linked : t.Linked (before ++ new :: after)
  sorted : (before ++ new :: after).Pairwise fun p q => (t.area p).vmId ≤ (t.area q).vmId
  others : ∀ p ∈ ps, (t.area p).Alike (s.area p) ∧ (t.area p).vmMm = (s.area p).vmMm
  new : (t.area new).Alike (s.area new) ∧ (t.area new).vmMm = true

section Add

variable {s t : VmMap b} {ps : List Nat} {new : Nat}

theorem Linked.addVmArea_refuses (linked : s.Linked ps)
    (overlaps : ∃ p ∈ ps, (s.area p).overlaps (s.area new)) :
    s.addVmArea new = some (s, -1) := by
  rw [VmMap.addVmArea]
  split
  next stuck => exact absurd stuck (linked.find_ne_none _)
  next => rfl
  next none =>
    obtain ⟨p, member, overlaps⟩ := overlaps
    rw [linked.find_all none p member] at overlaps
    cases overlaps

/-- An area that overlaps no other one is inserted in the order of the ids. -/
theorem Linked.addVmArea (linked : s.Linked ps)
    (sorted : ps.Pairwise fun p q => (s.area p).vmId ≤ (s.area q).vmId) (absent : new ∉ ps)
    (bound : new < s.fresh) (apart : ∀ p ∈ ps, (s.area p).overlaps (s.area new) = false) :
    ∃ t before after, s.addVmArea new = some (t, 0) ∧ Inserted s t ps new before after := by
  rw [VmMap.addVmArea]
  split
  next stuck => exact absurd stuck (linked.find_ne_none _)
  next prev p hit =>
    obtain ⟨before, after, rfl, -, overlaps, -⟩ := linked.find_some hit
    rw [apart p (by simp)] at overlaps
    cases overlaps
  next =>
    let owned := s.setArea new { s.area new with vmMm := true }
    have links : owned.next = s.next := next_setArea_of_link s new rfl
    have others : ∀ p ∈ ps, owned.area p = s.area p := by
      intro p member
      apply area_setArea_of_ne
      rintro rfl
      exact absent member
    have given : owned.Linked ps := ⟨links ▸ linked.path, linked.bound⟩
    obtain ⟨t, before, after, inserted, rfl, linked', relinked, below, above⟩ :=
      given.insertById absent bound
    have ids : ∀ p, (t.area p).vmId = (owned.area p).vmId := fun p => (relinked.alike p).vmId
    have ordered : (before ++ after).Pairwise fun p q =>
        (owned.area p).vmId ≤ (owned.area q).vmId := by
      apply sorted.imp_of_mem
      intro p q here there less
      rwa [others p here, others q there]
    have beyond : ∀ p ∈ after, (owned.area new).vmId ≤ (owned.area p).vmId := by
      cases after with
      | nil => simp
      | cons q after =>
          have rest := (List.pairwise_cons.mp (List.pairwise_append.mp ordered).2.1).1
          have first := above q rfl
          exact List.forall_mem_cons.mpr
            ⟨first, fun p member => BitVec.le_trans first (rest p member)⟩
    refine ⟨t, before, after, by simp only [owned, inserted, Option.map_some], rfl, linked', ?_, ?_,
      ?_, ?_⟩
    · simp only [ids]
      exact pairwise_insert ordered below beyond
    · intro p member
      rw [← others p member]
      exact ⟨relinked.alike p, relinked.vmMm p⟩
    · have self : owned.area new = { s.area new with vmMm := true } := area_setArea_self ..
      have alike := relinked.alike new
      rw [self] at alike
      exact alike.trans ⟨rfl, rfl, rfl, rfl, rfl⟩
    · rw [relinked.vmMm new, area_setArea_self]

/-- Removing the area that was added restores the list. -/
theorem Inserted.removeVmArea {before after : List Nat} (inserted : Inserted s t ps new before after)
    (linked : s.Linked ps) (absent : new ∉ ps) {vmaid : BitVec 32}
    (id : (s.area new).vmId = vmaid.signExtend 64)
    (vacant : ∀ p ∈ ps, (s.area p).vmId ≠ vmaid.signExtend 64) :
    ∃ u, t.removeVmArea vmaid = some (u, 0) ∧ u.Linked ps ∧ u.mmap = s.mmap ∧
      ∀ p ∈ ps, u.area p = s.area p := by
  have vacant' : ∀ p ∈ ps, (t.area p).vmId ≠ vmaid.signExtend 64 := by
    intro p member
    rw [(inserted.others p member).1.vmId]
    exact vacant p member
  have id' : (t.area new).vmId = vmaid.signExtend 64 := inserted.new.1.vmId.trans id
  have split := inserted.split
  obtain ⟨first, cur, last, u, parts, -, here, removed, linked', relinked⟩ | ⟨none, -⟩ :=
    inserted.linked.removeVmArea vmaid
  · have member : cur ∈ before ++ new :: after := by
      rw [parts]
      simp
    have same : cur = new := by
      by_contra other
      have old : cur ∈ ps := by
        rw [split]
        simpa [other] using member
      exact vacant' cur old here
    subst same
    rw [split, List.mem_append, not_or] at absent
    obtain ⟨rfl, -, rfl⟩ := (List.append_cons_inj_of_notMem absent.1 absent.2).mp parts
    rw [← split] at linked'
    refine ⟨u, removed, linked', linked.area_eq linked' ?_⟩
    intro p member
    obtain ⟨alike, vmMm⟩ := inserted.others p member
    exact ⟨(relinked.alike p).trans alike, (relinked.vmMm p).trans vmMm⟩
  · exact absurd id' (none new (by simp))

/-- `add_vm_area` refuses an area exactly where it overlaps one on the list, else inserts
it by its id, and `remove_vm_area` takes out again what was added, and nothing where there
is nothing to take out. -/
theorem add_remove_inverse (linked : s.Linked ps)
    (sorted : ps.Pairwise fun p q => (s.area p).vmId ≤ (s.area q).vmId) (absent : new ∉ ps)
    (bound : new < s.fresh) :
    (∀ t, s.addVmArea new = some (t, -1) ↔
      t = s ∧ ∃ p ∈ ps, (s.area p).overlaps (s.area new)) ∧
    ((∀ p ∈ ps, (s.area p).overlaps (s.area new) = false) →
      ∃ t before after, s.addVmArea new = some (t, 0) ∧ Inserted s t ps new before after ∧
        ∀ vmaid : BitVec 32, (s.area new).vmId = vmaid.signExtend 64 →
          (∀ p ∈ ps, (s.area p).vmId ≠ vmaid.signExtend 64) →
            ∃ u, t.removeVmArea vmaid = some (u, 0) ∧ u.Linked ps ∧ u.mmap = s.mmap ∧
              ∀ p ∈ ps, u.area p = s.area p) ∧
    ∀ vmaid : BitVec 32, (∀ p ∈ ps, (s.area p).vmId ≠ vmaid.signExtend 64) →
      s.removeVmArea vmaid = some (s, -1) := by
  refine ⟨?_, ?_, ?_⟩
  · intro t
    by_cases overlaps : ∃ p ∈ ps, (s.area p).overlaps (s.area new)
    · rw [linked.addVmArea_refuses overlaps, Option.some.injEq, Prod.mk.injEq]
      exact ⟨fun same => ⟨same.1.symm, overlaps⟩, fun same => ⟨same.1.symm, rfl⟩⟩
    · have apart : ∀ p ∈ ps, (s.area p).overlaps (s.area new) = false := by
        intro p member
        exact eq_false_of_ne_true fun here => overlaps ⟨p, member, here⟩
      obtain ⟨u, before, after, added, -⟩ := linked.addVmArea sorted absent bound apart
      simp [added, overlaps]
  · intro apart
    obtain ⟨t, before, after, added, inserted⟩ := linked.addVmArea sorted absent bound apart
    exact ⟨t, before, after, added, inserted,
      fun vmaid id vacant => inserted.removeVmArea linked absent id vacant⟩
  · intro vmaid vacant
    obtain ⟨before, cur, after, t, rfl, -, here, -⟩ | ⟨-, unchanged⟩ := linked.removeVmArea vmaid
    · exact absurd here (vacant cur (by simp))
    · exact unchanged

/-- Area 1 is added behind area 0 of a fresh `mm`. -/
theorem add_remove_inverse_fresh :
    ∃ t before after, ((init .mm32).createVmArea 1 256 512).addVmArea 1 = some (t, 0) ∧
      Inserted ((init .mm32).createVmArea 1 256 512) t [0] 1 before after := by
  have linked : ((init .mm32).createVmArea 1 256 512).Linked [0] := ⟨⟨rfl, rfl⟩, by decide⟩
  have absent : 1 ∉ [0] := by decide
  obtain ⟨t, before, after, added, inserted, -⟩ :=
    (add_remove_inverse linked (List.pairwise_singleton _ _) absent (by decide)).2.1 (by decide)
  exact ⟨t, before, after, added, inserted⟩

end Add

/-- What `split_vm_area` makes of the list: the new area, the next node there is, follows the
area that was split. -/
structure SplitAt (s t : VmMap b) (before : List Nat) (vma : Nat) (after : List Nat)
    (splitAddr : b.Word) : Prop where
  linked : t.Linked (before ++ vma :: s.fresh :: after)
  lower : t.area vma = (s.area vma).lower splitAddr s.fresh
  upper : t.area s.fresh = (s.area vma).upper splitAddr
  others : ∀ p, p ≠ vma → p ≠ s.fresh → t.area p = s.area p
  fresh : t.fresh = s.fresh + 1
  made : t.made = s.made

/-- An address strictly inside an area of the list splits it. -/
theorem Linked.splitVmArea {s : VmMap b} {before after : List Nat} {vma : Nat} {splitAddr : b.Word}
    (linked : s.Linked (before ++ vma :: after)) (low : (s.area vma).vmStart < splitAddr)
    (high : splitAddr < (s.area vma).vmEnd) :
    ∃ t, s.splitVmArea vma splitAddr = (t, 0) ∧ SplitAt s t before vma after splitAddr := by
  have within : ¬ (splitAddr ≤ (s.area vma).vmStart ∨ (s.area vma).vmEnd ≤ splitAddr) := by
    rw [not_or, BitVec.not_le, BitVec.not_le]
    exact ⟨low, high⟩
  have known : vma ≠ s.fresh := (linked.bound vma (by simp)).ne
  have absent : s.fresh ∉ before ++ vma :: after := fun member => (linked.bound _ member).ne rfl
  rw [VmMap.splitVmArea, if_neg within]
  refine ⟨_, rfl, ⟨?_, ?_⟩, area_setArea_self .., ?_, ?_, rfl, rfl⟩
  · have links : ((s.setArea s.fresh ((s.area vma).upper splitAddr)).setArea vma
        ((s.area vma).lower splitAddr s.fresh)).next =
          Function.update (Function.update s.next s.fresh (s.next vma)) vma (some s.fresh) := by
      rw [next_setArea, next_setArea]
      rfl
    show Path ((s.setArea s.fresh _).setArea vma _).next s.mmap _ none
    rw [links]
    exact linked.path.insert linked.path.nodup absent
  · intro p member
    obtain rfl | old := mem_after.mp member
    · exact Nat.lt_succ_self _
    · exact Nat.lt_succ_of_lt (linked.bound p old)
  · exact (area_setArea_of_ne _ _ known.symm).trans (area_setArea_self ..)
  · intro p other other'
    exact (area_setArea_of_ne _ _ other).trans (area_setArea_of_ne _ _ other')

end VmMap

end SimpleOs.Mem
