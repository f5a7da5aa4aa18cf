import SimpleOs.Mem.PageWalk

/-!
# Setting entries with the tables granted

A setter allocates the tables that are missing on the way to its entry, and fails where
`malloc` refuses one. How many tables are missing for a number of pages can be counted
beforehand: with as many requests granted, the setters of these pages succeed in every order.
-/

namespace SimpleOs.Mem.Mm64

open RadixTree RadixTree.Heap

/-- The next `n` requests for a table are granted, with different blocks that are not live. -/
def Granted (reply : Nat → Reply) (mm : Mm) (n : Nat) : Prop :=
  ∃ block : Nat → Word,
    (∀ j < n, block j ≠ 0 ∧ mm.tables (block j) = none ∧
      ∃ garbage, reply (mm.mallocs + j) = some (block j, garbage)) ∧
    ∀ i < n, ∀ j < n, block i = block j → i = j

/-- The places of the tables on the way to the entries of these pages. -/
def tablesFor (pages : List Word) : Finset (List Slot) :=
  (pages.flatMap fun pgn => (getPdFromPagenum pgn).path.inits).toFinset

/-- The tables that there are not yet. -/
def missing (mm : Mm) (places : Finset (List Slot)) : Finset (List Slot) :=
  places.filter fun place => mm.tables.descend mm.pgd place = none

variable {reply : Nat → Reply} {mm mm' : Mm} {n : Nat} {places : Finset (List Slot)}

theorem mem_tablesFor {pages : List Word} {place : List Slot} :
    place ∈ tablesFor pages ↔ ∃ pgn ∈ pages, place <+: (getPdFromPagenum pgn).path := by
  simp [tablesFor]

/-- All these tables are within the tree. -/
theorem length_of_mem_tablesFor {pages : List Word} {place : List Slot}
    (member : place ∈ tablesFor pages) : place.length ≤ 4 := by
  obtain ⟨pgn, -, front⟩ := mem_tablesFor.mp member
  exact front.length_le

/-- The first table is there from the start, so that a page misses four at most. -/
theorem card_missing_le (mm : Mm) (pages : List Word) :
    (missing mm (tablesFor pages)).card ≤ 4 * pages.length := by
  have inner : missing mm (tablesFor pages) ⊆
      (pages.flatMap fun pgn => (getPdFromPagenum pgn).path.inits.tail).toFinset := by
    intro place absent
    rw [missing, Finset.mem_filter, mem_tablesFor] at absent
    obtain ⟨⟨pgn, member, front⟩, none⟩ := absent
    have lower : place ≠ [] := by
      rintro rfl
      cases none
    rw [List.mem_toFinset, List.mem_flatMap]
    refine ⟨pgn, member, ?_⟩
    have onWay := (List.mem_inits _ _).mpr front
    simp only [PageDirs.path, List.inits, List.mem_cons, List.tail_cons] at onWay ⊢
    exact onWay.resolve_left lower
  refine (Finset.card_le_card inner).trans ((List.toFinset_card_le _).trans ?_)
  rw [List.length_flatMap]
  simp [PageDirs.path, Nat.mul_comm]

/-- What is live afterwards decides whether the other requests are still granted. -/
theorem Granted.next {block : Word} (granted : Granted reply mm (n + 1))
    (answer : ∃ garbage, reply mm.mallocs = some (block, garbage))
    (counted : mm'.mallocs = mm.mallocs + 1)
    (dead : ∀ b, b ≠ block → mm.tables b = none → mm'.tables b = none) :
    Granted reply mm' n := by
  obtain ⟨blocks, each, distinct⟩ := granted
  have first : blocks 0 = block := by
    obtain ⟨garbage, given⟩ := answer
    obtain ⟨-, -, garbage', given'⟩ := each 0 (Nat.succ_pos n)
    rw [Nat.add_zero, given] at given'
    exact (congrArg Prod.fst (Option.some.inj given')).symm
  refine ⟨fun j => blocks (j + 1), ?_, ?_⟩
  · intro j below
    obtain ⟨nonzero, unused, garbage, given⟩ := each (j + 1) (by omega)
    refine ⟨nonzero, dead _ ?_ unused, garbage, ?_⟩
    · intro same
      have := distinct (j + 1) (by omega) 0 (by omega) (same.trans first.symm)
      omega
    · rw [counted, Nat.add_right_comm]
      exact given
  · intro i below j below' same
    have := distinct (i + 1) (by omega) (j + 1) (by omega) same
    omega

/-- A request that is granted makes a dead block live. -/
theorem Granted.malloc (granted : Granted reply mm (n + 1)) :
    ∃ block garbage, block ≠ 0 ∧ mm.tables block = none ∧
      reply mm.mallocs = some (block, garbage) ∧
      malloc reply mm = ({ mm with
        mallocs := mm.mallocs + 1, tables := mm.tables.alloc block garbage }, block) := by
  obtain ⟨blocks, each, -⟩ := granted
  obtain ⟨nonzero, unused, garbage, given⟩ := each 0 (Nat.succ_pos n)
  have free : ¬ (blocks 0 = 0 ∨ (mm.tables (blocks 0)).isSome) := by
    rw [unused]
    exact not_or.mpr ⟨nonzero, Bool.false_ne_true⟩
  refine ⟨blocks 0, garbage, nonzero, unused, given, ?_⟩
  rw [Nat.add_zero] at given
  simp only [Mm64.malloc, given, if_neg free]

/-- One level down, where the table is one of those that have been counted. -/
theorem Granted.access (granted : Granted reply mm (missing mm places).card)
    (tree : Tree mm.tables mm.pgd 4) (short : ∀ place ∈ places, place.length ≤ 4)
    {front : List Slot} {table : Word} (here : mm.tables.descend mm.pgd front = some table)
    (inner : front.length < 4) {idx : Slot} (counted : front ++ [idx] ∈ places) :
    Granted reply (accessOrAllocate reply mm table idx).1
        (missing (accessOrAllocate reply mm table idx).1 places).card ∧
      ∃ next, (accessOrAllocate reply mm table idx).2 = some next := by
  by_cases empty : mm.tables.read table idx = 0
  · have absent : front ++ [idx] ∈ missing mm places := by
      rw [missing, Finset.mem_filter, descend_snoc, here, Option.bind_some, if_pos empty]
      exact ⟨counted, rfl⟩
    obtain ⟨n, count⟩ := Nat.exists_eq_succ_of_ne_zero (Finset.card_ne_zero_of_mem absent)
    rw [count] at granted
    obtain ⟨block, garbage, nonzero, unused, given, answered⟩ := granted.malloc
    have live := tree.live front table inner.le here
    have apart : table ≠ block := by
      rintro rfl
      simp [unused] at live
    have cleared : ((mm.tables.alloc _ garbage).write table idx _).clear _ (List.finRange 512) =
        mm.tables.grow table idx block :=
      clear_write_alloc apart garbage List.mem_finRange
    simp only [accessOrAllocate, if_pos empty, answered, if_neg nonzero, cleared]
    have fewer : missing ⟨mm.pgd, mm.tables.grow table idx block, mm.mallocs + 1⟩ places =
        (missing mm places).erase (front ++ [idx]) := by
      ext place
      rw [missing, missing, Finset.mem_filter, Finset.mem_erase, Finset.mem_filter]
      constructor
      · rintro ⟨member, none⟩
        rw [tree.descend_grow here inner empty unused nonzero place (short place member)] at none
        split_ifs at none with added
        exact ⟨added, member, none⟩
      · rintro ⟨other, member, none⟩
        rw [tree.descend_grow here inner empty unused nonzero place (short place member),
          if_neg other]
        exact ⟨member, none⟩
    refine ⟨?_, _, rfl⟩
    rw [fewer, Finset.card_erase_of_mem absent, count]
    refine granted.next ⟨garbage, given⟩ rfl ?_
    intro b other dead
    rw [← Option.not_isSome_iff_eq_none, isSome_grow, dead, decide_eq_false other]
    exact Bool.false_ne_true
  · simp only [accessOrAllocate, if_neg empty]
    exact ⟨granted, _, rfl⟩

theorem Granted.walk (path : List Slot) (granted : Granted reply mm (missing mm places).card)
    (tree : Tree mm.tables mm.pgd 4) (short : ∀ place ∈ places, place.length ≤ 4)
    {front : List Slot} {table : Word} (here : mm.tables.descend mm.pgd front = some table)
    (within : front.length + path.length ≤ 4)
    (counted : ∀ place, place <+: front ++ path → place ∈ places) :
    Granted reply (walk reply mm table path).1
        (missing (walk reply mm table path).1 places).card ∧
      ∃ last, (walk reply mm table path).2 = some last := by
  induction path generalizing mm front table with
  | nil => exact ⟨granted, table, rfl⟩
  | cons idx path ih =>
      rw [List.length_cons] at within
      have onWay : front ++ [idx] ∈ places :=
        counted _ ⟨path, by rw [List.append_assoc, List.singleton_append]⟩
      obtain ⟨granted', next, taken⟩ := granted.access tree short here (by omega) onWay
      obtain ⟨same, found⟩ := accessOrAllocate_spec reply tree here (by omega) idx
      have below := found next taken
      rw [← same.pgd] at below
      rw [Mm64.walk]
      cases step : accessOrAllocate reply mm table idx with
      | mk down next' =>
          rw [step] at granted' taken same below
          cases taken
          refine ih granted' same.tree below (by simp; omega) ?_
          rwa [List.append_assoc, List.singleton_append]

/-- A setter of one of the pages succeeds, and enough requests are left for the others. -/
theorem Granted.setEntryBy {pages : List Word}
    (granted : Granted reply mm (missing mm (tablesFor pages)).card) (wf : WellFormed mm)
    {pgn : Word} (member : pgn ∈ pages) (update : Word → Word) :
    Granted reply (setEntryBy reply mm pgn update).1
        (missing (setEntryBy reply mm pgn update).1 (tablesFor pages)).card ∧
      (setEntryBy reply mm pgn update).2 = 0 := by
  have root : mm.tables.descend mm.pgd [] = some mm.pgd := rfl
  have onWay : ∀ place, place <+: [] ++ (getPdFromPagenum pgn).path → place ∈ tablesFor pages :=
    fun place front => mem_tablesFor.mpr ⟨pgn, member, front⟩
  obtain ⟨granted', last, found⟩ := granted.walk (getPdFromPagenum pgn).path wf.tree
    (fun _ => length_of_mem_tablesFor) root (Nat.le_refl 4) onWay
  obtain ⟨same, ends⟩ := walk_spec reply (getPdFromPagenum pgn).path wf.tree root (Nat.le_refl 4)
  rw [Mm64.setEntryBy, if_neg wf.root]
  cases walked : Mm64.walk reply mm mm.pgd (getPdFromPagenum pgn).path with
  | mk down pt =>
      rw [walked] at granted' found same ends
      cases found
      have here : down.tables.descend down.pgd (getPdFromPagenum pgn).path = some last := by
        rw [same.pgd]
        exact ends last rfl
      have still : missing ⟨down.pgd, down.tables.write last (slot (getPdFromPagenum pgn).pt)
            (update (down.tables.read last (slot (getPdFromPagenum pgn).pt))), down.mallocs⟩
          (tablesFor pages) = missing down (tablesFor pages) := by
        apply Finset.filter_congr
        intro place counted
        rw [same.tree.descend_write here rfl _ place (length_of_mem_tablesFor counted)]
      refine ⟨?_, rfl⟩
      dsimp only
      rw [still]
      obtain ⟨block, each, distinct⟩ := granted'
      refine ⟨block, ?_, distinct⟩
      intro j below
      obtain ⟨nonzero, dead, given⟩ := each j below
      refine ⟨nonzero, ?_, given⟩
      rw [← Option.not_isSome_iff_eq_none, isSome_write, dead]
      exact Bool.false_ne_true

end SimpleOs.Mem.Mm64
