import SimpleOs.Mem.Mm64

/-!
# The walk of the setters

The tables of a process form a radix tree of depth four. A walk that allocates
may add tables to it, also when it fails half-way down, but it changes no entry;
a walk that succeeds ends at the last-level table of its page. With the five
index slices jointly injective on 45-bit page numbers, replacing the entry it
finds changes the entry of one page.
-/

namespace SimpleOs.Mem.Mm64

open Bitfield RadixTree RadixTree.Heap

variable {reply : Nat → Reply} {mm mm' mm'' : Mm}

/-- What the setters rely on and keep. -/
structure WellFormed (mm : Mm) : Prop where
  root : mm.pgd ≠ 0
  tree : Tree mm.tables mm.pgd 4

/-- `mm'` has the entries of `mm`, in a tree with perhaps more tables. -/
structure SameEntries (mm mm' : Mm) : Prop where
  pgd : mm'.pgd = mm.pgd
  tree : Tree mm'.tables mm'.pgd 4
  lookup : ∀ path : List Slot, path.length = 4 → ∀ i,
    mm'.tables.lookup mm'.pgd path i = mm.tables.lookup mm.pgd path i

theorem SameEntries.refl (tree : Tree mm.tables mm.pgd 4) : SameEntries mm mm :=
  ⟨rfl, tree, fun _ _ _ => rfl⟩

theorem SameEntries.trans (first : SameEntries mm mm') (second : SameEntries mm' mm'') :
    SameEntries mm mm'' where
  pgd := second.pgd.trans first.pgd
  tree := second.tree
  lookup path leaf i := (second.lookup path leaf i).trans (first.lookup path leaf i)

/-- `malloc` refuses and touches no table, or makes one dead block live. -/
theorem malloc_spec (reply : Nat → Reply) (mm : Mm) :
    (malloc reply mm).1.pgd = mm.pgd ∧
      ((malloc reply mm).2 = 0 ∧ (malloc reply mm).1.tables = mm.tables ∨
        (malloc reply mm).2 ≠ 0 ∧ mm.tables (malloc reply mm).2 = none ∧
          ∃ garbage, (malloc reply mm).1.tables = mm.tables.alloc (malloc reply mm).2 garbage) := by
  cases answer : reply mm.mallocs with
  | none => simp [malloc, answer]
  | some given =>
      obtain ⟨block, garbage⟩ := given
      by_cases taken : block = 0 ∨ (mm.tables block).isSome
      · simp only [malloc, answer, if_pos taken]
        simp
      · obtain ⟨nonzero, dead⟩ := not_or.mp taken
        simp only [malloc, answer, if_neg taken]
        exact ⟨trivial, .inr ⟨nonzero, by simpa using dead, garbage, rfl⟩⟩

/-- One level down: no entry changes, and a table that is returned hangs in the
slot it was asked for. -/
theorem accessOrAllocate_spec (reply : Nat → Reply) (tree : Tree mm.tables mm.pgd 4)
    {front : List Slot} {table : Word}
    (here : mm.tables.descend mm.pgd front = some table) (inner : front.length < 4) (idx : Slot) :
    SameEntries mm (accessOrAllocate reply mm table idx).1 ∧
      ∀ next, (accessOrAllocate reply mm table idx).2 = some next →
        (accessOrAllocate reply mm table idx).1.tables.descend mm.pgd (front ++ [idx]) =
          some next := by
  have live := tree.live front table inner.le here
  by_cases empty : mm.tables.read table idx = 0
  · obtain ⟨root, ⟨refused, tables⟩ | ⟨nonzero, dead, garbage, tables⟩⟩ := malloc_spec reply mm
    · -- the NULL that malloc returned is stored where NULL was
      have same : mm.tables.write table idx 0 = mm.tables := by
        rw [← empty]
        exact write_read live
      simp only [accessOrAllocate, empty, if_true, refused, tables, same]
      exact ⟨⟨root, root.symm ▸ tree, fun _ _ _ => by rw [root]⟩, nofun⟩
    · have apart : table ≠ (malloc reply mm).2 := by
        intro same
        rw [same, dead] at live
        cases live
      have cleared : ((mm.tables.alloc _ garbage).write table idx _).clear _ (List.finRange 512) =
          mm.tables.grow table idx (malloc reply mm).2 :=
        clear_write_alloc apart garbage List.mem_finRange
      simp only [accessOrAllocate, empty, if_true, if_neg nonzero, tables, cleared]
      refine ⟨⟨root, ?_, ?_⟩, ?_⟩
      · rw [root]
        exact tree.grow here inner empty dead nonzero
      · intro path leaf i
        rw [root]
        exact tree.lookup_grow here inner empty dead nonzero leaf i
      · intro next found
        rw [tree.descend_grow here inner empty dead nonzero (front ++ [idx]) (by simp; omega)]
        simpa using found
  · simp only [accessOrAllocate, if_neg empty]
    refine ⟨.refl tree, ?_⟩
    intro next found
    rw [descend_snoc, here, Option.bind_some, if_neg empty]
    exact found

theorem walk_spec (reply : Nat → Reply) (path : List Slot) (tree : Tree mm.tables mm.pgd 4)
    {front : List Slot} {table : Word} (here : mm.tables.descend mm.pgd front = some table)
    (within : front.length + path.length ≤ 4) :
    SameEntries mm (walk reply mm table path).1 ∧
      ∀ last, (walk reply mm table path).2 = some last →
        (walk reply mm table path).1.tables.descend mm.pgd (front ++ path) = some last := by
  induction path generalizing mm front table with
  | nil =>
      refine ⟨.refl tree, ?_⟩
      intro last found
      cases found
      simpa [walk] using here
  | cons idx path ih =>
      rw [List.length_cons] at within
      obtain ⟨same, found⟩ :=
        accessOrAllocate_spec reply tree here (by omega) idx
      rw [walk]
      cases taken : accessOrAllocate reply mm table idx with
      | mk down next =>
          rw [taken] at same found
          cases next with
          | none => exact ⟨same, nofun⟩
          | some next =>
              have below : down.tables.descend down.pgd (front ++ [idx]) = some next := by
                rw [same.pgd]
                exact found next rfl
              obtain ⟨rest, ends⟩ := ih same.tree below (by simp; omega)
              refine ⟨same.trans rest, ?_⟩
              intro last reached
              rw [← same.pgd, List.append_cons]
              exact ends last reached

/-- A directory index is a 9-bit digit of the page number. -/
theorem slot_slice {hi lo : Nat} (nine : hi + 1 - lo = 9) (above : 12 ≤ lo) (fits : hi < 64)
    (pgn : Word) :
    (slot ((pgn <<< 12 &&& genmask hi lo) >>> lo)).val = pgn.toNat / 2 ^ (lo - 12) % 512 := by
  have digit : ((pgn <<< 12 &&& genmask hi lo) >>> lo).toNat =
      (pgn <<< 12).toNat / 2 ^ lo % 2 ^ (hi + 1 - lo) := toNat_getval fits (pgn <<< 12)
  have shifted : (pgn <<< 12).toNat / 2 ^ lo % 512 = pgn.toNat / 2 ^ (lo - 12) % 512 := by
    apply Nat.eq_of_testBit_eq
    intro i
    change Nat.testBit (_ % 2 ^ 9) i = Nat.testBit (_ % 2 ^ 9) i
    rw [Nat.testBit_mod_two_pow, Nat.testBit_mod_two_pow, Nat.testBit_div_two_pow,
      Nat.testBit_div_two_pow, BitVec.testBit_toNat, BitVec.getLsbD_shiftLeft,
      BitVec.testBit_toNat]
    by_cases low : i < 9
    · have inside : i + lo < 64 := by omega
      have high : ¬ i + lo < 12 := by omega
      have same : i + lo - 12 = i + (lo - 12) := by omega
      simp [low, inside, high, same]
    · simp [low]
  rw [nine] at digit
  change _ = _ % 512 at digit
  change _ % 512 = _
  rw [digit, Nat.mod_mod, shifted]

/-- The five index slices together tell 45-bit page numbers apart. -/
theorem pageDirs_injective {pgn pgn' : Word} (inBus : pgn.toNat < 2 ^ 45)
    (inBus' : pgn'.toNat < 2 ^ 45)
    (path : (getPdFromPagenum pgn).path = (getPdFromPagenum pgn').path)
    (last : slot (getPdFromPagenum pgn).pt = slot (getPdFromPagenum pgn').pt) : pgn = pgn' := by
  simp only [PageDirs.path, List.cons.injEq, and_true] at path
  obtain ⟨pgd, p4d, pud, pmd⟩ := path
  have digit : ∀ {hi lo : Nat}, hi + 1 - lo = 9 → 12 ≤ lo → hi < 64 →
      slot ((pgn <<< 12 &&& genmask hi lo) >>> lo) = slot ((pgn' <<< 12 &&& genmask hi lo) >>> lo) →
      pgn.toNat / 2 ^ (lo - 12) % 512 = pgn'.toNat / 2 ^ (lo - 12) % 512 := by
    intro hi lo nine above fits same
    rw [← slot_slice nine above fits, ← slot_slice nine above fits, same]
  have pgd := digit (by decide) (by decide) (by decide) pgd
  have p4d := digit (by decide) (by decide) (by decide) p4d
  have pud := digit (by decide) (by decide) (by decide) pud
  have pmd := digit (by decide) (by decide) (by decide) pmd
  have pt := digit (by decide) (by decide) (by decide) last
  apply BitVec.eq_of_toNat_eq
  omega

theorem pteGetEntry_eq (wf : WellFormed mm) (pgn : Word) :
    pteGetEntry mm pgn =
      mm.tables.lookup mm.pgd (getPdFromPagenum pgn).path (slot (getPdFromPagenum pgn).pt) :=
  if_neg wf.root

theorem SameEntries.wellFormed (same : SameEntries mm mm') (wf : WellFormed mm) :
    WellFormed mm' :=
  ⟨same.pgd.symm ▸ wf.root, same.tree⟩

theorem SameEntries.pteGetEntry (same : SameEntries mm mm') (wf : WellFormed mm) (pgn : Word) :
    pteGetEntry mm' pgn = pteGetEntry mm pgn := by
  rw [pteGetEntry_eq wf, pteGetEntry_eq (same.wellFormed wf)]
  exact same.lookup _ rfl _

/-- A setter fails and changes no entry, or succeeds and updates the entry of its
own page and no other. -/
theorem setEntryBy_spec (reply : Nat → Reply) (wf : WellFormed mm) {pgn : Word}
    (inBus : pgn.toNat < 2 ^ 45) (update : Word → Word) :
    WellFormed (setEntryBy reply mm pgn update).1 ∧
      ((setEntryBy reply mm pgn update).2 = -1 ∧
          (∀ q, pteGetEntry (setEntryBy reply mm pgn update).1 q = pteGetEntry mm q) ∨
        (setEntryBy reply mm pgn update).2 = 0 ∧
          ∀ q : Word, q.toNat < 2 ^ 45 → pteGetEntry (setEntryBy reply mm pgn update).1 q =
            if q = pgn then update (pteGetEntry mm pgn) else pteGetEntry mm q) := by
  have root : mm.tables.descend mm.pgd [] = some mm.pgd := rfl
  obtain ⟨same, ends⟩ := walk_spec reply (getPdFromPagenum pgn).path wf.tree root (Nat.le_refl 4)
  rw [setEntryBy, if_neg wf.root]
  cases walked : walk reply mm mm.pgd (getPdFromPagenum pgn).path with
  | mk down pt =>
      rw [walked] at same ends
      have wf' := same.wellFormed wf
      cases pt with
      | none => exact ⟨wf', .inl ⟨rfl, same.pteGetEntry wf⟩⟩
      | some pt =>
          have here : down.tables.descend down.pgd (getPdFromPagenum pgn).path = some pt := by
            rw [same.pgd]
            exact ends pt rfl
          have stored : WellFormed ⟨down.pgd, down.tables.write pt (slot (getPdFromPagenum pgn).pt)
              (update (down.tables.read pt (slot (getPdFromPagenum pgn).pt))), down.mallocs⟩ :=
            ⟨wf'.root, wf'.tree.write here rfl _⟩
          refine ⟨stored, .inr ⟨rfl, ?_⟩⟩
          intro q qInBus
          have old : down.tables.read pt (slot (getPdFromPagenum pgn).pt) =
              pteGetEntry mm pgn := by
            rw [← same.pteGetEntry wf, pteGetEntry_eq wf', lookup, here]
            rfl
          rw [pteGetEntry_eq stored, wf'.tree.lookup_write here rfl _ rfl, old,
            ← same.pteGetEntry wf q, pteGetEntry_eq wf' q]
          refine if_congr ?_ rfl rfl
          constructor
          · intro slots
            exact pageDirs_injective qInBus inBus slots.1 slots.2
          · rintro rfl
            exact ⟨rfl, rfl⟩

/-- A fresh page table is well formed and reads `0` everywhere. -/
theorem initMm_spec (init : initMm reply = some mm) :
    WellFormed mm ∧ ∀ pgn, pteGetEntry mm pgn = 0 := by
  obtain ⟨-, ⟨refused, -⟩ | ⟨nonzero, -, garbage, tables⟩⟩ :=
    malloc_spec reply ⟨0, fun _ => none, 0⟩
  · simp only [initMm, if_pos refused] at init
    cases init
  · simp only [initMm, if_neg nonzero, tables] at init
    have made := Option.some.inj init
    have cleared : mm.tables mm.pgd = some fun _ => 0 := by
      rw [← made]
      simp [clear_apply, alloc]
    have wf : WellFormed mm := ⟨by rw [← made]; exact nonzero, Tree.root_cleared cleared⟩
    refine ⟨wf, ?_⟩
    intro pgn
    rw [pteGetEntry_eq wf, lookup, PageDirs.path, descend]
    simp [Heap.read, cleared]

end SimpleOs.Mem.Mm64
