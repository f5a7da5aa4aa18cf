import Mathlib.Logic.Function.Basic
import Mathlib.Data.List.Induction
import Mathlib.Order.Basic
import Mathlib.Order.Nat
import Mathlib.Tactic.Common

/-!
# Radix trees of tables on a heap

A heap maps the base address of a live block to the words of a table. A tree of
depth `d` hangs from a root table: at depths below `d` a word is the address of
a table one level down, or `0` where there is none, and the words of the tables
at depth `d` are data. `descend` follows a path of slots and stops at a missing
table.

Two updates build such a tree. `grow` hangs a fresh cleared table in an empty
slot, and a `write` at depth `d` stores data. `Tree` says that no table hangs in
two slots, which is what keeps one path's update out of every other path.
-/

namespace RadixTree

variable {W ι : Type*} [Zero W] [DecidableEq W] [DecidableEq ι]

/-- The live blocks by base address. -/
abbrev Heap (W ι : Type*) := W → Option (ι → W)

namespace Heap

/-- The word in slot `i` of the table at `a`. -/
def read (h : Heap W ι) (a : W) (i : ι) : W := (h a).elim 0 fun t => t i

/-- Store `v` in slot `i` of the table at `a`, where that table is live. -/
def write (h : Heap W ι) (a : W) (i : ι) (v : W) : Heap W ι :=
  fun b => if b = a then (h a).map fun t => Function.update t i v else h b

/-- Make the block at `a` live, with contents `t`. -/
def alloc (h : Heap W ι) (a : W) (t : ι → W) : Heap W ι :=
  fun b => if b = a then some t else h b

/-- Hang a cleared table at `a` in slot `i` of the table at `parent`. -/
def grow (h : Heap W ι) (parent : W) (i : ι) (a : W) : Heap W ι :=
  (h.alloc a fun _ => 0).write parent i a

/-- Store `0` in the listed slots of the table at `a`, one after the other. -/
def clear (h : Heap W ι) (a : W) (slots : List ι) : Heap W ι :=
  slots.foldl (fun h i => h.write a i 0) h

/-- The table reached from `a` along a path of slots. -/
def descend (h : Heap W ι) : W → List ι → Option W
  | a, [] => some a
  | a, i :: path => if h.read a i = 0 then none else h.descend (h.read a i) path

/-- The data word in slot `i` of the table at the end of `path`, `0` where there
is no such table. -/
def lookup (h : Heap W ι) (root : W) (path : List ι) (i : ι) : W :=
  (h.descend root path).elim 0 fun a => h.read a i

variable {h : Heap W ι} {a b root : W} {i j : ι}

theorem read_write_of_ne (other : b ≠ a ∨ j ≠ i) (v : W) :
    (h.write a i v).read b j = h.read b j := by
  by_cases same : b = a
  · subst same
    have apart : j ≠ i := other.resolve_left fun ne => ne rfl
    cases live : h b with
    | none => simp [read, write, live]
    | some t => simp [read, write, live, Function.update_of_ne apart]
  · simp [read, write, same]

theorem read_write_self (live : (h a).isSome) (v : W) : (h.write a i v).read a i = v := by
  obtain ⟨t, block⟩ := Option.isSome_iff_exists.mp live
  simp [read, write, block]

/-- Storing what a slot holds changes nothing. -/
theorem write_read (live : (h a).isSome) : h.write a i (h.read a i) = h := by
  obtain ⟨t, block⟩ := Option.isSome_iff_exists.mp live
  funext b
  by_cases same : b = a
  · subst same
    simp [write, read, block]
  · simp [write, same]

omit [Zero W] in
theorem isSome_write (v : W) : ((h.write a i v) b).isSome = (h b).isSome := by
  by_cases same : b = a
  · subst same
    simp [write]
  · simp [write, same]

theorem clear_apply (slots : List ι) (b : W) :
    (h.clear a slots) b =
      if b = a then (h a).map fun t i => if i ∈ slots then 0 else t i else h b := by
  induction slots generalizing h with
  | nil => by_cases same : b = a <;> simp [clear, same]
  | cons i slots ih =>
      have rest : (h.clear a (i :: slots)) b = ((h.write a i 0).clear a slots) b := rfl
      rw [rest, ih]
      by_cases same : b = a
      · subst same
        cases block : h b with
        | none => simp [write, block]
        | some t =>
            simp only [write, block, if_true, Option.map_some, Option.some.injEq]
            funext j
            by_cases later : j ∈ slots
            · simp [later]
            · by_cases here : j = i <;> simp [later, here]
      · simp [write, same]

/-- Linking a fresh block first and clearing it afterwards is growing. -/
theorem clear_write_alloc (other : root ≠ a) (t : ι → W) {slots : List ι}
    (all : ∀ i, i ∈ slots) :
    ((h.alloc a t).write root i a).clear a slots = h.grow root i a := by
  funext b
  rw [clear_apply]
  by_cases fresh : b = a
  · subst fresh
    simp [grow, write, alloc, all, other.symm]
  · by_cases parent : b = root
    · subst parent
      simp [grow, write, alloc, fresh]
    · simp [grow, write, alloc, fresh, parent]

theorem read_grow_of_ne (unused : b ≠ a) (other : b ≠ root ∨ j ≠ i) :
    (h.grow root i a).read b j = h.read b j := by
  rw [grow, read_write_of_ne other]
  simp [read, alloc, unused]

theorem read_grow_parent (live : (h root).isSome) : (h.grow root i a).read root i = a := by
  refine read_write_self ?_ a
  by_cases same : root = a
  · simp [alloc, same]
  · simpa [alloc, same] using live

theorem read_grow_fresh (other : root ≠ a) : (h.grow root i a).read a j = 0 := by
  rw [grow, read_write_of_ne (.inl other.symm)]
  simp [read, alloc]

theorem isSome_grow : ((h.grow root i a) b).isSome = (decide (b = a) || (h b).isSome) := by
  rw [grow, isSome_write]
  by_cases same : b = a
  · simp [alloc, same]
  · simp [alloc, same]

omit [DecidableEq ι] in
theorem descend_append (root : W) (path rest : List ι) :
    h.descend root (path ++ rest) = (h.descend root path).bind fun a => h.descend a rest := by
  induction path generalizing root with
  | nil => rfl
  | cons i path ih =>
      rw [List.cons_append, descend, descend, ih]
      split <;> rfl

omit [DecidableEq ι] in
theorem descend_snoc (root : W) (path : List ι) (i : ι) :
    h.descend root (path ++ [i]) =
      (h.descend root path).bind fun a => if h.read a i = 0 then none else some (h.read a i) :=
  descend_append root path [i]

end Heap

/-- Tables of depth at most `depth` are live, and each hangs at one path only. -/
structure Tree (h : Heap W ι) (root : W) (depth : Nat) : Prop where
  live : ∀ path a, path.length ≤ depth → h.descend root path = some a → (h a).isSome
  unique : ∀ path path' a, path.length ≤ depth → path'.length ≤ depth →
    h.descend root path = some a → h.descend root path' = some a → path = path'

namespace Tree

open Heap

variable {h : Heap W ι} {root a fresh : W} {depth : Nat} {path : List ι} {i : ι}

/-- A data word is stored without moving any table. -/
theorem descend_write (tree : Tree h root depth) (here : h.descend root path = some a)
    (leaf : path.length = depth) (v : W) (path' : List ι) (within : path'.length ≤ depth) :
    (h.write a i v).descend root path' = h.descend root path' := by
  induction path' using List.reverseRecOn with
  | nil => rfl
  | append_singleton front j ih =>
      rw [List.length_append, List.length_singleton] at within
      rw [descend_snoc, descend_snoc, ih (by omega)]
      cases above : h.descend root front with
      | none => rfl
      | some b =>
          have apart : b ≠ a := by
            rintro rfl
            have same := tree.unique front path b (by omega) leaf.le above here
            subst same
            omega
          simp only [Option.bind_some, read_write_of_ne (.inl apart)]

theorem write (tree : Tree h root depth) (here : h.descend root path = some a)
    (leaf : path.length = depth) (v : W) : Tree (h.write a i v) root depth where
  live := by
    intro path' b within reached
    rw [tree.descend_write here leaf v path' within] at reached
    rw [isSome_write]
    exact tree.live path' b within reached
  unique := by
    intro first second b within within' reached reached'
    rw [tree.descend_write here leaf v _ within] at reached
    rw [tree.descend_write here leaf v _ within'] at reached'
    exact tree.unique first second b within within' reached reached'

/-- A store at a data slot is seen at that slot and nowhere else. -/
theorem lookup_write (tree : Tree h root depth) (here : h.descend root path = some a)
    (leaf : path.length = depth) (v : W) {path' : List ι} (leaf' : path'.length = depth) (j : ι) :
    (h.write a i v).lookup root path' j =
      if path' = path ∧ j = i then v else h.lookup root path' j := by
  rw [lookup, lookup, tree.descend_write here leaf v path' leaf'.le]
  split_ifs with same
  · obtain ⟨rfl, rfl⟩ := same
    rw [here]
    exact read_write_self (tree.live path' a leaf.le here) v
  · cases reached : h.descend root path' with
    | none => rfl
    | some b =>
        refine read_write_of_ne ?_ v
        by_contra! both
        obtain ⟨rfl, rfl⟩ := both
        exact same ⟨tree.unique path' path b leaf'.le leaf.le reached here, rfl⟩

/-- Growing adds one table, at one path, and moves no other. -/
theorem descend_grow (tree : Tree h root depth) (here : h.descend root path = some a)
    (inner : path.length < depth) (empty : h.read a i = 0) (unused : h fresh = none)
    (nonzero : fresh ≠ 0) (path' : List ι) (within : path'.length ≤ depth) :
    (h.grow a i fresh).descend root path' =
      if path' = path ++ [i] then some fresh else h.descend root path' := by
  induction path' using List.reverseRecOn with
  | nil => simp [descend]
  | append_singleton front j ih =>
      rw [List.length_append, List.length_singleton] at within
      have alive := tree.live path a inner.le here
      have fresh_ne : ∀ b, (h b).isSome → b ≠ fresh := by
        rintro b live rfl
        simp [unused] at live
      rw [descend_snoc, ih (by omega)]
      by_cases below : front = path ++ [i]
      · -- one step below the fresh table: it is cleared, and there was nothing before
        subst below
        have longer : (path ++ [i]) ++ [j] ≠ path ++ [i] := by simp
        rw [if_pos rfl, if_neg longer, descend_snoc, descend_snoc, here]
        simp [read_grow_fresh (fresh_ne a alive), empty]
      · rw [if_neg below, descend_snoc]
        cases above : h.descend root front with
        | none =>
            have missing : front ++ [j] ≠ path ++ [i] := by
              intro same
              rw [(List.append_inj' same rfl).1, here] at above
              cases above
            simp [missing]
        | some b =>
            have live := tree.live front b (by omega) above
            by_cases at_slot : b = a ∧ j = i
            · obtain ⟨rfl, rfl⟩ := at_slot
              have same := tree.unique front path b (by omega) inner.le above here
              subst same
              simp [read_grow_parent alive, nonzero]
            · have elsewhere : front ++ [j] ≠ path ++ [i] := by
                intro same
                obtain ⟨rfl, slot⟩ := List.append_inj' same rfl
                rw [here] at above
                exact at_slot ⟨(Option.some.inj above).symm, List.singleton_inj.mp slot⟩
              simp only [Option.bind_some, if_neg elsewhere]
              rw [read_grow_of_ne (fresh_ne b live) (not_and_or.mp at_slot)]

theorem grow (tree : Tree h root depth) (here : h.descend root path = some a)
    (inner : path.length < depth) (empty : h.read a i = 0) (unused : h fresh = none)
    (nonzero : fresh ≠ 0) : Tree (h.grow a i fresh) root depth := by
  have moved := tree.descend_grow here inner empty unused nonzero
  have old : ∀ path' b, path'.length ≤ depth → h.descend root path' = some b → b ≠ fresh := by
    rintro path' b within reached rfl
    have live := tree.live path' b within reached
    simp [unused] at live
  refine ⟨?_, ?_⟩
  · intro path' b within reached
    rw [isSome_grow]
    rw [moved path' within] at reached
    split_ifs at reached with added
    · cases reached
      simp
    · simp [tree.live path' b within reached]
  · intro first second b within within' reached reached'
    rw [moved first within] at reached
    rw [moved second within'] at reached'
    split_ifs at reached with added
    · cases reached
      split_ifs at reached' with added'
      · exact added.trans added'.symm
      · exact absurd rfl (old second _ within' reached')
    · split_ifs at reached' with added'
      · cases reached'
        exact absurd rfl (old first _ within reached)
      · exact tree.unique first second b within within' reached reached'

/-- Growing changes no data word: what hangs below the new table reads `0`, as
it did before. -/
theorem lookup_grow (tree : Tree h root depth) (here : h.descend root path = some a)
    (inner : path.length < depth) (empty : h.read a i = 0) (unused : h fresh = none)
    (nonzero : fresh ≠ 0) {path' : List ι} (leaf' : path'.length = depth) (j : ι) :
    (h.grow a i fresh).lookup root path' j = h.lookup root path' j := by
  have alive := tree.live path a inner.le here
  rw [lookup, lookup, tree.descend_grow here inner empty unused nonzero path' leaf'.le]
  split_ifs with added
  · subst added
    have apart : a ≠ fresh := by
      rintro rfl
      simp [unused] at alive
    rw [descend_snoc, here]
    simp [read_grow_fresh apart, empty]
  · cases reached : h.descend root path' with
    | none => rfl
    | some b =>
        have live := tree.live path' b leaf'.le reached
        refine read_grow_of_ne ?_ (.inl ?_)
        · rintro rfl
          simp [unused] at live
        · rintro rfl
          have same := tree.unique path' path b leaf'.le inner.le reached here
          subst same
          omega

omit [DecidableEq ι] in
/-- A cleared root table is a tree without data. -/
theorem root_cleared (block : h root = some fun _ => 0) : Tree h root depth := by
  have only : ∀ path b, h.descend root path = some b → path = [] ∧ b = root := by
    intro path b reached
    cases path with
    | nil => exact ⟨rfl, (Option.some.inj reached).symm⟩
    | cons i path => simp [descend, Heap.read, block] at reached
  refine ⟨?_, ?_⟩
  · intro path b _ reached
    obtain ⟨-, rfl⟩ := only path b reached
    simp [block]
  · intro first second b _ _ reached reached'
    rw [(only first b reached).1, (only second b reached').1]

end Tree

end RadixTree
