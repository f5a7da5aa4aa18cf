import Mathlib.Data.Finset.Card
import SimpleOs.Lib.LinkedList
import SimpleOs.Lib.RadixTree

/-!
# Freeing linked structures

Freeing is only defined on what is allocated, and so are reading and writing: here they
answer `none` elsewhere. A procedure that frees a structure node by node is therefore safe
where it answers, and then it has freed nothing twice and read nothing that it had freed.

A list is freed from its head on, the link of each node read before the node goes. That
works exactly for lists that end and whose nodes are all allocated. A tree of tables is
freed in post-order, each slot emptied after what hung in it. `blocks` are its tables in
that order; what the procedure needs is that none of them occurs twice.
-/

namespace LinkedList

variable {P : Type*} [DecidableEq P] {next : P → Option P} {live live' : Finset P}
  {head : Option P} {p : P}

/-- Free the nodes of the list from `head`; `none` where one of them is not allocated. -/
def release (next : P → Option P) (live : Finset P) : Option P → Option (Finset P)
  | none => some live
  | some p => if p ∈ live then release next (live.erase p) (next p) else none
termination_by live.card
decreasing_by exact Finset.card_erase_lt_of_mem ‹_›

@[simp] theorem release_none : release next live none = some live := by
  unfold release
  rfl

theorem release_some (alive : p ∈ live) :
    release next live (some p) = release next (live.erase p) (next p) := by
  rw [release, if_pos alive]

theorem release_dead (dead : p ∉ live) : release next live (some p) = none := by
  rw [release, if_neg dead]

/-- What is freed are the nodes of a list that ends, all of them allocated. -/
theorem path_of_release (released : release next live head = some live') :
    ∃ ps, Path next head ps none ∧ (∀ p ∈ ps, p ∈ live) ∧ live' = live \ ps.toFinset := by
  induction live, head using release.induct next with
  | case1 live =>
      rw [release_none] at released
      cases released
      exact ⟨[], rfl, by simp, by simp⟩
  | case2 live p alive ih =>
      rw [release_some alive] at released
      obtain ⟨ps, path, allocated, rest⟩ := ih released
      refine ⟨p :: ps, ⟨rfl, path⟩, ?_, ?_⟩
      · exact List.forall_mem_cons.mpr ⟨alive, fun q member =>
          Finset.mem_of_mem_erase (allocated q member)⟩
      · rw [rest, List.toFinset_cons, Finset.sdiff_insert, Finset.erase_sdiff_comm]
  | case3 live p dead =>
      rw [release_dead dead] at released
      cases released

/-- A list that ends and is allocated is freed, and nothing else. -/
theorem release_of_path {ps : List P} (path : Path next head ps none)
    (allocated : ∀ p ∈ ps, p ∈ live) : release next live head = some (live \ ps.toFinset) := by
  have once := path.nodup
  induction ps generalizing head live with
  | nil =>
      cases path
      simp
  | cons p ps ih =>
      obtain ⟨rfl, rest⟩ := path
      obtain ⟨here, later⟩ := List.forall_mem_cons.mp allocated
      obtain ⟨absent, once⟩ := List.nodup_cons.mp once
      have kept : ∀ q ∈ ps, q ∈ live.erase p := by
        intro q member
        refine Finset.mem_erase.mpr ⟨?_, later q member⟩
        rintro rfl
        exact absent member
      rw [release_some here, ih rest kept once, List.toFinset_cons, Finset.sdiff_insert,
        Finset.erase_sdiff_comm]

/-- Freeing a list is safe exactly if it ends and all its nodes are allocated. -/
theorem release_eq_some_iff : release next live head = some live' ↔
    ∃ ps, Path next head ps none ∧ (∀ p ∈ ps, p ∈ live) ∧ live' = live \ ps.toFinset := by
  constructor
  · exact path_of_release
  · rintro ⟨ps, path, allocated, rfl⟩
    exact release_of_path path allocated

end LinkedList

namespace RadixTree

variable {W ι : Type*} [Zero W] [DecidableEq W] [DecidableEq ι]

namespace Heap

/-- Free the block at `a`. -/
def free (h : Heap W ι) (a : W) : Option (Heap W ι) :=
  if (h a).isSome then some (Function.update h a none) else none

/-- The word in slot `i` of the table at `a`, which has to be live. -/
def load (h : Heap W ι) (a : W) (i : ι) : Option W := (h a).map fun t => t i

/-- Store `v` in slot `i` of the table at `a`, which has to be live. -/
def store (h : Heap W ι) (a : W) (i : ι) (v : W) : Option (Heap W ι) :=
  if (h a).isSome then some (h.write a i v) else none

/-- Free what hangs in slot `i` of the table at `a`, if anything does, and empty the slot. -/
def releaseSlot (below : W → Heap W ι → Option (Heap W ι)) (a : W) (h : Heap W ι) (i : ι) :
    Option (Heap W ι) :=
  (h.load a i).bind fun b =>
    if b = 0 then some h else (below b h).bind fun h => h.store a i 0

/-- Free the table at `a` with all that hangs in its slots, down to the tables at `depth`. -/
def release (slots : List ι) : (depth : Nat) → W → Heap W ι → Option (Heap W ι)
  | 0, a, h => h.free a
  | depth + 1, a, h =>
      (slots.foldlM (releaseSlot (release slots depth) a) h).bind fun h => h.free a

/-- The tables from `a` down to `depth`, each after those that hang in its slots. -/
def blocks (slots : List ι) (h : Heap W ι) : (depth : Nat) → W → List W
  | 0, a => [a]
  | depth + 1, a =>
      (slots.flatMap fun i => if h.read a i = 0 then [] else blocks slots h depth (h.read a i)) ++ [a]

/-- The tables that hang in slot `i`. -/
def blocksIn (slots : List ι) (h : Heap W ι) (depth : Nat) (a : W) (i : ι) : List W :=
  if h.read a i = 0 then [] else blocks slots h depth (h.read a i)

variable {slots : List ι} {h h' : Heap W ι} {depth : Nat} {a b : W}

omit [DecidableEq ι] in
theorem blocks_succ : blocks slots h (depth + 1) a =
    slots.flatMap (blocksIn slots h depth a) ++ [a] := rfl

omit [DecidableEq ι] in
theorem self_mem_blocks : a ∈ blocks slots h depth a := by
  cases depth <;> simp [blocks]

omit [DecidableEq ι] in
/-- The tables below `a` are found in them alone. -/
theorem blocks_congr (same : ∀ b ∈ blocks slots h depth a, h' b = h b) :
    blocks slots h' depth a = blocks slots h depth a := by
  induction depth generalizing a with
  | zero => rfl
  | succ depth ih =>
      have words : ∀ i, h'.read a i = h.read a i := by
        intro i
        rw [read, read, same a self_mem_blocks]
      rw [blocks_succ, blocks_succ]
      congr 1
      refine List.flatMap_congr fun i member => ?_
      unfold blocksIn
      rw [words]
      split
      · rfl
      · rename_i some
        refine ih fun b below => same b ?_
        rw [blocks_succ]
        refine List.mem_append_left _ (List.mem_flatMap.mpr ⟨i, member, ?_⟩)
        rwa [blocksIn, if_neg some]

omit [Zero W] [DecidableEq ι] in
theorem free_of_live (live : (h a).isSome) : h.free a = some (Function.update h a none) :=
  if_pos live

/-- What `release` does where it meets no table twice. -/
def Releases (slots : List ι) (depth : Nat) : Prop :=
  ∀ (h : Heap W ι) (a : W), (blocks slots h depth a).Nodup →
    (∀ b ∈ blocks slots h depth a, (h b).isSome) →
      ∃ h', release slots depth a h = some h' ∧
        ∀ b, h' b = if b ∈ blocks slots h depth a then none else h b

/-- The slots of one table, one after the other. -/
theorem foldlM_releaseSlot (below : Releases (W := W) slots depth) (rest : List ι) (h : Heap W ι)
    (distinct : rest.Nodup) (once : (rest.flatMap (blocksIn slots h depth a) ++ [a]).Nodup)
    (live : ∀ b ∈ rest.flatMap (blocksIn slots h depth a) ++ [a], (h b).isSome) :
    ∃ h', rest.foldlM (releaseSlot (release slots depth) a) h = some h' ∧ (h' a).isSome ∧
      ∀ b, b ≠ a → h' b =
        if b ∈ rest.flatMap (blocksIn slots h depth a) then none else h b := by
  induction rest generalizing h with
  | nil => exact ⟨h, rfl, live a (by simp), by simp⟩
  | cons i rest ih =>
      obtain ⟨other, distinct⟩ := List.nodup_cons.mp distinct
      have alive : (h a).isSome := live a (by simp)
      obtain ⟨t, block⟩ := Option.isSome_iff_exists.mp alive
      have word : h.load a i = some (h.read a i) := by simp [load, read, block]
      by_cases empty : h.read a i = 0
      · have nothing : blocksIn slots h depth a i = [] := if_pos empty
        have skips : releaseSlot (release slots depth) a h i = some h := by
          simp [releaseSlot, word, empty]
        rw [List.flatMap_cons, nothing, List.nil_append] at once live
        obtain ⟨h', run, still, freed⟩ := ih h distinct once live
        refine ⟨h', ?_, still, ?_⟩
        · rw [List.foldlM_cons, skips]
          exact run
        · rw [List.flatMap_cons, nothing]
          exact freed
      · have here : blocksIn slots h depth a i = blocks slots h depth (h.read a i) := if_neg empty
        rw [List.flatMap_cons, here, List.append_assoc] at once live
        obtain ⟨onceHere, onceRest, apart⟩ := List.nodup_append.mp once
        obtain ⟨h₁, freesBelow, freedBelow⟩ := below h (h.read a i) onceHere fun b member =>
          live b (List.mem_append_left _ member)
        have outside : ∀ b ∈ rest.flatMap (blocksIn slots h depth a) ++ [a], h₁ b = h b := by
          intro b member
          rw [freedBelow, if_neg fun under => apart b under b member rfl]
        have root : h₁ a = h a := outside a (by simp)
        have clears : releaseSlot (release slots depth) a h i = some (h₁.write a i 0) := by
          simp [releaseSlot, word, empty, freesBelow, store, root, alive]
        have ne_root : ∀ b ∈ rest.flatMap (blocksIn slots h depth a), b ≠ a := fun b member =>
          (List.nodup_append.mp onceRest).2.2 b member a (by simp)
        -- the other slots of the table hold what they held
        have kept : rest.flatMap (blocksIn slots (h₁.write a i 0) depth a) =
            rest.flatMap (blocksIn slots h depth a) := by
          refine List.flatMap_congr fun j member => ?_
          have apart_ij : j ≠ i := by
            rintro rfl
            exact other member
          have words : (h₁.write a i 0).read a j = h.read a j := by
            rw [read_write_of_ne (.inr apart_ij), read, read, root]
          unfold blocksIn
          rw [words]
          split
          · rfl
          · rename_i some
            refine blocks_congr fun b under => ?_
            have listed : b ∈ rest.flatMap (blocksIn slots h depth a) := by
              refine List.mem_flatMap.mpr ⟨j, member, ?_⟩
              rwa [blocksIn, if_neg some]
            rw [write, if_neg (ne_root b listed)]
            exact outside b (List.mem_append_left _ listed)
        obtain ⟨h', run, still, freed⟩ := ih (h₁.write a i 0) distinct (by rwa [kept]) (by
          intro b member
          rw [kept] at member
          rw [isSome_write, outside b member]
          exact live b (List.mem_append_right _ member))
        refine ⟨h', ?_, still, ?_⟩
        · rw [List.foldlM_cons, clears]
          exact run
        · intro b inner
          rw [freed b inner, kept, write, if_neg inner, freedBelow, List.flatMap_cons, here]
          by_cases later : b ∈ rest.flatMap (blocksIn slots h depth a)
          · rw [if_pos later, if_pos (List.mem_append_right _ later)]
          · rw [if_neg later]
            refine if_congr ⟨List.mem_append_left _, ?_⟩ rfl rfl
            exact fun member => (List.mem_append.mp member).resolve_right later

theorem releases (distinct : slots.Nodup) (depth : Nat) :
    Releases (W := W) slots depth := by
  induction depth with
  | zero =>
      intro h a _ live
      refine ⟨_, free_of_live (live a self_mem_blocks), fun b => ?_⟩
      by_cases same : b = a
      · subst same
        simp [blocks]
      · simp [blocks, same]
  | succ depth ih =>
      intro h a once live
      rw [blocks_succ] at once live
      obtain ⟨h₁, run, still, freed⟩ := foldlM_releaseSlot ih slots h distinct once live
      refine ⟨Function.update h₁ a none, ?_, fun b => ?_⟩
      · rw [release, run]
        exact free_of_live still
      · by_cases same : b = a
        · subst same
          simp [blocks_succ]
        · rw [Function.update_of_ne same, freed b same, blocks_succ]
          simp [same]

end Heap

namespace Tree

open Heap

variable {slots : List ι} {h : Heap W ι} {root a : W} {depth : Nat} {i : ι}

omit [DecidableEq ι] in
/-- What hangs in a slot of the root is a tree of its own. -/
theorem below (tree : Tree h root (depth + 1)) (some : h.read root i ≠ 0) :
    Tree h (h.read root i) depth := by
  have longer : ∀ path, h.descend root (i :: path) = h.descend (h.read root i) path := by
    intro path
    rw [descend, if_neg some]
  refine ⟨?_, ?_⟩
  · intro path b within reached
    exact tree.live (i :: path) b (Nat.succ_le_succ within) (by rw [longer, reached])
  · intro path path' b within within' reached reached'
    have same := tree.unique (i :: path) (i :: path') b (Nat.succ_le_succ within)
      (Nat.succ_le_succ within') (by rw [longer, reached]) (by rw [longer, reached'])
    exact (List.cons.inj same).2

omit [DecidableEq ι] in
/-- The tables that are freed are those within `depth`. -/
theorem mem_blocks (all : ∀ i, i ∈ slots) : a ∈ blocks slots h depth root ↔
    ∃ path, path.length ≤ depth ∧ h.descend root path = some a := by
  induction depth generalizing root with
  | zero =>
      constructor
      · intro member
        exact ⟨[], Nat.le_refl _, by rw [descend, List.mem_singleton.mp member]⟩
      · rintro ⟨path, short, reached⟩
        rw [List.eq_nil_of_length_eq_zero (Nat.le_zero.mp short)] at reached
        cases reached
        exact List.mem_singleton_self _
  | succ depth ih =>
      rw [blocks_succ, List.mem_append, List.mem_flatMap, List.mem_singleton]
      constructor
      · rintro (⟨i, -, member⟩ | rfl)
        · unfold blocksIn at member
          split at member
          · cases member
          · rename_i some
            obtain ⟨path, short, reached⟩ := ih.mp member
            refine ⟨i :: path, Nat.succ_le_succ short, ?_⟩
            rwa [descend, if_neg some]
        · exact ⟨[], Nat.zero_le _, rfl⟩
      · rintro ⟨path, short, reached⟩
        cases path with
        | nil =>
            cases reached
            exact .inr rfl
        | cons i path =>
            rw [descend] at reached
            split at reached
            · cases reached
            · rename_i some
              refine .inl ⟨i, all i, ?_⟩
              rw [blocksIn, if_neg some]
              exact ih.mpr ⟨path, Nat.le_of_succ_le_succ short, reached⟩

omit [DecidableEq ι] in
/-- No table of a tree is met twice. -/
theorem nodup_blocks (tree : Tree h root depth) (all : ∀ i, i ∈ slots) (distinct : slots.Nodup) :
    (blocks slots h depth root).Nodup := by
  induction depth generalizing root with
  | zero => exact List.nodup_singleton _
  | succ depth ih =>
      have under : ∀ i b, b ∈ blocksIn slots h depth root i →
          ∃ path, path.length ≤ depth ∧ h.descend root (i :: path) = some b := by
        intro i b member
        unfold blocksIn at member
        split at member
        · cases member
        · rename_i some
          obtain ⟨path, short, reached⟩ := (mem_blocks all).mp member
          exact ⟨path, short, by rwa [descend, if_neg some]⟩
      rw [blocks_succ, List.nodup_append]
      refine ⟨List.nodup_flatMap.mpr ⟨?_, ?_⟩, List.nodup_singleton _, ?_⟩
      · intro i _
        unfold blocksIn
        split
        · exact List.nodup_nil
        · rename_i some
          exact ih (tree.below some)
      · refine distinct.imp fun {i j} apart => ?_
        intro b here there
        obtain ⟨path, short, reached⟩ := under i b here
        obtain ⟨path', short', reached'⟩ := under j b there
        have same := tree.unique (i :: path) (j :: path') b (Nat.succ_le_succ short)
          (Nat.succ_le_succ short') reached reached'
        exact apart (List.cons.inj same).1
      · intro b member c last
        obtain ⟨i, -, here⟩ := List.mem_flatMap.mp member
        obtain ⟨path, short, reached⟩ := under i b here
        rw [List.mem_singleton.mp last]
        rintro rfl
        have same := tree.unique (i :: path) [] b (Nat.succ_le_succ short) (Nat.zero_le _) reached rfl
        cases same

/-- A tree is freed completely, each table once, and nothing else is. -/
theorem release (tree : Tree h root depth) (all : ∀ i, i ∈ slots) (distinct : slots.Nodup) :
    ∃ h', Heap.release slots depth root h = some h' ∧
      (∀ path a, path.length ≤ depth → h.descend root path = some a → h' a = none) ∧
      ∀ a, (∀ path, path.length ≤ depth → h.descend root path ≠ some a) → h' a = h a := by
  have live : ∀ a ∈ blocks slots h depth root, (h a).isSome := by
    intro a member
    obtain ⟨path, short, reached⟩ := (mem_blocks all).mp member
    exact tree.live path a short reached
  obtain ⟨h', released, freed⟩ := releases distinct depth h root
    (tree.nodup_blocks all distinct) live
  refine ⟨h', released, ?_, ?_⟩
  · intro path a short reached
    rw [freed, if_pos ((mem_blocks all).mpr ⟨path, short, reached⟩)]
  · intro a outside
    rw [freed, if_neg]
    intro member
    obtain ⟨path, short, reached⟩ := (mem_blocks all).mp member
    exact outside path short reached

end Tree

/-- Every live table hangs in the tree. -/
def Tight (h : Heap W ι) (root : W) (depth : Nat) : Prop :=
  ∀ a, (h a).isSome → ∃ path, path.length ≤ depth ∧ h.descend root path = some a

namespace Tight

open Heap

variable {slots : List ι} {h : Heap W ι} {root a fresh : W} {depth : Nat} {path : List ι} {i : ι}

theorem write (tight : Tight h root depth) (tree : Tree h root depth)
    (here : h.descend root path = some a) (leaf : path.length = depth) (v : W) :
    Tight (h.write a i v) root depth := by
  intro b live
  rw [isSome_write] at live
  obtain ⟨path', within, reached⟩ := tight b live
  exact ⟨path', within, by rw [tree.descend_write here leaf v path' within, reached]⟩

theorem grow (tight : Tight h root depth) (tree : Tree h root depth)
    (here : h.descend root path = some a) (inner : path.length < depth) (empty : h.read a i = 0)
    (unused : h fresh = none) (nonzero : fresh ≠ 0) : Tight (h.grow a i fresh) root depth := by
  have moved := tree.descend_grow here inner empty unused nonzero
  intro b live
  by_cases new : b = fresh
  · subst new
    have within : (path ++ [i]).length ≤ depth := by
      rw [List.length_append, List.length_singleton]
      exact inner
    exact ⟨path ++ [i], within, by rw [moved _ within, if_pos rfl]⟩
  · rw [isSome_grow] at live
    obtain ⟨path', within, reached⟩ := tight b (by simpa [new] using live)
    refine ⟨path', within, ?_⟩
    have elsewhere : path' ≠ path ++ [i] := by
      rintro rfl
      rw [descend_snoc, here] at reached
      simp [empty] at reached
    rw [moved _ within, if_neg elsewhere, reached]

/-- Where nothing is live outside the tree, nothing is live once it is freed. -/
theorem release (tight : Tight h root depth) (tree : Tree h root depth) (all : ∀ i, i ∈ slots)
    (distinct : slots.Nodup) :
    ∃ h', Heap.release slots depth root h = some h' ∧ ∀ a, h' a = none := by
  obtain ⟨h', released, freed, kept⟩ := tree.release all distinct
  refine ⟨h', released, fun a => ?_⟩
  by_cases inside : ∃ path, path.length ≤ depth ∧ h.descend root path = some a
  · obtain ⟨path, short, reached⟩ := inside
    exact freed path a short reached
  · push Not at inside
    rw [kept a inside]
    by_contra live
    obtain ⟨path, short, reached⟩ := tight a (Option.isSome_iff_ne_none.mpr live)
    exact inside path short reached

end Tight

end RadixTree
