import SimpleOs.Lib.LinkedList
import SimpleOs.Mem.Paging

/-!
# The FIFO list of pages

`fifo_pgn` as nodes linked by `pg_next`. A page is enlisted at the head and a victim is
taken from the tail, which a walk with a trailing pointer finds. The list is a queue
read backwards. The walk leaves the trailing pointer `NULL` where the first node is the
last one as well, and the victim is unlinked through it all the same.
-/

namespace SimpleOs.Mem

open LinkedList (Path search search_spec path_split)

variable {b : Build}

/-- The nodes of `struct pgn_t` at the addresses below `fresh`, of which `fifoPgn` is the
head of the list. -/
structure PgnList (b : Build) where
  fifoPgn : Option Nat
  pgn : Nat → b.Word
  pgNext : Nat → Option Nat
  fresh : Nat

namespace PgnList

/-- `fifo_pgn = NULL` -/
def init (b : Build) : PgnList b := ⟨none, fun _ => 0, fun _ => none, 0⟩

/-- `enlist_pgn_node` -/
def enlistPgnNode (s : PgnList b) (pgn : b.Word) : PgnList b where
  fifoPgn := some s.fresh
  pgn := Function.update s.pgn s.fresh pgn
  pgNext := Function.update s.pgNext s.fresh s.fifoPgn
  fresh := s.fresh + 1

/-- `find_victim_page`, with the page or `none` where it returns `-1`. The fuel of the walk
is more than a list of the nodes there are needs. -/
def findVictimPage (s : PgnList b) : Option (PgnList b × Option b.Word) :=
  match s.fifoPgn with
  | none => some (s, none)
  | some _ =>
      match search s.pgNext (fun pg => (s.pgNext pg).isNone) (s.fresh + 1) none s.fifoPgn with
      | some (some prev, some pg) =>
          some ({ s with pgNext := Function.update s.pgNext prev none }, some (s.pgn pg))
      | _ => none

/-- The list holds the pages of a queue, the one that waits longest at its end. -/
structure Holds (s : PgnList b) (waiting : List b.Word) (ps : List Nat) : Prop where
  path : Path s.pgNext s.fifoPgn ps none
  pages : ps.map s.pgn = waiting.reverse
  bound : ∀ p ∈ ps, p < s.fresh

theorem holds_init (b : Build) : (init b).Holds [] [] :=
  ⟨rfl, rfl, by simp⟩

namespace Holds

variable {s t : PgnList b} {waiting : List b.Word} {ps : List Nat} {result : Option b.Word}

theorem length_eq (holds : s.Holds waiting ps) : ps.length = waiting.length := by
  have lengths := congrArg List.length holds.pages
  simpa using lengths

/-- There are no more pages on the list than there are nodes. -/
theorem length_le (holds : s.Holds waiting ps) : ps.length ≤ s.fresh := by
  have inside : ps ⊆ List.range s.fresh := fun p member => List.mem_range.mpr (holds.bound p member)
  have shorter := (holds.path.nodup.subperm inside).length_le
  rwa [List.length_range] at shorter

/-- A page that is enlisted waits behind all others. -/
theorem enlistPgnNode (holds : s.Holds waiting ps) (pgn : b.Word) :
    (s.enlistPgnNode pgn).Holds (waiting ++ [pgn]) (s.fresh :: ps) := by
  have absent : s.fresh ∉ ps := fun member => Nat.lt_irrefl _ (holds.bound _ member)
  refine ⟨⟨rfl, ?_⟩, ?_, ?_⟩
  · show Path _ (Function.update s.pgNext s.fresh s.fifoPgn s.fresh) ps none
    rw [Function.update_self]
    exact holds.path.update absent _
  · have others : ps.map (Function.update s.pgn s.fresh pgn) = ps.map s.pgn := by
      apply List.map_congr_left
      rintro p member
      apply Function.update_of_ne
      rintro rfl
      exact absent member
    rw [List.map_cons, List.reverse_append, List.reverse_singleton, List.singleton_append]
    show Function.update s.pgn s.fresh pgn s.fresh ::
      ps.map (Function.update s.pgn s.fresh pgn) = _
    rw [Function.update_self, others, holds.pages]
  · refine List.forall_mem_cons.mpr ⟨Nat.lt_succ_self _, ?_⟩
    exact fun p member => Nat.lt_succ_of_lt (holds.bound p member)

theorem head_eq_none (holds : s.Holds [] ps) : s.fifoPgn = none := by
  have empty : ps = [] := List.eq_nil_of_length_eq_zero holds.length_eq
  have path := holds.path
  rw [empty] at path
  exact path

/-- Without a page the search fails and changes nothing. -/
theorem findVictimPage_nil (holds : s.Holds [] ps) : s.findVictimPage = some (s, none) := by
  rw [PgnList.findVictimPage, holds.head_eq_none]

/-- The walk stops at the last node, with the one before it at hand. -/
theorem search_last (holds : s.Holds waiting ps) :
    search s.pgNext (fun pg => (s.pgNext pg).isNone) (s.fresh + 1) none s.fifoPgn =
      some (ps.dropLast.getLast?, ps.getLast?) := by
  obtain ⟨before, found, after, split, first, passed, met, walk⟩ :
      ∃ before found after, ps = before ++ after ∧ after.head? = found ∧
        (∀ p ∈ before, (s.pgNext p).isNone = false) ∧
        (∀ p, found = some p → (s.pgNext p).isNone = true) ∧
        search s.pgNext (fun pg => (s.pgNext pg).isNone) (s.fresh + 1) none s.fifoPgn =
          some (before.getLast?.or none, found) :=
    search_spec holds.path (Nat.lt_succ_of_le holds.length_le)
  have path := holds.path
  rw [walk, Option.or_none, split]
  rw [split] at path
  cases after with
  | nil =>
      cases first
      cases List.eq_nil_or_concat before with
      | inl none => simp [none]
      | inr last =>
          -- the last node ends the list, so the walk has not passed it
          obtain ⟨init, last, rfl⟩ := last
          rw [List.concat_eq_append, List.append_nil] at path
          have ends : s.pgNext last = none := (path_split.mp path).2
          have goesOn := passed last (by simp)
          simp [ends] at goesOn
  | cons p after =>
      cases first
      have ends : s.pgNext p = none := Option.isNone_iff_eq_none.mp (met p rfl)
      have rest := (path_split.mp path).2
      rw [ends] at rest
      cases after with
      | nil => simp
      | cons q after => cases rest.1

/-- With one page there is no node before the last one. -/
theorem findVictimPage_lone {pgn : b.Word} (holds : s.Holds [pgn] ps) :
    s.findVictimPage = none := by
  obtain ⟨p, rfl⟩ := List.length_eq_one_iff.mp holds.length_eq
  have head : s.fifoPgn = some p := holds.path.1
  have walk := holds.search_last
  rw [head] at walk
  rw [PgnList.findVictimPage, head]
  simp only [walk, List.dropLast_singleton, List.getLast?_nil]

/-- With more pages the one that waits longest is returned and leaves the list. -/
theorem findVictimPage_cons {first second : b.Word} {rest : List b.Word}
    (holds : s.Holds (first :: second :: rest) ps) :
    ∃ t qs, s.findVictimPage = some (t, some first) ∧ t.Holds (second :: rest) qs := by
  have lengths := holds.length_eq
  obtain ⟨qs, prev, last, rfl⟩ : ∃ qs prev last, ps = qs ++ [prev] ++ [last] := by
    obtain none | ⟨init, last, rfl⟩ := List.eq_nil_or_concat ps
    · simp [none] at lengths
    · obtain none | ⟨init, prev, rfl⟩ := List.eq_nil_or_concat init
      · simp [none] at lengths
      · exact ⟨init, prev, last, by simp⟩
  have pages := holds.pages
  simp only [List.map_append, List.map_singleton, List.reverse_cons] at pages
  obtain ⟨others, oldest⟩ := List.append_inj' pages rfl
  have distinct := holds.path.nodup
  have walk := holds.search_last
  rw [List.dropLast_concat, List.getLast?_concat, List.getLast?_concat] at walk
  have path := holds.path
  obtain ⟨p, head⟩ : ∃ p, s.fifoPgn = some p := by
    rw [← path.head_eq]
    cases qs <;> exact ⟨_, rfl⟩
  refine ⟨{ s with pgNext := Function.update s.pgNext prev none }, qs ++ [prev], ?_, ?_, ?_,
    fun p member => holds.bound p (List.mem_append_left _ member)⟩
  · rw [head] at walk
    rw [PgnList.findVictimPage, head]
    simp only [walk, List.cons.inj oldest]
  · have before : prev ∉ qs := by
      have parts := (List.nodup_append.mp distinct).1
      exact fun member => (List.nodup_append.mp parts).2.2 prev member prev (by simp) rfl
    rw [List.append_assoc, List.singleton_append] at path
    exact (path_split.mp path).1.redirect before (by simp) rfl
  · simpa using others

/-- The queue of `find_victim_page` is the list that demand paging works on. -/
theorem findVictimPage_fifo (holds : s.Holds waiting ps) :
    (s.findVictimPage).map Prod.snd =
      (Mem.findVictimPage ⟨waiting.reverse, false⟩).map (Option.map Prod.fst) := by
  match waiting, holds with
  | [], holds => simp [holds.findVictimPage_nil, Mem.findVictimPage]
  | [pgn], holds => simp [holds.findVictimPage_lone, Mem.findVictimPage]
  | first :: second :: rest, holds =>
      obtain ⟨t, qs, found, -⟩ := holds.findVictimPage_cons
      obtain ⟨pgn, next, tail, turned⟩ :
          ∃ pgn next tail, (first :: second :: rest).reverse = pgn :: next :: tail := by
        match turned : (first :: second :: rest).reverse with
        | [] => simp at turned
        | [_] => simpa using congrArg List.length turned
        | pgn :: next :: tail => exact ⟨pgn, next, tail, rfl⟩
      have oldest := congrArg List.getLast? turned
      rw [List.getLast?_reverse, List.head?_cons, List.getLast?_cons_cons] at oldest
      have last : (next :: tail).getLastD pgn = first := by
        rw [List.getLastD_eq_getLast?, ← oldest, Option.getD_some]
      rw [found, turned]
      simp only [Mem.findVictimPage, last, Bool.false_eq_true, if_false, Option.map_some]

end Holds

end PgnList

/-- The calls on the FIFO list of one `mm`. -/
inductive FifoCall (b : Build) where
  | enlistPgnNode (pgn : b.Word)
  | findVictimPage

namespace PgnList

/-- The list is as the pages in `waiting` have come, and each call of `find_victim_page`
returns the page that waits longest, or `-1` where none does. -/
def VictimsInOrder : PgnList b → (waiting : List b.Word) → List (FifoCall b) → Prop
  | s, waiting, [] => ∃ ps, s.Holds waiting ps
  | s, waiting, .enlistPgnNode pgn :: calls =>
      (∃ ps, s.Holds waiting ps) ∧
        VictimsInOrder (s.enlistPgnNode pgn) (waiting ++ [pgn]) calls
  | s, [], .findVictimPage :: calls =>
      (∃ ps, s.Holds [] ps) ∧ s.findVictimPage = some (s, none) ∧ VictimsInOrder s [] calls
  | s, first :: rest, .findVictimPage :: calls =>
      (∃ ps, s.Holds (first :: rest) ps) ∧
        ∃ t, s.findVictimPage = some (t, some first) ∧ VictimsInOrder t rest calls

/-- No victim is asked for while exactly one page is enlisted; `count` are at the start. -/
def NeverLone : (count : Nat) → List (FifoCall b) → Prop
  | _, [] => True
  | count, .enlistPgnNode _ :: calls => NeverLone (count + 1) calls
  | count, .findVictimPage :: calls => count ≠ 1 ∧ NeverLone (count - 1) calls

theorem victimsInOrder_iff_neverLone {s : PgnList b} {waiting : List b.Word} {ps : List Nat}
    (holds : s.Holds waiting ps) (calls : List (FifoCall b)) :
    VictimsInOrder s waiting calls ↔ NeverLone waiting.length calls := by
  induction calls generalizing s waiting ps with
  | nil => simpa [VictimsInOrder, NeverLone] using ⟨ps, holds⟩
  | cons call calls ih =>
      cases call with
      | enlistPgnNode pgn =>
          have rest := ih (holds.enlistPgnNode pgn)
          rw [List.length_append, List.length_singleton] at rest
          rw [VictimsInOrder, NeverLone, rest]
          exact and_iff_right ⟨ps, holds⟩
      | findVictimPage =>
          match waiting, holds with
          | [], holds =>
              rw [VictimsInOrder, NeverLone, ih holds]
              simpa [holds.findVictimPage_nil] using fun _ => ⟨ps, holds⟩
          | [pgn], holds =>
              rw [VictimsInOrder, NeverLone, holds.findVictimPage_lone]
              simp
          | first :: second :: rest, holds =>
              obtain ⟨t, qs, found, left⟩ := holds.findVictimPage_cons
              rw [VictimsInOrder, NeverLone, found]
              simp only [Option.some.injEq, Prod.mk.injEq, and_true, exists_eq_left', ih left]
              simpa using fun _ => ⟨ps, holds⟩

/-- Victims are found in the order in which pages were enlisted, exactly as long as none
is asked for while one page is on the list. -/
theorem victims_in_order_iff (calls : List (FifoCall b)) :
    VictimsInOrder (init b) [] calls ↔ NeverLone 0 calls :=
  victimsInOrder_iff_neverLone (holds_init b) calls

/-- The only page is enlisted and asked for again. -/
theorem lone_page_faults : ¬ ∀ calls : List (FifoCall .mm32), VictimsInOrder (init .mm32) [] calls := by
  intro inOrder
  obtain ⟨-, -, t, found, -⟩ := inOrder [.enlistPgnNode 0, .findVictimPage]
  have faults : ((init .mm32).enlistPgnNode 0).findVictimPage.isNone = true := by decide
  rw [found] at faults
  exact Bool.noConfusion faults

end PgnList

end SimpleOs.Mem
