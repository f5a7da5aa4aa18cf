import Mathlib.Data.List.Nodup
import Mathlib.Data.List.Perm.Subperm
import Mathlib.Logic.Function.Basic

/-!
# Lists of nodes linked by pointers

Nodes are pointers, and `next` is the field that links each to the one after it. A
`Path` follows these links through given nodes; a list is a path that arrives at the
null pointer. The rules say what becomes of a path when one link is changed: nodes it
does not pass may be relinked freely, and a node it passes is a place where it can be
cut.

`search` is the loop that walks a list until a node meets a condition, with the node
before it at hand. Its fuel only matters on a list that never ends.
-/

namespace LinkedList

variable {P : Type*} {next next' : P → Option P} {head last : Option P} {ps qs : List P} {p q : P}

/-- Following `next` from `head` passes the nodes `ps` and arrives at `last`. -/
def Path (next : P → Option P) : Option P → List P → Option P → Prop
  | head, [], last => head = last
  | head, p :: ps, last => head = some p ∧ Path next (next p) ps last

@[simp] theorem path_nil : Path next head [] last ↔ head = last := .rfl

@[simp] theorem path_cons :
    Path next head (p :: ps) last ↔ head = some p ∧ Path next (next p) ps last := .rfl

theorem path_append : Path next head (ps ++ qs) last ↔
    ∃ middle, Path next head ps middle ∧ Path next middle qs last := by
  induction ps generalizing head with
  | nil => simp
  | cons p ps ih =>
      rw [List.cons_append, path_cons, ih]
      constructor
      · rintro ⟨start, middle, first, second⟩
        exact ⟨middle, ⟨start, first⟩, second⟩
      · rintro ⟨middle, ⟨start, first⟩, second⟩
        exact ⟨start, middle, first, second⟩

/-- A path cut at one of its nodes. -/
theorem path_split : Path next head (ps ++ p :: qs) last ↔
    Path next head ps (some p) ∧ Path next (next p) qs last := by
  rw [path_append]
  constructor
  · rintro ⟨middle, first, rfl, second⟩
    exact ⟨first, second⟩
  · rintro ⟨first, second⟩
    exact ⟨_, first, rfl, second⟩

theorem Path.congr (path : Path next head ps last) (same : ∀ p ∈ ps, next' p = next p) :
    Path next' head ps last := by
  induction ps generalizing head with
  | nil => exact path
  | cons p ps ih =>
      obtain ⟨start, rest⟩ := path
      obtain ⟨here, later⟩ := List.forall_mem_cons.mp same
      refine ⟨start, ih ?_ later⟩
      rw [here]
      exact rest

/-- The nodes of a list with a node put in. -/
theorem mem_middle : p ∈ ps ++ q :: qs ↔ p = q ∨ p ∈ ps ++ qs :=
  List.perm_middle.mem_iff.trans List.mem_cons

/-- The nodes of a list with a node put in after another. -/
theorem mem_after {r : P} : p ∈ ps ++ q :: r :: qs ↔ p = r ∨ p ∈ ps ++ q :: qs := by
  rw [mem_middle, mem_middle, mem_middle, or_left_comm]

/-- The links decide what a list passes. -/
theorem Path.unique (path : Path next head ps none) (path' : Path next head qs none) : ps = qs := by
  induction ps generalizing head qs with
  | nil =>
      cases path
      cases qs with
      | nil => rfl
      | cons q qs => cases path'.1
  | cons p ps ih =>
      obtain ⟨rfl, rest⟩ := path
      cases qs with
      | nil => cases path'
      | cons q qs =>
          obtain ⟨same, rest'⟩ := path'
          cases same
          rw [ih rest rest']

/-- A list passes no node twice. -/
theorem Path.nodup (path : Path next head ps none) : ps.Nodup := by
  induction ps generalizing head with
  | nil => exact List.nodup_nil
  | cons p ps ih =>
      obtain ⟨-, rest⟩ := path
      refine List.nodup_cons.mpr ⟨?_, ih rest⟩
      intro member
      obtain ⟨before, after, rfl⟩ := List.append_of_mem member
      have again := congrArg List.length ((path_split.mp rest).2.unique rest)
      simp at again
      omega

/-- A list is no longer than there are nodes for it. -/
theorem Path.length_le {next : Nat → Option Nat} {head : Option Nat} {ps : List Nat} {n : Nat}
    (path : Path next head ps none) (bound : ∀ p ∈ ps, p < n) : ps.length ≤ n := by
  have inside : ps ⊆ List.range n := fun p member => List.mem_range.mpr (bound p member)
  have shorter := (path.nodup.subperm inside).length_le
  rwa [List.length_range] at shorter

/-- What a list has passed on the way to a node stays on every list from its head. -/
theorem Path.mem_of_prefix (path : Path next head ps (some p)) (path' : Path next head qs none) :
    p ∈ qs := by
  induction ps generalizing head qs with
  | nil =>
      cases path
      cases qs with
      | nil => cases path'
      | cons q qs =>
          cases path'.1
          exact List.mem_cons_self
  | cons q ps ih =>
      obtain ⟨rfl, rest⟩ := path
      cases qs with
      | nil => cases path'
      | cons r qs =>
          obtain ⟨same, rest'⟩ := path'
          cases same
          exact List.mem_cons_of_mem _ (ih rest rest')

/-- A list does not lead to a node from which the links lead back to it. -/
theorem Path.not_of_cycle {before : List P} (path : Path next head ps none)
    (cycle : Path next (next p) qs (some p)) : ¬ Path next head before (some p) := by
  intro upto
  obtain ⟨first, after, rfl⟩ := List.append_of_mem (upto.mem_of_prefix path)
  have again := cycle.mem_of_prefix (path_split.mp path).2
  have once := path.nodup
  rw [List.nodup_middle, List.nodup_cons] at once
  exact once.1 (List.mem_append_right _ again)

/-- What a node of a list is linked to starts a list as well. -/
theorem Path.tail (path : Path next (some p) ps none) : ∃ qs, Path next (next p) qs none := by
  cases ps with
  | nil => cases path
  | cons q qs =>
      obtain ⟨start, rest⟩ := path
      cases start
      exact ⟨qs, rest⟩

/-- No list starts at a node linked to itself. -/
theorem not_path_of_loop (loop : next p = some p) : ¬ Path next (some p) ps none := by
  induction ps with
  | nil => simp
  | cons q ps ih =>
      rintro ⟨start, rest⟩
      cases start
      rw [loop] at rest
      exact ih rest

/-- The links of a shared node lead both lists to one end. -/
theorem Path.getLast?_eq {head' : Option P} (path : Path next head ps none)
    (path' : Path next head' qs none) (member : p ∈ ps) (member' : p ∈ qs) :
    ps.getLast? = qs.getLast? := by
  obtain ⟨before, after, rfl⟩ := List.append_of_mem member
  obtain ⟨before', after', rfl⟩ := List.append_of_mem member'
  obtain rfl := (path_split.mp path).2.unique (path_split.mp path').2
  rw [List.getLast?_append_cons, List.getLast?_append_cons]

theorem Path.head_eq (path : Path next head ps none) : ps.head? = head := by
  cases ps with
  | nil => exact path.symm
  | cons p ps => exact path.1.symm

/-- A list of nodes has a head. -/
theorem Path.head_or (path : Path next head (ps ++ [p]) last) (head' : Option P) :
    head.or head' = head := by
  cases head with
  | none => cases ps <;> cases path.1
  | some _ => rfl

section Update

variable [DecidableEq P]

theorem Path.update (path : Path next head ps last) (absent : p ∉ ps) (link : Option P) :
    Path (Function.update next p link) head ps last := by
  apply path.congr
  intro q member
  apply Function.update_of_ne
  rintro rfl
  exact absent member

/-- Redirecting the link of a node cuts off what was after it. -/
theorem Path.redirect {rest : List P} (path : Path next head ps (some p)) (absent : p ∉ ps)
    (absent' : p ∉ rest) {link : Option P} (path' : Path next link rest last) :
    Path (Function.update next p link) head (ps ++ p :: rest) last := by
  apply path_split.mpr
  constructor
  · exact path.update absent link
  · rw [Function.update_self]
    exact path'.update absent' link

/-- The links where the last of the nodes `ps`, if there is one, is linked on to `link`. -/
def continued (next : P → Option P) (ps : List P) (link : Option P) : P → Option P :=
  match ps.getLast? with
  | some p => Function.update next p link
  | none => next

section Continued

variable {head' link : Option P}

@[simp] theorem continued_concat :
    continued next (ps ++ [p]) link = Function.update next p link := by
  rw [continued, List.getLast?_concat]

/-- Nothing changes where the last node of a list gets no link. -/
theorem Path.continued_none (path : Path next head ps none) : continued next ps none = next := by
  obtain rfl | ⟨ps, p, rfl⟩ := List.eq_nil_or_concat' ps
  · rfl
  · have last : next p = none := (path_split.mp path).2
    rw [continued_concat, ← last, Function.update_eq_self]

/-- A list that shares no node with those stays as it is. -/
theorem Path.continued_of_disjoint (path : Path next head qs none) (apart : ps.Disjoint qs) :
    Path (continued next ps link) head qs none := by
  obtain rfl | ⟨ps, p, rfl⟩ := List.eq_nil_or_concat' ps
  · exact path
  · rw [continued_concat]
    exact path.update (apart (by simp)) link

/-- A list continued by another that shares no node with it. -/
theorem Path.append (path : Path next head ps none) (path' : Path next head' qs none)
    (apart : ps.Disjoint qs) :
    Path (continued next ps head') (head.or head') (ps ++ qs) none := by
  obtain rfl | ⟨ps, p, rfl⟩ := List.eq_nil_or_concat' ps
  · obtain rfl := path
    exact path'
  · have once := path.nodup
    rw [List.nodup_append_comm, List.singleton_append, List.nodup_cons] at once
    rw [continued_concat, path.head_or, List.append_assoc, List.singleton_append]
    exact (path_split.mp path).1.redirect once.1 (apart (by simp)) path'

/-- A list cut in front of one of its nodes. -/
theorem Path.cut (path : Path next head (ps ++ p :: qs) none) :
    Path (continued next ps none) ps.head? ps none ∧
      Path (continued next ps none) (some p) (p :: qs) none := by
  obtain ⟨upto, beyond⟩ := path_split.mp path
  have apart : ps.Disjoint (p :: qs) := List.disjoint_of_nodup_append path.nodup
  have rest : Path next (some p) (p :: qs) none := ⟨rfl, beyond⟩
  refine ⟨?_, rest.continued_of_disjoint apart⟩
  obtain rfl | ⟨ps, r, rfl⟩ := List.eq_nil_or_concat' ps
  · rfl
  · have once := path.nodup
    rw [List.append_assoc, List.singleton_append, List.nodup_middle, List.nodup_cons,
      List.mem_append, not_or] at once
    have front : Path (Function.update next r none) head (ps ++ [r]) none :=
      (path_split.mp upto).1.redirect once.1.1 List.not_mem_nil rfl
    rw [continued_concat, front.head_eq]
    exact front

/-- Where two lists share a node, the one goes on where the other is continued. -/
theorem Path.link_of_continued (path : Path next head ps none) (path' : Path next head' qs none)
    (member : p ∈ ps) (member' : p ∈ qs) (after : Path (continued next ps link) head' qs none) :
    link = none := by
  have last := path.getLast?_eq path' member member'
  obtain rfl | ⟨ps, r, rfl⟩ := List.eq_nil_or_concat' ps
  · cases member
  · rw [List.getLast?_concat] at last
    obtain ⟨first, rfl⟩ := List.getLast?_eq_some_iff.mp last.symm
    have here := (path_split.mp after).2
    rwa [continued_concat, path_nil, Function.update_self] at here

/-- Continued by a list that shares a node with it, a list never ends. -/
theorem Path.not_append_of_shared {rs : List P} (path : Path next head ps none)
    (path' : Path next head' qs none) (member : p ∈ ps) (member' : p ∈ qs) :
    ¬ Path (continued next ps head') (head.or head') rs none := by
  have last := path.getLast?_eq path' member member'
  obtain rfl | ⟨ps, r, rfl⟩ := List.eq_nil_or_concat' ps
  · cases member
  · -- the other list passes `r` as well, from which the link leads back to its head
    rw [List.getLast?_concat] at last
    obtain ⟨first, rfl⟩ := List.getLast?_eq_some_iff.mp last.symm
    have once := path.nodup
    have once' := path'.nodup
    rw [List.nodup_append_comm, List.singleton_append, List.nodup_cons] at once once'
    have upto := (path_split.mp path).1.update once.1 head'
    have back := (path_split.mp path').1.update once'.1 head'
    rw [continued_concat, path.head_or]
    intro ended
    have cycle : Path (Function.update next r head') (Function.update next r head' r) first
        (some r) := by
      rwa [Function.update_self]
    exact ended.not_of_cycle cycle upto

end Continued

/-- A new node linked in behind `p`. -/
theorem Path.insert {new : P} (path : Path next head (ps ++ p :: qs) last)
    (once : (ps ++ p :: qs).Nodup) (absent : new ∉ ps ++ p :: qs) :
    Path (Function.update (Function.update next new (next p)) p (some new)) head
      (ps ++ p :: new :: qs) last := by
  obtain ⟨upto, beyond⟩ := path_split.mp path
  obtain ⟨-, tail, distinct⟩ := List.nodup_append.mp once
  simp only [List.mem_append, List.mem_cons, not_or] at absent
  have before : p ∉ ps := fun member => distinct p member p List.mem_cons_self rfl
  have after : p ∉ new :: qs := by
    rw [List.mem_cons, not_or]
    exact ⟨Ne.symm absent.2.1, (List.nodup_cons.mp tail).1⟩
  refine (upto.update absent.1 _).redirect before after ⟨rfl, ?_⟩
  rw [Function.update_self]
  exact beyond.update absent.2.2 _

/-- The nodes behind `p` up to `q` linked out. -/
theorem Path.unlink {rest : List P} (path : Path next head (ps ++ p :: (qs ++ q :: rest)) last)
    (once : (ps ++ p :: (qs ++ q :: rest)).Nodup) :
    Path (Function.update next p (next q)) head (ps ++ p :: rest) last := by
  obtain ⟨upto, beyond⟩ := path_split.mp path
  obtain ⟨-, beyond⟩ := path_split.mp beyond
  obtain ⟨-, tail, distinct⟩ := List.nodup_append.mp once
  refine upto.redirect (fun member => distinct p member p List.mem_cons_self rfl) ?_ beyond
  intro member
  exact (List.nodup_cons.mp tail).1 (List.mem_append_right _ (List.mem_cons_of_mem _ member))

/-- Where a node gets the link of another and the list still ends with all the others on it,
the other node came next. It is off the list then. -/
theorem Path.next_of_relinked (path : Path next head ps none) (member : p ∈ ps) (member' : q ∈ ps)
    (other : p ≠ q) (path' : Path (Function.update next p (next q)) head qs none)
    (kept : ∀ r ∈ ps, r ≠ p → r ≠ q → r ∈ qs) : next p = some q ∧ q ∉ qs := by
  have once := path.nodup
  obtain ⟨before, rest, rfl⟩ := List.append_of_mem member
  obtain ⟨upto, beyond⟩ := path_split.mp path
  have early : p ∉ before := by
    rw [List.nodup_middle, List.nodup_cons, List.mem_append, not_or] at once
    exact once.1.1
  obtain front | rfl | back : q ∈ before ∨ q = p ∨ q ∈ rest := by simpa using member'
  · -- the link leads back in front of `p`
    obtain ⟨first, mid, rfl⟩ := List.append_of_mem front
    obtain ⟨-, between⟩ := path_split.mp upto
    have later : p ∉ mid := fun here =>
      early (List.mem_append_right _ (List.mem_cons_of_mem _ here))
    have cycle : Path (Function.update next p (next q)) (Function.update next p (next q) p) mid
        (some p) := by
      rw [Function.update_self]
      exact between.update later (next q)
    exact absurd (upto.update early (next q)) (path'.not_of_cycle cycle)
  · exact absurd rfl other
  · obtain ⟨mid, after, rfl⟩ := List.append_of_mem back
    have left : qs = before ++ p :: after := path'.unique (path.unlink once)
    have none : mid = [] := by
      apply List.eq_nil_iff_forall_not_mem.mpr
      intro r here
      have facts := once
      simp only [List.nodup_append, List.nodup_cons, List.mem_append, List.mem_cons] at facts
      have passed : r ∈ before ++ p :: after := by
        rw [← left]
        apply kept r
        · simp [here]
        · rintro rfl
          tauto
        · rintro rfl
          exact facts.2.1.2.2.2 r here r (.inl rfl) rfl
      simp only [List.mem_append, List.mem_cons] at passed
      obtain first | rfl | last := passed
      · exact facts.2.2 r first r (by simp [here]) rfl
      · tauto
      · exact facts.2.1.2.2.2 r here r (.inr last) rfl
    subst none
    refine ⟨beyond.1, ?_⟩
    rw [left]
    simp only [List.nodup_append, List.nodup_cons, List.mem_append, List.mem_cons,
      List.nil_append] at once ⊢
    rintro (first | rfl | last)
    · exact once.2.2 q first q (by simp) rfl
    · exact other rfl
    · exact once.2.1.2.1 last

end Update

/-- Walk the list from `cur` to the first node that meets `stop`, or to its end. The
result is the node before, or `prev` at the start, and the node found. -/
def search (next : P → Option P) (stop : P → Bool) :
    (fuel : Nat) → (prev cur : Option P) → Option (Option P × Option P)
  | 0, _, _ => none
  | _ + 1, prev, none => some (prev, none)
  | fuel + 1, prev, some p =>
      if stop p then some (prev, some p) else search next stop fuel (some p) (next p)

/-- A search ends at the first node that meets the condition, or at the end of the list
when none does. -/
theorem search_spec {stop : P → Bool} {fuel : Nat} {prev : Option P}
    (path : Path next head ps none) (enough : ps.length < fuel) :
    ∃ before found after, ps = before ++ after ∧ after.head? = found ∧
      (∀ q ∈ before, stop q = false) ∧ (∀ q, found = some q → stop q = true) ∧
        search next stop fuel prev head = some (before.getLast?.or prev, found) := by
  induction ps generalizing head prev fuel with
  | nil =>
      cases path
      obtain ⟨fuel, rfl⟩ := Nat.exists_eq_succ_of_ne_zero (Nat.ne_of_gt enough)
      exact ⟨[], none, [], rfl, rfl, by simp, by simp, rfl⟩
  | cons p ps ih =>
      obtain ⟨rfl, rest⟩ := path
      obtain ⟨fuel, rfl⟩ := Nat.exists_eq_succ_of_ne_zero (Nat.ne_of_gt (Nat.zero_lt_of_lt enough))
      rw [List.length_cons, Nat.succ_lt_succ_iff] at enough
      cases stops : stop p with
      | true =>
          refine ⟨[], some p, p :: ps, rfl, rfl, by simp, ?_, by simp [search, stops]⟩
          rintro q ⟨⟩
          exact stops
      | false =>
          obtain ⟨before, found, after, split, first, passed, met, result⟩ := ih rest enough
          refine ⟨p :: before, found, after, by rw [split]; rfl, first, ?_, met, ?_⟩
          · exact List.forall_mem_cons.mpr ⟨stops, passed⟩
          · rw [search, stops, if_neg (by simp), result, List.getLast?_cons]
            cases before.getLast? <;> rfl

/-- The loop to the last node of a list. -/
theorem search_last {fuel : Nat} {prev : Option P} (path : Path next head (ps ++ [p]) none)
    (enough : ps.length + 1 < fuel) :
    ∃ prev', search next (fun q => (next q).isNone) fuel prev head = some (prev', some p) := by
  obtain ⟨fuel, rfl⟩ := Nat.exists_eq_succ_of_ne_zero (Nat.ne_of_gt (Nat.zero_lt_of_lt enough))
  induction ps generalizing head prev fuel with
  | nil =>
      obtain ⟨rfl, last⟩ := path
      exact ⟨prev, by simp [search, path_nil.mp last]⟩
  | cons q ps ih =>
      obtain ⟨rfl, rest⟩ := path
      have more : (next q).isNone = false := by
        cases link : next q with
        | none => cases ps <;> simp [link] at rest
        | some _ => rfl
      rw [List.length_cons, Nat.succ_lt_succ_iff] at enough
      obtain ⟨fuel, rfl⟩ :=
        Nat.exists_eq_succ_of_ne_zero (Nat.ne_of_gt (Nat.zero_lt_of_lt enough))
      obtain ⟨prev', found⟩ : ∃ prev', search next (fun q => (next q).isNone) (fuel + 1)
          (some q) (next q) = some (prev', some p) := ih rest fuel enough
      exact ⟨prev', by rw [search, more, if_neg Bool.false_ne_true, found]⟩

end LinkedList
