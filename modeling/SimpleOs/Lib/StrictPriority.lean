import Mathlib.Data.Fintype.Pi
import Mathlib.Data.List.FinRange

/-!
# Strict-priority service of bounded FIFO levels

The reference scheduler: `n` FIFO levels of capacity `cap`, an insertion into a
full level is ignored, and service takes the head of the lowest-numbered
non-empty level. The state is the family of queues and nothing else, so what is
served next depends on the queue contents alone.
-/

namespace StrictPriority

variable {P : Type*} {n cap : Nat}

/-- The queues, one list for each level. -/
abbrev Levels (n : Nat) (P : Type*) := Fin n → List P

/-- `l` is the lowest-numbered non-empty level. -/
def IsLowest (q : Levels n P) (l : Fin n) : Prop :=
  q l ≠ [] ∧ ∀ k < l, q k = []

/-- The level to serve next, if there is one. -/
def lowest (q : Levels n P) : Option (Fin n) :=
  (List.finRange n).find? fun l => !(q l).isEmpty

/-- Insert at the tail of level `l`, unless the level is full. -/
def insert (cap : Nat) (l : Fin n) (p : P) (q : Levels n P) : Levels n P :=
  if (q l).length < cap then Function.update q l (q l ++ [p]) else q

/-- Serve the head of the lowest non-empty level; `none` when all are empty. -/
def serve (q : Levels n P) : Option P × Levels n P :=
  match lowest q with
  | none => (none, q)
  | some l => ((q l).head?, Function.update q l (q l).tail)

/-- Searching `0, 1, …, n - 1` for the first index with a property finds the
least one. -/
theorem find?_finRange_eq_some {f : Fin n → Bool} {l : Fin n} :
    (List.finRange n).find? f = some l ↔ f l = true ∧ ∀ k < l, f k = false := by
  rw [List.find?_eq_some_iff_getElem]
  constructor
  · rintro ⟨here, i, hi, same, earlier⟩
    refine ⟨here, ?_⟩
    intro k below
    rw [List.getElem_finRange] at same
    have position : (l : Nat) = i := by simp [← same]
    have := earlier k.val (by have : (k : Nat) < l := below; omega)
    simpa using this
  · rintro ⟨here, earlier⟩
    refine ⟨here, l.val, by simp, by simp, ?_⟩
    intro j below
    simpa using earlier ⟨j, by omega⟩ below

theorem find?_finRange_eq_none {f : Fin n → Bool} :
    (List.finRange n).find? f = none ↔ ∀ k, f k = false := by
  simp

theorem lowest_eq_some {q : Levels n P} {l : Fin n} : lowest q = some l ↔ IsLowest q l := by
  rw [lowest, find?_finRange_eq_some, IsLowest]
  simp

theorem lowest_eq_none {q : Levels n P} : lowest q = none ↔ ∀ l, q l = [] := by
  simp [lowest]

theorem IsLowest.unique {q : Levels n P} {l k : Fin n} (hl : IsLowest q l)
    (hk : IsLowest q k) : l = k :=
  Option.some.inj ((lowest_eq_some.mpr hl).symm.trans (lowest_eq_some.mpr hk))

/-- The lowest level is served whatever else is queued. -/
theorem serve_of_isLowest {q : Levels n P} {l : Fin n} (low : IsLowest q l) :
    serve q = ((q l).head?, Function.update q l (q l).tail) := by
  rw [serve, lowest_eq_some.mpr low]

theorem serve_of_empty {q : Levels n P} (idle : ∀ l, q l = []) : serve q = (none, q) := by
  rw [serve, lowest_eq_none.mpr idle]

/-- A served process is the head of the lowest non-empty level. -/
theorem serve_eq_some {q : Levels n P} {p : P} (served : (serve q).1 = some p) :
    ∃ l rest, IsLowest q l ∧ q l = p :: rest ∧ (serve q).2 = Function.update q l rest := by
  cases found : lowest q with
  | none =>
      rw [serve_of_empty (lowest_eq_none.mp found)] at served
      cases served
  | some l =>
      have low := lowest_eq_some.mp found
      rw [serve_of_isLowest low] at served ⊢
      obtain ⟨rest, split⟩ := List.head?_eq_some_iff.mp served
      exact ⟨l, rest, low, split, by rw [split, List.tail_cons]⟩

theorem insert_of_room {l : Fin n} {p : P} {q : Levels n P} (room : (q l).length < cap) :
    insert cap l p q = Function.update q l (q l ++ [p]) := if_pos room

theorem insert_of_full {l : Fin n} {p : P} {q : Levels n P} (full : ¬ (q l).length < cap) :
    insert cap l p q = q := if_neg full

theorem insert_ne_nil {l m : Fin n} {p : P} {q : Levels n P} (some : q m ≠ []) :
    insert cap l p q m ≠ [] := by
  by_cases room : (q l).length < cap
  · rw [insert_of_room room]
    by_cases same : m = l
    · subst same
      simp
    · rwa [Function.update_of_ne same]
  · rwa [insert_of_full room]

/-- Who is in a level after an insertion was there before, or was inserted. -/
theorem mem_of_mem_insert {l m : Fin n} {p r : P} {q : Levels n P}
    (member : r ∈ insert cap l p q m) : r ∈ q m ∨ r = p := by
  by_cases room : (q l).length < cap
  · rw [insert_of_room room] at member
    by_cases same : m = l
    · subst same
      rw [Function.update_self] at member
      simpa using member
    · rw [Function.update_of_ne same] at member
      exact .inl member
  · rw [insert_of_full room] at member
    exact .inl member

/-- Every queued process sits in its own level. -/
def Filed (level : P → Fin n) (q : Levels n P) : Prop :=
  ∀ l, ∀ p ∈ q l, level p = l

theorem Filed.update {level : P → Fin n} {q : Levels n P} (filed : Filed level q) {l : Fin n}
    {ps : List P} (own : ∀ p ∈ ps, level p = l) : Filed level (Function.update q l ps) := by
  intro k p member
  by_cases same : k = l
  · subst same
    rw [Function.update_self] at member
    exact own p member
  · rw [Function.update_of_ne same] at member
    exact filed k p member

theorem Filed.insert {level : P → Fin n} {q : Levels n P} (filed : Filed level q) (p : P) :
    Filed level (insert cap (level p) p q) := by
  by_cases room : (q (level p)).length < cap
  · rw [insert_of_room room]
    apply filed.update
    intro x member
    rcases List.mem_append.mp member with old | new
    · exact filed _ x old
    · rw [List.mem_singleton.mp new]
  · rw [insert_of_full room]
    exact filed

theorem Filed.serve {level : P → Fin n} {q : Levels n P} (filed : Filed level q) :
    Filed level (serve q).2 := by
  cases found : lowest q with
  | none =>
      rw [serve_of_empty (lowest_eq_none.mp found)]
      exact filed
  | some l =>
      rw [serve_of_isLowest (lowest_eq_some.mp found)]
      exact filed.update fun p member => filed l p (List.mem_of_mem_tail member)

/-- A dispatch comes from level `l` exactly when `l` is the lowest non-empty level. -/
theorem Filed.serve_level_iff {level : P → Fin n} {q : Levels n P} (filed : Filed level q)
    (l : Fin n) : (∃ p, (StrictPriority.serve q).1 = some p ∧ level p = l) ↔ IsLowest q l := by
  constructor
  · rintro ⟨p, served, own⟩
    obtain ⟨k, rest, low, head, _⟩ := serve_eq_some served
    have home : level p = k := filed k p (by simp [head])
    rwa [← own, home]
  · intro low
    obtain ⟨p, rest, head⟩ := List.exists_cons_of_ne_nil low.1
    refine ⟨p, ?_, filed l p (by simp [head])⟩
    rw [serve_of_isLowest low, head, List.head?_cons]

/-- The calls of a scheduler with `n` levels. -/
inductive Op (n : Nat) (P : Type*) where
  | insert (l : Fin n) (p : P)
  | serve

/-- The answers to the `serve` calls of a sequence, and the final queues. -/
def exec (cap : Nat) : Levels n P → List (Op n P) → List (Option P) × Levels n P
  | q, [] => ([], q)
  | q, .insert l p :: ops => exec cap (insert cap l p q) ops
  | q, .serve :: ops =>
    ((serve q).1 :: (exec cap (serve q).2 ops).1, (exec cap (serve q).2 ops).2)

/-! ## Waiting -/

/-- Since `x` was behind `ahead` in its level, the processes in `served` have been served. Those
of the level of `x` or a lower one are the first ones of `ahead`, and the rest of `ahead` is
still in front of `x`. -/
def Waited (level : P → Fin n) (x : P) (ahead served : List P) (q : Levels n P) : Prop :=
  ∃ left behind, q (level x) = left ++ x :: behind ∧
    (served.filter fun p => level x ≤ level p) ++ left = ahead

namespace Waited

variable {level : P → Fin n} {x p : P} {ahead behind served rest : List P} {q : Levels n P}
  {l : Fin n}

theorem start (waits : q (level x) = ahead ++ x :: behind) : Waited level x ahead [] q :=
  ⟨ahead, behind, waits, rfl⟩

/-- What is inserted goes behind `x`. -/
theorem insert (waited : Waited level x ahead served q) (cap : Nat) (l : Fin n) (p : P) :
    Waited level x ahead served (insert cap l p q) := by
  obtain ⟨left, behind, waits, passed⟩ := waited
  by_cases room : (q l).length < cap
  · rw [insert_of_room room]
    by_cases same : level x = l
    · refine ⟨left, behind ++ [p], ?_, passed⟩
      rw [← same, Function.update_self, waits, List.append_assoc, List.cons_append]
    · exact ⟨left, behind, by rw [Function.update_of_ne same, waits], passed⟩
  · rw [insert_of_full room]
    exact ⟨left, behind, waits, passed⟩

/-- Another one that is served comes from a higher level, or was the next one ahead. -/
theorem serve (waited : Waited level x ahead served q) (filed : Filed level q) (low : IsLowest q l)
    (head : q l = p :: rest) (other : p ≠ x) :
    Waited level x ahead (served ++ [p]) (Function.update q l rest) := by
  obtain ⟨left, behind, waits, passed⟩ := waited
  have own : level p = l := filed l p (by simp [head])
  have above : l ≤ level x := by
    by_contra below
    have empty := low.2 (level x) (not_le.mp below)
    simp [waits] at empty
  obtain higher | same := lt_or_eq_of_le above
  · refine ⟨left, behind, by rw [Function.update_of_ne higher.ne', waits], ?_⟩
    simpa [own, not_le.mpr higher] using passed
  · rw [same, waits] at head
    cases left with
    | nil =>
        obtain ⟨rfl, -⟩ := List.cons.inj head
        exact absurd rfl other
    | cons first left =>
        rw [List.cons_append] at head
        obtain ⟨rfl, rfl⟩ := List.cons.inj head
        refine ⟨left, behind, by rw [same, Function.update_self], ?_⟩
        simpa [own, same] using passed

/-- At most those that were ahead have been served, and others of higher levels. -/
theorem length_le (waited : Waited level x ahead served q) :
    served.length ≤ ahead.length + (served.filter fun p => level p < level x).length := by
  obtain ⟨left, behind, -, rfl⟩ := waited
  have both := served.length_eq_length_filter_add fun p => decide (level x ≤ level p)
  simp only [← decide_not, not_le] at both
  rw [List.length_append]
  omega

end Waited

end StrictPriority
