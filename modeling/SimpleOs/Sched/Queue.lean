import Mathlib

/-!
# The array queue of `queue.c`

A `struct queue_t` is a fixed array of process pointers and a size. The three
operations shift entries in place; here they run on a vector of
`MAX_QUEUE_SIZE` cells, so every index they use is in bounds by construction.
`Queue.toList` is the list the array stands for, and one lemma for each
operation says what it does to that list. Later modules use only these lemmas.
-/

namespace SimpleOs

/-- `MAX_QUEUE_SIZE` of `queue.h`. -/
def maxQueueSize : Nat := 50

/-- `struct queue_t`. A cell is `none` for a NULL pointer and for a cell never
written. The fields say what every queue of the program keeps: the size is
within the array, and no NULL is stored below it. -/
structure Queue (P : Type*) where
  proc : Vector (Option P) maxQueueSize
  size : Nat
  size_le : size ≤ maxQueueSize
  stored : none ∉ proc.toList.take size

namespace Queue

variable {P : Type*}

/-- The processes in `proc[0..size-1]`, in order. -/
def toList (q : Queue P) : List P :=
  (q.proc.toList.take q.size).reduceOption

/-- A queue in static storage: all pointers NULL, size zero. -/
def init : Queue P where
  proc := Vector.replicate maxQueueSize none
  size := 0
  size_le := Nat.zero_le _
  stored := by simp

/-- `q.size = 0`, as `init_scheduler` resets a queue. -/
def clear (q : Queue P) : Queue P :=
  { q with size := 0, size_le := Nat.zero_le _, stored := by simp }

/-- `empty(q)`. -/
def empty (q : Queue P) : Bool := q.size == 0

/-- The loop `for (i = from; i < size - 1; i++) proc[i] = proc[i + 1]`, with
`n` iterations still to do. -/
def shiftDown (a : Vector (Option P) maxQueueSize) (i : Nat) :
    (n : Nat) → i + n < maxQueueSize → Vector (Option P) maxQueueSize
  | 0, _ => a
  | n + 1, h => shiftDown (a.set i a[i + 1]) (i + 1) n (by omega)

theorem getElem_shiftDown (a : Vector (Option P) maxQueueSize) (i n j : Nat)
    (h : i + n < maxQueueSize) (hj : j < maxQueueSize) :
    (shiftDown a i n h)[j] =
      if hij : i ≤ j ∧ j < i + n then a[j + 1] else a[j] := by
  induction n generalizing a i with
  | zero =>
      rw [dif_neg (by omega)]
      rfl
  | succ n ih =>
      rw [shiftDown, ih]
      by_cases inside : i + 1 ≤ j ∧ j < i + 1 + n
      · rw [dif_pos inside, dif_pos (by omega), Vector.getElem_set_ne _ _ (by omega)]
      · rw [dif_neg inside]
        by_cases here : j = i
        · subst here
          rw [dif_pos (by omega), Vector.getElem_set_self]
        · rw [dif_neg (by omega), Vector.getElem_set_ne _ _ (Ne.symm here)]

/-- Shifting the cells above `i` down removes cell `i` from an occupied prefix
of `size` cells. -/
theorem take_shiftDown (a : Vector (Option P) maxQueueSize) {i n size : Nat}
    (h : i + n < maxQueueSize) (extent : i + n + 1 = size) :
    (shiftDown a i n h).toList.take (size - 1) = (a.toList.take size).eraseIdx i := by
  subst extent
  apply List.ext_getElem
  · rw [List.length_eraseIdx_of_lt (by simp; omega)]
    simp
    omega
  · intro j hj _
    have bound : j < i + n := by simp at hj; omega
    simp only [List.getElem_take, Vector.getElem_toList, List.getElem_eraseIdx,
      getElem_shiftDown]
    split_ifs <;> first | rfl | omega

theorem take_set_succ (a : Vector (Option P) maxQueueSize) (i : Nat) (x : Option P)
    (h : i < maxQueueSize) :
    (a.set i x h).toList.take (i + 1) = a.toList.take i ++ [x] := by
  have inside : i < (a.set i x h).toList.length := by simpa using h
  rw [List.take_succ_eq_append_getElem inside, Vector.getElem_toList, Vector.getElem_set_self,
    Vector.toList_set, List.take_set_of_le (Nat.le_refl i)]

theorem reduceOption_map_some (l : List P) : (l.map some).reduceOption = l := by
  induction l with
  | nil => rfl
  | cons x l ih => rw [List.map_cons, List.reduceOption_cons_of_some, ih]

theorem eq_map_some_of_not_mem {l : List (Option P)} (stored : none ∉ l) :
    l = l.reduceOption.map some := by
  induction l with
  | nil => rfl
  | cons x l ih =>
      cases x with
      | none => simp at stored
      | some x =>
          rw [List.reduceOption_cons_of_some, List.map_cons, ← ih (by simpa using stored)]

/-- Below its size, the array holds exactly the list the queue stands for. -/
theorem take_eq_map_some (q : Queue P) : q.proc.toList.take q.size = q.toList.map some :=
  eq_map_some_of_not_mem q.stored

@[simp] theorem length_toList (q : Queue P) : q.toList.length = q.size := by
  have lengths := congrArg List.length q.take_eq_map_some
  have bound := q.size_le
  simp only [List.length_take, Vector.length_toList, List.length_map] at lengths
  omega

@[simp] theorem toList_clear (q : Queue P) : q.clear.toList = [] := by
  rw [← List.length_eq_zero_iff, length_toList]
  rfl

/-- `empty` is emptiness of the list. -/
@[simp] theorem empty_iff (q : Queue P) : q.empty = true ↔ q.toList = [] := by
  rw [← List.length_eq_zero_iff, length_toList, empty, beq_iff_eq]

@[simp] theorem empty_eq_false_iff (q : Queue P) : q.empty = false ↔ q.toList ≠ [] := by
  rw [← Bool.not_eq_true, empty_iff]

theorem lt_of_not_full {q : Queue P} (room : ¬ q.size ≥ maxQueueSize) : q.size < maxQueueSize :=
  Nat.lt_of_not_le room

theorem stored_set (q : Queue P) (p : P) (room : q.size < maxQueueSize) :
    none ∉ (q.proc.set q.size (some p) room).toList.take (q.size + 1) := by
  rw [take_set_succ]
  simpa using q.stored

/-- `enqueue(q, proc)`: NULL and a full queue are refused. -/
def enqueue (q : Queue P) (proc : Option P) : Queue P :=
  match proc with
  | none => q
  | some p =>
    if full : q.size ≥ maxQueueSize then q
    else
      { proc := q.proc.set q.size (some p) (lt_of_not_full full)
        size := q.size + 1
        size_le := lt_of_not_full full
        stored := stored_set q p (lt_of_not_full full) }

/-- `dequeue(q)`: the head, and the queue with the rest shifted forward. -/
def dequeue (q : Queue P) : Option P × Queue P :=
  if nonempty : q.size = 0 then (none, q)
  else
    have bound := q.size_le
    (q.proc[0],
      { proc := shiftDown q.proc 0 (q.size - 1) (by omega)
        size := q.size - 1
        size_le := by omega
        stored := by
          rw [take_shiftDown q.proc _ (by omega)]
          exact fun member => q.stored (List.mem_of_mem_eraseIdx member) })

/-- The search loop of `purgequeue`: the first of the `n` cells from `i` on that
holds `p`. -/
def findProc [DecidableEq P] (a : Vector (Option P) maxQueueSize) (p : P) (i : Nat) :
    (n : Nat) → i + n ≤ maxQueueSize → Option Nat
  | 0, _ => none
  | n + 1, h => if a[i] = some p then some i else findProc a p (i + 1) n (by omega)

theorem findProc_eq [DecidableEq P] (a : Vector (Option P) maxQueueSize) (p : P) (i n : Nat)
    (h : i + n ≤ maxQueueSize) :
    findProc a p i n h =
      (((a.toList.drop i).take n).findIdx? (· = some p)).map (i + ·) := by
  induction n generalizing i with
  | zero => simp [findProc]
  | succ n ih =>
      have inside : i < a.toList.length := by simp; omega
      rw [findProc, ih, List.drop_eq_getElem_cons inside, List.take_succ_cons,
        List.findIdx?_cons, Vector.getElem_toList]
      by_cases here : a[i] = some p
      · simp [here]
      · rw [if_neg here]
        simp only [decide_eq_true_eq, here, if_false, Option.map_map]
        congr 1
        funext j
        simp only [Function.comp_apply]
        omega

theorem findProc_lt [DecidableEq P] {a : Vector (Option P) maxQueueSize} {p : P} {i n j : Nat}
    {h : i + n ≤ maxQueueSize} (found : findProc a p i n h = some j) : j < i + n := by
  induction n generalizing i with
  | zero => simp [findProc] at found
  | succ n ih =>
      rw [findProc] at found
      split at found
      · cases found
        omega
      · have := ih found
        omega

/-- `purgequeue(q, proc)`: remove the first occurrence of a process. -/
def purgequeue [DecidableEq P] (q : Queue P) (proc : Option P) : Option P × Queue P :=
  match proc with
  | none => (none, q)
  | some p =>
    if q.size = 0 then (none, q)
    else
      match found : findProc q.proc p 0 q.size (by have := q.size_le; omega) with
      | none => (none, q)
      | some i =>
        have bound := q.size_le
        have below := findProc_lt found
        (some p,
          { proc := shiftDown q.proc i (q.size - 1 - i) (by omega)
            size := q.size - 1
            size_le := by omega
            stored := by
              rw [take_shiftDown q.proc _ (by omega)]
              exact fun member => q.stored (List.mem_of_mem_eraseIdx member) })

/-- `enqueue` appends when there is room, and is ignored on a full queue. -/
theorem toList_enqueue (q : Queue P) (p : P) :
    (q.enqueue (some p)).toList =
      if q.toList.length < maxQueueSize then q.toList ++ [p] else q.toList := by
  rw [length_toList, enqueue]
  by_cases full : q.size ≥ maxQueueSize
  · rw [dif_pos full, if_neg (by omega)]
  · rw [dif_neg full, if_pos (by omega)]
    simp only [toList, take_set_succ, List.reduceOption_append]
    rfl

/-- `dequeue` is head and tail of the list. -/
theorem dequeue_spec (q : Queue P) :
    q.dequeue.1 = q.toList.head? ∧ q.dequeue.2.toList = q.toList.tail := by
  have cells := q.take_eq_map_some
  rw [dequeue]
  by_cases nonempty : q.size = 0
  · have nil : q.toList = [] := by
      rw [← List.length_eq_zero_iff, length_toList, nonempty]
    rw [dif_pos nonempty]
    simp [nil]
  · have bound := q.size_le
    rw [dif_neg nonempty]
    constructor
    · have first : (q.proc.toList.take q.size)[0]? = some q.proc[0] := by
        rw [List.getElem?_take_of_lt (by omega), List.getElem?_eq_getElem (by simp; omega),
          Vector.getElem_toList]
      rw [cells, List.getElem?_map, ← List.head?_eq_getElem?] at first
      cases head : q.toList.head? with
      | none => simp [head] at first
      | some p => simpa [head] using first.symm
    · change ((shiftDown q.proc 0 (q.size - 1) _).toList.take (q.size - 1)).reduceOption = _
      rw [take_shiftDown q.proc _ (by omega), cells, List.eraseIdx_zero, ← List.map_tail, reduceOption_map_some]

theorem findIdx?_eq_idxOf [DecidableEq P] {l : List P} {p : P} {i : Nat}
    (found : l.findIdx? (· = p) = some i) : l.eraseIdx i = l.erase p := by
  induction l generalizing i with
  | nil => simp at found
  | cons x l ih =>
      rw [List.findIdx?_cons] at found
      by_cases here : x = p
      · subst here
        simp at found
        simp [← found]
      · simp only [here, decide_false] at found
        obtain ⟨j, rest, rfl⟩ := Option.map_eq_some_iff.mp found
        rw [List.eraseIdx_cons_succ, ih rest, List.erase_cons_tail (by simpa using here)]

/-- `purgequeue` deletes the first occurrence, and returns NULL when there is none. -/
theorem purgequeue_spec [DecidableEq P] (q : Queue P) (p : P) :
    (q.purgequeue (some p)).1 = (if p ∈ q.toList then some p else none) ∧
      (q.purgequeue (some p)).2.toList = q.toList.erase p := by
  have search := findProc_eq q.proc p 0 q.size (by have := q.size_le; omega)
  simp only [List.drop_zero, take_eq_map_some, Nat.zero_add, Option.map_id', List.findIdx?_map,
    Function.comp_def, Option.some.injEq] at search
  rw [purgequeue]
  by_cases nonempty : q.size = 0
  · have nil : q.toList = [] := by
      rw [← List.length_eq_zero_iff, length_toList, nonempty]
    simp [nonempty, nil]
  · rw [if_neg nonempty]
    split
    · rename_i missing
      have absent : p ∉ q.toList := by
        rw [search] at missing
        intro member
        have := List.findIdx?_eq_none_iff.mp missing p member
        simp at this
      simp [absent, List.erase_of_not_mem absent]
    · rename_i i found
      have bound := q.size_le
      have below := findProc_lt found
      rw [search] at found
      have member : p ∈ q.toList := by
        obtain ⟨h, here, _⟩ := List.findIdx?_eq_some_iff_getElem.mp found
        have same : q.toList[i] = p := by simpa using here
        exact same ▸ List.getElem_mem h
      refine ⟨by rw [if_pos member], ?_⟩
      change ((shiftDown q.proc i (q.size - 1 - i) _).toList.take (q.size - 1)).reduceOption = _
      rw [take_shiftDown q.proc _ (by omega), take_eq_map_some, List.eraseIdx_map, reduceOption_map_some, findIdx?_eq_idxOf found]

end Queue
end SimpleOs
