import Mathlib
import SimpleOs.Lib.Arrivals
import SimpleOs.Sched.Queue

/-!
# Every access of the array queue is in bounds

`Queue` keeps its size within the array by its type. Here `struct queue_t` is
what C declares, an array and an `int`, and every access is checked: an
operation that reads or writes outside `proc[0..MAX_QUEUE_SIZE-1]` has no
result. On every queue of size 0 to `MAX_QUEUE_SIZE`, whatever its cells hold,
the operations do have one, and it is the operation of a bounded list. A
`Queue` runs the same code.
-/

namespace SimpleOs

/-- `struct queue_t` as declared: nothing is known about `size`. A cell is
`none` for a NULL pointer. -/
structure QueueT (P : Type*) where
  proc : Vector (Option P) maxQueueSize
  size : Int

namespace QueueT

variable {P : Type*}

/-- The load `q->proc[i]`, without a value outside the array. -/
def read (q : QueueT P) (i : Int) : Option (Option P) :=
  if 0 ≤ i then q.proc[i.toNat]? else none

/-- The store `q->proc[i] = x`. -/
def write (q : QueueT P) (i : Int) (x : Option P) : Option (QueueT P) :=
  if inside : 0 ≤ i ∧ i < maxQueueSize then
    some { q with proc := q.proc.set i.toNat x (by omega) }
  else none

/-- `empty(q)`. -/
def empty (q : QueueT P) : Bool := q.size == 0

/-- `enqueue(q, proc)`. -/
def enqueue (q : QueueT P) (proc : Option P) : Option (QueueT P) :=
  match proc with
  | none => some q
  | some p =>
    if q.size ≥ maxQueueSize then some q
    else do
      let q ← q.write q.size (some p)
      some { q with size := q.size + 1 }

/-- `for (; i < size - 1; i++) proc[i] = proc[i + 1]`, which runs for
`size - 1 - i` rounds. -/
def shift (q : QueueT P) (i : Int) : (rounds : Nat) → Option (QueueT P)
  | 0 => some q
  | rounds + 1 => do
    let x ← q.read (i + 1)
    let q ← q.write i x
    q.shift (i + 1) rounds

/-- `dequeue(q)`: the result and the queue afterwards. -/
def dequeue (q : QueueT P) : Option (Option P × QueueT P) :=
  if q.size = 0 then some (none, q)
  else do
    let proc ← q.read 0
    let q ← q.shift 0 (q.size - 1).toNat
    some (proc, { q with size := q.size - 1 })

/-- The search loop of `purgequeue` for `i` up to `size - 1`: `found`, or -1. -/
def search [DecidableEq P] (q : QueueT P) (p : P) (i : Int) : (rounds : Nat) → Option Int
  | 0 => some (-1)
  | rounds + 1 =>
    (q.read i).bind fun x => if x = some p then some i else q.search p (i + 1) rounds

/-- `purgequeue(q, proc)`: the result and the queue afterwards. -/
def purgequeue [DecidableEq P] (q : QueueT P) (proc : Option P) :
    Option (Option P × QueueT P) :=
  match proc with
  | none => some (none, q)
  | some p =>
    if q.size = 0 then some (none, q)
    else
      (q.search p 0 q.size.toNat).bind fun found =>
        if found = -1 then some (none, q)
        else do
          let q ← q.shift found (q.size - 1 - found).toNat
          some (some p, { q with size := q.size - 1 })

/-- The list `proc[0..size-1]`. -/
def toList (q : QueueT P) : List (Option P) := q.proc.toList.take q.size.toNat

/-- The size is one that the array has room for. -/
structure Sized (q : QueueT P) : Prop where
  lower : 0 ≤ q.size
  upper : q.size ≤ maxQueueSize

theorem read_eq (q : QueueT P) {i : Nat} (inside : i < maxQueueSize) :
    q.read i = some q.proc[i] := by
  rw [read, if_pos (Int.natCast_nonneg i), Int.toNat_natCast]
  exact Vector.getElem?_eq_getElem inside

theorem write_eq (q : QueueT P) {i : Nat} (inside : i < maxQueueSize) (x : Option P) :
    q.write i x = some { q with proc := q.proc.set i x inside } := by
  rw [write, dif_pos ⟨Int.natCast_nonneg i, Int.ofNat_lt.mpr inside⟩]
  rfl

/-- The loop stays within the array as long as its last load does. -/
theorem shift_eq (q : QueueT P) (i : Nat) {rounds : Nat} (inside : i + rounds < maxQueueSize) :
    q.shift i rounds = some { q with proc := Queue.shiftDown q.proc i rounds inside } := by
  induction rounds generalizing q i with
  | zero => rfl
  | succ rounds ih =>
      have next : (i : Int) + 1 = (i + 1 : Nat) := rfl
      rw [shift, next, read_eq q (by omega)]
      simp only [Option.bind_eq_bind, Option.bind_some]
      rw [write_eq q (by omega), Option.bind_some, ih _ _ (by omega)]
      rfl

/-- The search loop returns the index `findProc` finds, and -1 for none. -/
theorem search_eq [DecidableEq P] (q : QueueT P) (p : P) (i : Nat) {rounds : Nat}
    (inside : i + rounds ≤ maxQueueSize) :
    q.search p i rounds = some (((Queue.findProc q.proc p i rounds inside).map Nat.cast).getD (-1)) := by
  induction rounds generalizing i with
  | zero => rfl
  | succ rounds ih =>
      have next : (i : Int) + 1 = (i + 1 : Nat) := rfl
      rw [search, next, read_eq q (by omega), Option.bind_some, ih _ (by omega), Queue.findProc]
      split <;> rfl

variable {q : QueueT P}

@[simp] theorem length_toList (sized : q.Sized) : q.toList.length = q.size.toNat := by
  have upper := sized.upper
  rw [toList, List.length_take, Vector.length_toList]
  omega

theorem toList_eq_nil (sized : q.Sized) : q.toList = [] ↔ q.size = 0 := by
  have lower := sized.lower
  rw [← List.length_eq_zero_iff, length_toList sized]
  omega

/-- `empty` is emptiness of the list. -/
theorem empty_iff (sized : q.Sized) : q.empty = true ↔ q.toList = [] := by
  rw [toList_eq_nil sized, empty, beq_iff_eq]

/-- The effect of the loop that closes the gap at cell `i`. -/
theorem toList_shiftDown {i : Nat} (inside : i < q.size.toNat)
    (h : i + (q.size - 1 - i).toNat < maxQueueSize) :
    toList { proc := Queue.shiftDown q.proc i (q.size - 1 - i).toNat h, size := q.size - 1 } =
      q.toList.eraseIdx i := by
  have extent : i + (q.size - 1 - i).toNat + 1 = q.size.toNat := by omega
  have closed := Queue.take_shiftDown q.proc h extent
  have fewer : (q.size - 1).toNat = q.size.toNat - 1 := by omega
  rw [toList, toList, ← closed, fewer]

theorem Sized.pred (sized : q.Sized) (occupied : q.size ≠ 0) (a : Vector (Option P) maxQueueSize) :
    Sized { proc := a, size := q.size - 1 } := by
  have lower := sized.lower
  have upper := sized.upper
  constructor
  · change 0 ≤ q.size - 1
    omega
  · change q.size - 1 ≤ maxQueueSize
    omega

/-- `enqueue` on a queue with room appends. -/
theorem enqueue_room (sized : q.Sized) (p : P) (room : q.toList.length < maxQueueSize) :
    ∃ q', q.enqueue (some p) = some q' ∧ q'.Sized ∧ q'.toList = q.toList ++ [some p] := by
  have lower := sized.lower
  rw [length_toList sized] at room
  have cast : q.size = (q.size.toNat : Int) := by omega
  refine ⟨{ proc := q.proc.set q.size.toNat (some p) room, size := q.size + 1 }, ?_, ?_, ?_⟩
  · have open_ : ¬ q.size ≥ maxQueueSize := by omega
    rw [enqueue, if_neg open_]
    conv_lhs => rw [cast]
    rw [write_eq q room]
    rfl
  · constructor
    · change 0 ≤ q.size + 1
      omega
    · change q.size + 1 ≤ maxQueueSize
      omega
  · have grown : (q.size + 1).toNat = q.size.toNat + 1 := by omega
    rw [toList, toList, grown]
    exact Queue.take_set_succ q.proc q.size.toNat (some p) room

/-- `enqueue` on a full queue changes nothing. -/
theorem enqueue_full (sized : q.Sized) (p : P) (full : ¬ q.toList.length < maxQueueSize) :
    q.enqueue (some p) = some q := by
  have lower := sized.lower
  rw [length_toList sized] at full
  have closed : q.size ≥ maxQueueSize := by omega
  rw [enqueue, if_pos closed]

theorem dequeue_nil (sized : q.Sized) (nil : q.toList = []) : q.dequeue = some (none, q) := by
  rw [dequeue, if_pos ((toList_eq_nil sized).mp nil)]

/-- `dequeue` on an occupied queue returns the head and leaves the tail. -/
theorem dequeue_cons (sized : q.Sized) {x : Option P} {rest : List (Option P)}
    (cells : q.toList = x :: rest) :
    ∃ q', q.dequeue = some (x, q') ∧ q'.Sized ∧ q'.toList = rest := by
  have upper := sized.upper
  have lower := sized.lower
  have occupied : q.size ≠ 0 := by
    rw [ne_eq, ← toList_eq_nil sized, cells]
    simp
  have inside : 0 < maxQueueSize := by decide
  have room : 0 + (q.size - 1).toNat < maxQueueSize := by omega
  have first : q.proc[0] = x := by
    have head : q.toList[0]? = some x := by rw [cells]; rfl
    rw [toList, List.getElem?_take_of_lt (by omega), List.getElem?_eq_getElem (by simpa using inside),
      Vector.getElem_toList] at head
    exact Option.some.inj head
  refine ⟨{ proc := Queue.shiftDown q.proc 0 (q.size - 1).toNat room, size := q.size - 1 },
    ?_, sized.pred occupied _, ?_⟩
  · have loaded := read_eq q inside
    have moved := shift_eq q 0 room
    rw [Nat.cast_zero] at loaded moved
    rw [dequeue, if_neg occupied, loaded, first, moved]
    rfl
  · have closed := toList_shiftDown (q := q) (i := 0) (by omega) (by simpa using room)
    simpa [cells] using closed

/-- `purgequeue` of an absent process changes nothing. -/
theorem purgequeue_absent [DecidableEq P] (sized : q.Sized) {p : P} (absent : some p ∉ q.toList) :
    q.purgequeue (some p) = some (none, q) := by
  have upper := sized.upper
  have inside : 0 + q.size.toNat ≤ maxQueueSize := by omega
  have missing : Queue.findProc q.proc p 0 q.size.toNat inside = none := by
    rw [Queue.findProc_eq, List.drop_zero, Option.map_eq_none_iff, List.findIdx?_eq_none_iff]
    intro x member
    exact decide_eq_false fun here => absent (here ▸ member)
  have searched := search_eq q p 0 inside
  rw [missing, Nat.cast_zero] at searched
  rw [purgequeue]
  by_cases occupied : q.size = 0
  · rw [if_pos occupied]
  · rw [if_neg occupied, searched]
    rfl

/-- `purgequeue` of a process in the queue deletes its first occurrence. -/
theorem purgequeue_present [DecidableEq P] (sized : q.Sized) {p : P}
    (present : some p ∈ q.toList) :
    ∃ q', q.purgequeue (some p) = some (some p, q') ∧ q'.Sized ∧
      q'.toList = q.toList.eraseIdx (q.toList.idxOf (some p)) := by
  have upper := sized.upper
  have lower := sized.lower
  have inside : 0 + q.size.toNat ≤ maxQueueSize := by omega
  have below := List.idxOf_lt_length_of_mem present
  rw [length_toList sized] at below
  have occupied : q.size ≠ 0 := by omega
  have found : Queue.findProc q.proc p 0 q.size.toNat inside =
      some (q.toList.idxOf (some p)) := by
    have first : q.toList.findIdx? (· = some p) = some (q.toList.idxOf (some p)) := by
      rw [List.findIdx?_eq_some_iff_getElem]
      refine ⟨List.idxOf_lt_length_of_mem present, by simp, ?_⟩
      intro j before
      simpa using List.not_of_lt_findIdx before
    rw [Queue.findProc_eq, List.drop_zero]
    simp only [Nat.zero_add, Option.map_id']
    exact first
  have searched := search_eq q p 0 inside
  rw [found, Nat.cast_zero] at searched
  have room : q.toList.idxOf (some p) + (q.size - 1 - q.toList.idxOf (some p)).toNat <
      maxQueueSize := by omega
  refine ⟨_, ?_, sized.pred occupied _, toList_shiftDown below room⟩
  have there : ¬ ((q.toList.idxOf (some p) : Nat) : Int) = -1 := by omega
  rw [purgequeue, if_neg occupied, searched]
  simp only [Option.map_some, Option.getD_some, Option.bind_some]
  rw [if_neg there, shift_eq q _ room]
  rfl

/-- A `Queue` is a queue of the program: its array and its size. -/
def ofQueue (q : Queue P) : QueueT P where
  proc := q.proc
  size := q.size

theorem sized_ofQueue (q : Queue P) : (ofQueue q).Sized :=
  ⟨Int.natCast_nonneg _, Int.ofNat_le.mpr q.size_le⟩

theorem toList_ofQueue (q : Queue P) : (ofQueue q).toList = q.toList.map some :=
  q.take_eq_map_some

theorem enqueue_ofQueue (q : Queue P) (proc : Option P) :
    (ofQueue q).enqueue proc = some (ofQueue (q.enqueue proc)) := by
  cases proc with
  | none => rfl
  | some p =>
      have size : (ofQueue q).size = (q.size : Int) := rfl
      rw [enqueue, Queue.enqueue, size]
      by_cases full : q.size ≥ maxQueueSize
      · rw [if_pos (Int.ofNat_le.mpr full), dif_pos full]
      · rw [if_neg (by omega), dif_neg full, write_eq _ (Nat.lt_of_not_le full)]
        rfl

theorem dequeue_ofQueue (q : Queue P) :
    (ofQueue q).dequeue = some (q.dequeue.1, ofQueue q.dequeue.2) := by
  have bound := q.size_le
  have size : (ofQueue q).size = (q.size : Int) := rfl
  rw [dequeue, Queue.dequeue, size]
  by_cases nil : q.size = 0
  · rw [if_pos (by omega), dif_pos nil]
  · have rounds : ((q.size : Int) - 1).toNat = q.size - 1 := by omega
    have inside : 0 + (q.size - 1) < maxQueueSize := by omega
    have loaded := read_eq (ofQueue q) (i := 0) (by decide)
    have moved := shift_eq (ofQueue q) 0 inside
    rw [Nat.cast_zero] at loaded moved
    rw [if_neg (by omega), dif_neg nil, rounds, loaded, moved]
    have last : (q.size : Int) - 1 = (q.size - 1 : Nat) := by omega
    simp [ofQueue, last]

theorem purgequeue_ofQueue [DecidableEq P] (q : Queue P) (proc : Option P) :
    (ofQueue q).purgequeue proc =
      some ((q.purgequeue proc).1, ofQueue (q.purgequeue proc).2) := by
  cases proc with
  | none => rfl
  | some p =>
      have bound := q.size_le
      have size : (ofQueue q).size = (q.size : Int) := rfl
      have inside : 0 + q.size ≤ maxQueueSize := by omega
      have searched := search_eq (ofQueue q) p 0 inside
      rw [Nat.cast_zero] at searched
      rw [purgequeue, Queue.purgequeue, size, Int.toNat_natCast, searched]
      by_cases nil : q.size = 0
      · rw [if_pos (by omega), if_pos nil]
      · rw [if_neg (by omega), if_neg nil]
        split
        · rename_i missing
          have missed : Queue.findProc (ofQueue q).proc p 0 q.size inside = none := missing
          rw [missed]
          rfl
        · rename_i i found
          have hit : Queue.findProc (ofQueue q).proc p 0 q.size inside = some i := found
          have below := Queue.findProc_lt found
          have rounds : ((q.size : Int) - 1 - i).toNat = q.size - 1 - i := by omega
          have room : i + (q.size - 1 - i) < maxQueueSize := by omega
          have moved := shift_eq (ofQueue q) i room
          have there : ¬ (i : Int) = -1 := by omega
          have last : (q.size : Int) - 1 = (q.size - 1 : Nat) := by omega
          rw [hit, Option.map_some, Option.getD_some, Option.bind_some, if_neg there, rounds, moved]
          simp [ofQueue, last]

/-- One call on a queue. -/
inductive Call (P : Type*) where
  | enqueue (proc : Option P)
  | dequeue
  | purgequeue (proc : Option P)

/-- A queue with what happened to it so far: the processes that came in, those
that `dequeue` handed out and those that `purgequeue` removed. -/
structure History (P : Type*) where
  queue : QueueT P
  arrived : List (Option P)
  dequeued : List (Option P)
  purged : List P

namespace History

/-- A queue as it is found: its contents have arrived. -/
def start (q : QueueT P) : History P := ⟨q, q.toList, [], []⟩

/-- The processes handed out and those still waiting are the arrivals that were
not purged, in their order of arrival. -/
structure Fifo (h : History P) : Prop where
  sized : h.queue.Sized
  order : Arrivals.InOrder h.arrived (h.dequeued ++ h.queue.toList) (h.purged.map some)

theorem fifo_start {q : QueueT P} (sized : q.Sized) : (start q).Fifo :=
  ⟨sized, Arrivals.InOrder.start q.toList⟩

variable [DecidableEq P]

/-- One call. A process came in when the size grew, and was handed out when
the queue was not empty. -/
def call (h : History P) : Call P → Option (History P)
  | .enqueue proc =>
    (h.queue.enqueue proc).map fun q =>
      { h with
        queue := q
        arrived := if h.queue.size < q.size then h.arrived ++ [proc] else h.arrived }
  | .dequeue =>
    h.queue.dequeue.map fun (proc, q) =>
      { h with
        queue := q
        dequeued := if h.queue.empty then h.dequeued else h.dequeued ++ [proc] }
  | .purgequeue proc =>
    (h.queue.purgequeue proc).map fun (found, q) =>
      { h with queue := q, purged := h.purged ++ found.toList }

/-- A sequence of calls, as long as none of them leaves the array. -/
def run (h : History P) : List (Call P) → Option (History P)
  | [] => some h
  | c :: calls => (h.call c).bind fun h' => h'.run calls

variable {h : History P}

theorem call_enqueue (fifo : h.Fifo) (proc : Option P) :
    ∃ h', h.call (.enqueue proc) = some h' ∧ h'.Fifo := by
  cases proc with
  | none => exact ⟨h, by simp [call, enqueue], fifo⟩
  | some p =>
      by_cases room : h.queue.toList.length < maxQueueSize
      · obtain ⟨q, ran, sized, cells⟩ := enqueue_room fifo.sized p room
        refine ⟨_, by rw [call, ran]; rfl, sized, ?_⟩
        have grown : h.queue.size < q.size := by
          have lengths := congrArg List.length cells
          rw [List.length_append, length_toList sized, length_toList fifo.sized] at lengths
          have := fifo.sized.lower
          have := sized.lower
          simp only [List.length_singleton] at lengths
          omega
        simp only [grown, if_true, cells, ← List.append_assoc]
        exact fifo.order.arrive (some p)
      · exact ⟨h, by simp [call, enqueue_full fifo.sized p room], fifo⟩

theorem call_dequeue (fifo : h.Fifo) : ∃ h', h.call .dequeue = some h' ∧ h'.Fifo := by
  cases cells : h.queue.toList with
  | nil =>
      have empty := (empty_iff fifo.sized).mpr cells
      exact ⟨h, by simp [call, dequeue_nil fifo.sized cells, empty], fifo⟩
  | cons x rest =>
      obtain ⟨q, ran, sized, left⟩ := dequeue_cons fifo.sized cells
      have occupied : h.queue.empty = false := by
        rw [← Bool.not_eq_true, empty_iff fifo.sized, cells]
        simp
      refine ⟨_, by rw [call, ran]; rfl, sized, ?_⟩
      have order := fifo.order
      rw [cells] at order
      simpa [occupied, left] using order

theorem call_purgequeue (fifo : h.Fifo) (proc : Option P) :
    ∃ h', h.call (.purgequeue proc) = some h' ∧ h'.Fifo := by
  cases proc with
  | none => exact ⟨h, by simp [call, purgequeue], fifo⟩
  | some p =>
      by_cases present : some p ∈ h.queue.toList
      · obtain ⟨q, ran, sized, left⟩ := purgequeue_present fifo.sized present
        refine ⟨_, by rw [call, ran]; rfl, sized, ?_⟩
        have below := List.idxOf_lt_length_of_mem present
        have inside : h.dequeued.length + h.queue.toList.idxOf (some p) <
            (h.dequeued ++ h.queue.toList).length := by
          rw [List.length_append]
          omega
        have order := fifo.order.remove inside
        rw [List.eraseIdx_append_of_length_le (by omega), Nat.add_sub_cancel_left, ← left] at order
        simpa using order
      · exact ⟨h, by simp [call, purgequeue_absent fifo.sized present], fifo⟩

theorem fifo_call (fifo : h.Fifo) (c : Call P) : ∃ h', h.call c = some h' ∧ h'.Fifo := by
  cases c with
  | enqueue proc => exact call_enqueue fifo proc
  | dequeue => exact call_dequeue fifo
  | purgequeue proc => exact call_purgequeue fifo proc

theorem fifo_run (fifo : h.Fifo) (calls : List (Call P)) :
    ∃ h', h.run calls = some h' ∧ h'.Fifo := by
  induction calls generalizing h with
  | nil => exact ⟨h, rfl, fifo⟩
  | cons c calls ih =>
      obtain ⟨next, ran, kept⟩ := fifo_call fifo c
      obtain ⟨last, rest, done⟩ := ih kept
      exact ⟨last, by rw [run, ran, Option.bind_some, rest], done⟩

end History

/-- A queue of the program is a bounded list. On every queue whose size is
within the array, whatever its cells hold, each operation stays within
`proc[0..MAX_QUEUE_SIZE-1]`: `enqueue` appends a process when there is room,
`dequeue` takes the head, `purgequeue` deletes the first occurrence, and what
none of them can do changes nothing. Over every sequence of calls, those handed
out and those waiting are the arrivals that were not purged, in order. -/
theorem queue_refines_boundedList [DecidableEq P] (q : QueueT P)
    (lower : 0 ≤ q.size) (upper : q.size ≤ maxQueueSize) :
    (∀ p : P, q.toList.length < maxQueueSize →
        ∃ q', q.enqueue (some p) = some q' ∧ q'.Sized ∧ q'.toList = q.toList ++ [some p]) ∧
      (∀ p : P, ¬ q.toList.length < maxQueueSize → q.enqueue (some p) = some q) ∧
      q.enqueue none = some q ∧
      (q.dequeue = some (none, q) ↔ q.toList = []) ∧
      (∀ x rest, q.toList = x :: rest →
        ∃ q', q.dequeue = some (x, q') ∧ q'.Sized ∧ q'.toList = rest) ∧
      (∀ p : P, q.purgequeue (some p) = some (none, q) ↔ some p ∉ q.toList) ∧
      (∀ p : P, some p ∈ q.toList →
        ∃ q', q.purgequeue (some p) = some (some p, q') ∧ q'.Sized ∧
          q'.toList = q.toList.erase (some p)) ∧
      q.purgequeue none = some (none, q) ∧
      (q.empty = true ↔ q.toList = []) ∧
      ∀ calls : List (Call P), ∃ h, (History.start q).run calls = some h ∧ h.queue.Sized ∧
        Arrivals.InOrder h.arrived (h.dequeued ++ h.queue.toList) (h.purged.map some) := by
  have sized : q.Sized := ⟨lower, upper⟩
  refine ⟨enqueue_room sized, enqueue_full sized, rfl, ?_, fun x rest => dequeue_cons sized, ?_,
    ?_, rfl, empty_iff sized, ?_⟩
  · constructor
    · intro unchanged
      cases cells : q.toList with
      | nil => rfl
      | cons x rest =>
          obtain ⟨q', ran, _, left⟩ := dequeue_cons sized cells
          rw [unchanged] at ran
          obtain ⟨-, rfl⟩ := Prod.mk.inj (Option.some.inj ran)
          simp [cells] at left
    · exact dequeue_nil sized
  · intro p
    constructor
    · intro refused present
      obtain ⟨q', ran, _⟩ := purgequeue_present sized present
      simp [refused] at ran
    · exact purgequeue_absent sized
  · intro p present
    obtain ⟨q', ran, kept, left⟩ := purgequeue_present sized present
    exact ⟨q', ran, kept, left.trans (List.erase_eq_eraseIdx_of_idxOf rfl).symm⟩
  · intro calls
    obtain ⟨h, ran, fifo⟩ := History.fifo_run (History.fifo_start sized) calls
    exact ⟨h, ran, fifo.sized, fifo.order⟩

/-- On a full queue that holds one process fifty times. -/
theorem queue_refines_boundedList_full :
    ∃ h, (History.start (⟨Vector.replicate maxQueueSize (some 3), 50⟩ : QueueT Nat)).run
        [.enqueue (some 4), .dequeue, .purgequeue (some 3), .enqueue (some 4)] = some h ∧
      Arrivals.InOrder h.arrived (h.dequeued ++ h.queue.toList) (h.purged.map some) := by
  obtain ⟨-, -, -, -, -, -, -, -, -, runs⟩ :=
    queue_refines_boundedList (⟨Vector.replicate maxQueueSize (some 3), 50⟩ : QueueT Nat)
      (by decide) (by decide)
  obtain ⟨h, ran, -, order⟩ :=
    runs [.enqueue (some 4), .dequeue, .purgequeue (some 3), .enqueue (some 4)]
  exact ⟨h, ran, order⟩

end QueueT
end SimpleOs
