import SimpleOs.Lib.StrictPriority
import SimpleOs.Sched.Queue

/-!
# The multi-level queue scheduler of `sched.c`

The static data of `sched.c` is one record: the 140 ready queues, the slot
table, the running list, and the two `static` variables that `get_mlq_proc`
carries from call to call. Every scheduler call runs under `queue_lock`.
`get_mlq_proc` unlocks before it calls itself, so its unit here is one critical
section, `getMlqSection`; `getMlqProc` iterates sections.

The lemmas at the end say what each operation does to the queue contents. The
contents after a call never depend on `currPrio` and `currSlot`.
-/

namespace SimpleOs

open StrictPriority (Levels IsLowest)

/-- `MAX_PRIO` of `os-cfg.h`. -/
def maxPrio : Nat := 140

/-- A priority level, an index of `mlq_ready_queue` and `slot`. -/
abbrev Prio := Fin maxPrio

instance : NeZero maxPrio := ⟨by decide⟩

/-- The static data of `sched.c`; `currPrio` and `currSlot` are the statics of
`get_mlq_proc`. -/
structure Sched (P : Type*) where
  mlqReadyQueue : Prio → Queue P
  slot : Prio → Int
  runningList : Queue P
  currPrio : Prio
  currSlot : Int

namespace Sched

variable {P : Type*}

/-- Static storage before `init_scheduler`. -/
def static : Sched P where
  mlqReadyQueue := fun _ => Queue.init
  slot := fun _ => 0
  runningList := Queue.init
  currPrio := 0
  currSlot := 0

/-- `init_scheduler()`. It leaves the statics of `get_mlq_proc` alone. -/
def initScheduler (s : Sched P) : Sched P :=
  { s with
    mlqReadyQueue := fun i => (s.mlqReadyQueue i).clear
    slot := fun i => (maxPrio : Int) - (i : Nat)
    runningList := s.runningList.clear }

/-- The scheduler as `main` leaves it. -/
def boot : Sched P := initScheduler static

/-- The first loop of `get_mlq_proc`: the first non-empty level below
`curr_prio` takes over, with its slots still to be filled. -/
def preempt (s : Sched P) : Sched P :=
  match (List.finRange maxPrio).find? fun i =>
      decide (i < s.currPrio) && !(s.mlqReadyQueue i).empty with
  | some i => { s with currPrio := i, currSlot := 0 }
  | none => s

/-- The scan taken when `curr_slot == 0`: from `curr_prio` on, modulo
`MAX_PRIO`, the first non-empty level; `none` when all queues are empty. -/
def refill (s : Sched P) : Option (Sched P) :=
  match (List.finRange maxPrio).find? fun i =>
      !(s.mlqReadyQueue (s.currPrio + i)).empty with
  | some i =>
    some { s with
      currPrio := s.currPrio + i
      currSlot := s.slot (s.currPrio + i) }
  | none => none

/-- How one critical section of `get_mlq_proc` ends: it returns, or it unlocks
and calls `get_mlq_proc` again. -/
inductive Section (P : Type*) where
  | ret (proc : Option P) (s : Sched P)
  | again (s : Sched P)

/-- The rest of `get_mlq_proc` once the scans are over: dequeue from the current
level, count the slot and move on when it was the last one. -/
def takeCurrent (s : Sched P) : Section P :=
  match (s.mlqReadyQueue s.currPrio).dequeue with
  | (some proc, q) =>
    let s := { s with
      mlqReadyQueue := Function.update s.mlqReadyQueue s.currPrio q
      currSlot := s.currSlot - 1
      runningList := s.runningList.enqueue (some proc) }
    .ret (some proc) (if s.currSlot = 0 then { s with currPrio := s.currPrio + 1 } else s)
  | (none, q) =>
    .again { s with
      mlqReadyQueue := Function.update s.mlqReadyQueue s.currPrio q
      currSlot := 0 }

/-- `get_mlq_proc()` from its lock to its unlock. -/
def getMlqSection (s : Sched P) : Section P :=
  let s := s.preempt
  if s.currSlot = 0 then
    match s.refill with
    | none => .ret none s
    | some s => s.takeCurrent
  else s.takeCurrent

/-- `get_mlq_proc()` with at most `fuel` nested critical sections; `none` when
they are used up. -/
def getMlqProc (s : Sched P) : (fuel : Nat) → Option (Option P × Sched P)
  | 0 => none
  | fuel + 1 =>
    match s.getMlqSection with
    | .ret proc s' => some (proc, s')
    | .again s' => s'.getMlqProc fuel

section Priorities

variable (prio : P → Prio)

/-- `add_mlq_proc(proc)`. -/
def addMlqProc (s : Sched P) (proc : P) : Sched P :=
  { s with
    mlqReadyQueue := Function.update s.mlqReadyQueue (prio proc)
      ((s.mlqReadyQueue (prio proc)).enqueue (some proc)) }

/-- `put_mlq_proc(proc)`. -/
def putMlqProc [DecidableEq P] (s : Sched P) (proc : P) : Sched P :=
  { s with
    runningList := (s.runningList.purgequeue (some proc)).2
    mlqReadyQueue := Function.update s.mlqReadyQueue (prio proc)
      ((s.mlqReadyQueue (prio proc)).enqueue (some proc)) }

end Priorities

/-- What the scheduler is about: the contents of the ready queues. -/
def levels (s : Sched P) : Levels maxPrio P := fun l => (s.mlqReadyQueue l).toList

@[simp] theorem levels_boot : (boot : Sched P).levels = fun _ => [] := by
  funext l
  exact Queue.toList_clear _

@[simp] theorem runningList_boot : (boot : Sched P).runningList.toList = [] :=
  Queue.toList_clear _

theorem levels_congr {s t : Sched P} (queues : t.mlqReadyQueue = s.mlqReadyQueue) :
    t.levels = s.levels := by
  unfold levels
  rw [queues]

theorem levels_update (s : Sched P) (l : Prio) (q : Queue P) :
    (fun k => (Function.update s.mlqReadyQueue l q k).toList) =
      Function.update s.levels l q.toList := by
  funext k
  by_cases same : k = l
  · subst same
    simp
  · simp [Function.update_of_ne same, levels]

/-- After the preemption scan no level below the current one holds a process,
and the queues are as before. -/
theorem preempt_spec (s : Sched P) :
    s.preempt.mlqReadyQueue = s.mlqReadyQueue ∧ s.preempt.slot = s.slot ∧
      s.preempt.runningList = s.runningList ∧
      (s.preempt.currSlot = s.currSlot ∨ s.preempt.currSlot = 0) ∧
      ∀ k < s.preempt.currPrio, s.levels k = [] := by
  rw [preempt]
  split
  · rename_i i found
    obtain ⟨here, earlier⟩ := StrictPriority.find?_finRange_eq_some.mp found
    refine ⟨rfl, rfl, rfl, .inr rfl, ?_⟩
    intro k below
    have above : i < s.currPrio := by simp at here; exact here.1
    have quiet := earlier k below
    have lower : k < s.currPrio := lt_trans below above
    simpa [lower, levels] using quiet
  · rename_i missing
    refine ⟨rfl, rfl, rfl, .inl rfl, ?_⟩
    intro k below
    have quiet := StrictPriority.find?_finRange_eq_none.mp missing k
    simpa [below, levels] using quiet

theorem add_sub_self (c k : Prio) : c + (k - c) = k := by
  apply Fin.ext
  rw [Fin.val_add, Fin.sub_def]
  have hk := k.isLt
  have hc := c.isLt
  simp only [maxPrio] at *
  omega

theorem offset_lt {c i k : Prio} (above : c ≤ k) (below : k < c + i) : k - c < i := by
  rw [Fin.lt_def, Fin.val_add] at below
  rw [Fin.lt_def, Fin.sub_val_of_le above]
  have hk := k.isLt
  have hc : c.val ≤ k.val := above
  simp only [maxPrio] at *
  omega

/-- The wrap-around scan gives up only when all queues are empty. -/
theorem refill_eq_none {s : Sched P} (idle : s.refill = none) : ∀ l, s.levels l = [] := by
  intro l
  cases scan : (List.finRange maxPrio).find? fun i =>
      !(s.mlqReadyQueue (s.currPrio + i)).empty with
  | some i => simp [refill, scan] at idle
  | none =>
      have quiet := StrictPriority.find?_finRange_eq_none.mp scan (l - s.currPrio)
      rw [add_sub_self] at quiet
      simpa [levels] using quiet

/-- When nothing waits below the current level, the level the wrap-around scan
settles on is the lowest non-empty one. -/
theorem refill_eq_some {s t : Sched P} (quiet : ∀ k < s.currPrio, s.levels k = [])
    (found : s.refill = some t) :
    t.mlqReadyQueue = s.mlqReadyQueue ∧ t.slot = s.slot ∧ t.runningList = s.runningList ∧
      IsLowest s.levels t.currPrio := by
  cases scan : (List.finRange maxPrio).find? fun i =>
      !(s.mlqReadyQueue (s.currPrio + i)).empty with
  | none => simp [refill, scan] at found
  | some i =>
      obtain ⟨here, earlier⟩ := StrictPriority.find?_finRange_eq_some.mp scan
      simp only [refill, scan, Option.some.injEq] at found
      subst found
      refine ⟨rfl, rfl, rfl, by simpa [levels] using here, ?_⟩
      intro k below
      rcases lt_or_ge k s.currPrio with low | high
      · exact quiet k low
      · -- the scan meets `k` at offset `k - currPrio`, before it meets `currPrio + i`
        have before := earlier (k - s.currPrio) (offset_lt high below)
        rw [add_sub_self] at before
        simpa [levels] using before

/-- On a non-empty current level the section returns its head. -/
theorem takeCurrent_of_cons {s : Sched P} {p : P} {rest : List P}
    (head : s.levels s.currPrio = p :: rest) :
    ∃ t, s.takeCurrent = .ret (some p) t ∧
      t.levels = Function.update s.levels s.currPrio rest ∧
      t.runningList = s.runningList.enqueue (some p) ∧ t.slot = s.slot := by
  obtain ⟨first, tail⟩ := (s.mlqReadyQueue s.currPrio).dequeue_spec
  change (s.mlqReadyQueue s.currPrio).toList = p :: rest at head
  rw [head] at first tail
  rw [takeCurrent]
  generalize (s.mlqReadyQueue s.currPrio).dequeue = out at first tail
  obtain ⟨proc, q⟩ := out
  simp only [List.head?_cons, List.tail_cons] at first tail
  subst first
  refine ⟨_, rfl, ?_, ?_, ?_⟩
  · rw [← tail, ← levels_update]
    split <;> rfl
  · split <;> rfl
  · split <;> rfl

/-- On an empty current level the section gives up its slots and starts over. -/
theorem takeCurrent_of_nil {s : Sched P} (idle : s.levels s.currPrio = []) :
    ∃ t, s.takeCurrent = .again t ∧ t.currSlot = 0 ∧ t.levels = s.levels ∧
      t.runningList = s.runningList ∧ t.slot = s.slot := by
  obtain ⟨first, tail⟩ := (s.mlqReadyQueue s.currPrio).dequeue_spec
  change (s.mlqReadyQueue s.currPrio).toList = [] at idle
  rw [idle] at first tail
  rw [takeCurrent]
  generalize (s.mlqReadyQueue s.currPrio).dequeue = out at first tail
  obtain ⟨proc, q⟩ := out
  simp only [List.head?_nil, List.tail_nil] at first tail
  subst first
  refine ⟨_, rfl, rfl, ?_, rfl, rfl⟩
  change (fun k => (Function.update s.mlqReadyQueue s.currPrio q k).toList) = _
  rw [levels_update, tail, ← idle]
  exact Function.update_eq_self _ _

/-- Everything one critical section of `get_mlq_proc` can do: report that all
queues are empty, hand out the head of the lowest non-empty level, or find the
level whose slots it was serving empty and start over with the slots spent. -/
theorem getMlqSection_cases (s : Sched P) :
    (∃ t, s.getMlqSection = .ret none t ∧ (∀ l, s.levels l = []) ∧ t.levels = s.levels ∧
        t.runningList = s.runningList ∧ t.slot = s.slot) ∨
      (∃ l p rest t, s.getMlqSection = .ret (some p) t ∧ IsLowest s.levels l ∧
        s.levels l = p :: rest ∧ t.levels = Function.update s.levels l rest ∧
        t.runningList = s.runningList.enqueue (some p) ∧ t.slot = s.slot) ∨
      (∃ t, s.getMlqSection = .again t ∧ s.currSlot ≠ 0 ∧ t.currSlot = 0 ∧
        t.levels = s.levels ∧ t.runningList = s.runningList ∧ t.slot = s.slot) := by
  obtain ⟨queues, slots, running, remaining, quiet⟩ := s.preempt_spec
  rw [getMlqSection]
  generalize s.preempt = u at *
  have contents : u.levels = s.levels := levels_congr queues
  rw [← contents] at quiet
  rw [← contents, ← slots, ← running]
  by_cases spent : u.currSlot = 0
  · simp only [spent, if_true]
    cases found : u.refill with
    | none => exact .inl ⟨u, rfl, refill_eq_none found, rfl, rfl, rfl⟩
    | some t =>
        obtain ⟨queues', slots', running', low⟩ := refill_eq_some quiet found
        have contents' : t.levels = u.levels := levels_congr queues'
        obtain ⟨p, rest, head⟩ := List.exists_cons_of_ne_nil low.1
        obtain ⟨v, ret, after, enqueued, kept⟩ :=
          takeCurrent_of_cons (s := t) (by rw [contents', head])
        refine .inr (.inl ⟨t.currPrio, p, rest, v, ret, low, head, ?_, ?_, ?_⟩)
        · rw [after, contents']
        · rw [enqueued, running']
        · rw [kept, slots']
  · simp only [spent, if_false]
    have unspent : s.currSlot ≠ 0 := by
      rcases remaining with same | zero
      · rwa [← same]
      · exact absurd zero spent
    cases head : u.levels u.currPrio with
    | nil =>
        obtain ⟨v, again, zero, after, kept⟩ := takeCurrent_of_nil head
        exact .inr (.inr ⟨v, again, unspent, zero, after, kept⟩)
    | cons p rest =>
        obtain ⟨v, ret, after, kept⟩ := takeCurrent_of_cons head
        exact .inr (.inl ⟨u.currPrio, p, rest, v, ret, ⟨by simp [head], quiet⟩, head, after, kept⟩)

end Sched
end SimpleOs
