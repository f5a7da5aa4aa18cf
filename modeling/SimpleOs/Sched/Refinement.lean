import SimpleOs.Lib.Transition
import SimpleOs.Sched.Mlq

/-!
# `get_mlq_proc` as a strict-priority FIFO scheduler

Whatever `curr_prio` and `curr_slot` have become, one call of `get_mlq_proc`
serves the head of the lowest-numbered non-empty level, with at most one nested
call. So the slot budget never decides who runs next, and every sequence of
scheduler calls gives the results of `StrictPriority.exec`.
-/

namespace SimpleOs

open StrictPriority (Levels IsLowest)

/-- The scheduler interface: `add_mlq_proc`, `put_mlq_proc`, `get_mlq_proc`. -/
inductive SchedOp (P : Type*) where
  | add (proc : P)
  | put (proc : P)
  | get

namespace Sched

variable {P : Type*}

/-- One call of `get_mlq_proc` serves the lowest level, from any hidden state and
within two critical sections, and leaves the slot table alone. -/
theorem getMlqProc_spec (s : Sched P) :
    ∃ t, s.getMlqProc 2 = some ((StrictPriority.serve s.levels).1, t) ∧
      t.levels = (StrictPriority.serve s.levels).2 ∧ t.slot = s.slot := by
  -- what a section that returns does, for the outer and for the nested call
  have returns : ∀ (u : Sched P) (fuel : Nat), u.currSlot = 0 ∨ (∃ r t, u.getMlqSection = .ret r t) →
      ∃ t, u.getMlqProc (fuel + 1) = some ((StrictPriority.serve u.levels).1, t) ∧
        t.levels = (StrictPriority.serve u.levels).2 ∧ t.slot = u.slot := by
    intro u fuel ready
    obtain ⟨t, ret, idle, after, _, slots⟩ |
      ⟨l, p, rest, t, ret, low, head, after, _, slots⟩ | ⟨t, again, unspent, _⟩ :=
        u.getMlqSection_cases
    · rw [StrictPriority.serve_of_empty idle]
      exact ⟨t, by rw [getMlqProc, ret], after, slots⟩
    · rw [StrictPriority.serve_of_isLowest low, head]
      exact ⟨t, by rw [getMlqProc, ret]; rfl, after, slots⟩
    · obtain spent | ⟨r, t', ret⟩ := ready
      · exact absurd spent unspent
      · rw [again] at ret
        cases ret
  obtain ⟨t, ret, _⟩ | ⟨_, _, _, t, ret, _⟩ | ⟨t, again, _, zero, same, _, slots⟩ :=
    s.getMlqSection_cases
  · exact returns s 1 (.inr ⟨_, _, ret⟩)
  · exact returns s 1 (.inr ⟨_, _, ret⟩)
  · obtain ⟨u, nested, after, slots'⟩ := returns t 0 (.inl zero)
    rw [same] at nested after
    exact ⟨u, by rw [getMlqProc, again]; exact nested, after, slots'.trans slots⟩

section Priorities

variable (prio : P → Prio)

theorem levels_enqueue (s : Sched P) (proc : P) :
    (fun k => (Function.update s.mlqReadyQueue (prio proc)
        ((s.mlqReadyQueue (prio proc)).enqueue (some proc)) k).toList) =
      StrictPriority.insert maxQueueSize (prio proc) proc s.levels := by
  rw [levels_update, Queue.toList_enqueue]
  by_cases room : (s.mlqReadyQueue (prio proc)).toList.length < maxQueueSize
  · rw [if_pos room, StrictPriority.insert_of_room room]
    rfl
  · rw [if_neg room, StrictPriority.insert_of_full room]
    exact Function.update_eq_self _ _

@[simp] theorem levels_addMlqProc (s : Sched P) (proc : P) :
    (s.addMlqProc prio proc).levels =
      StrictPriority.insert maxQueueSize (prio proc) proc s.levels :=
  s.levels_enqueue prio proc

variable [DecidableEq P]

@[simp] theorem levels_putMlqProc (s : Sched P) (proc : P) :
    (s.putMlqProc prio proc).levels =
      StrictPriority.insert maxQueueSize (prio proc) proc s.levels :=
  s.levels_enqueue prio proc

/-- The scheduler under arbitrary sequences of calls, from `init_scheduler`. A
`get_mlq_proc` gets two critical sections, the call and one nested call. -/
def system : TransitionSystem (Sched P) (SchedOp P) where
  init s := s = boot
  step s
    | .add proc => some (s.addMlqProc prio proc)
    | .put proc => some (s.putMlqProc prio proc)
    | .get => (s.getMlqProc 2).map Prod.snd

/-- What the caller sees: the result of a `get_mlq_proc`. -/
def result (s : Sched P) : SchedOp P → Option (Option P)
  | .get => (s.getMlqProc 2).map Prod.fst
  | _ => none

end Priorities

end Sched

/-- A scheduler call as a call of the reference scheduler. -/
def SchedOp.abstract {P : Type*} (prio : P → Prio) : SchedOp P → StrictPriority.Op maxPrio P
  | .add proc => .insert (prio proc) proc
  | .put proc => .insert (prio proc) proc
  | .get => .serve

namespace Sched

variable {P : Type*} [DecidableEq P] (prio : P → Prio)

/-- From any scheduler state a sequence of calls runs to its end, and answers
as the reference scheduler does on the same queues. -/
theorem run_refines (s : Sched P) (ops : List (SchedOp P)) :
    ∃ t, (system prio).run s ops = some t ∧
      ((system prio).trace result s ops, t.levels) =
        StrictPriority.exec maxQueueSize s.levels (ops.map (SchedOp.abstract prio)) := by
  induction ops generalizing s with
  | nil => exact ⟨s, rfl, rfl⟩
  | cons op ops ih =>
      cases op with
      | add proc =>
          obtain ⟨t, run, answers⟩ := ih (s.addMlqProc prio proc)
          rw [levels_addMlqProc] at answers
          exact ⟨t, run, answers⟩
      | put proc =>
          obtain ⟨t, run, answers⟩ := ih (s.putMlqProc prio proc)
          rw [levels_putMlqProc] at answers
          exact ⟨t, run, answers⟩
      | get =>
          obtain ⟨u, got, after, _⟩ := s.getMlqProc_spec
          have step : (system prio).step s .get = some u := by simp [system, got]
          obtain ⟨t, run, answers⟩ := ih u
          rw [after, Prod.ext_iff] at answers
          refine ⟨t, by rw [TransitionSystem.run_cons, step]; exact run, ?_⟩
          rw [TransitionSystem.trace_cons_of_step step, List.map_cons, SchedOp.abstract,
            StrictPriority.exec, ← answers.1, ← answers.2]
          simp [result, got]

/-- From `init_scheduler`, the results of `get_mlq_proc` over any sequence of
calls are those of the strict-priority FIFO reference, and no call nests more
than once. -/
theorem mlq_refines_strictPriority (ops : List (SchedOp P)) :
    (∃ t, (system prio).run boot ops = some t) ∧
      (system prio).trace result boot ops =
        (StrictPriority.exec maxQueueSize (fun _ => [])
          (ops.map (SchedOp.abstract prio))).1 := by
  obtain ⟨t, run, answers⟩ := run_refines prio boot ops
  rw [levels_boot] at answers
  exact ⟨⟨t, run⟩, congrArg Prod.fst answers⟩

end Sched
end SimpleOs
