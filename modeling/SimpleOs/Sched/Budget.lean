import SimpleOs.Sched.Refinement

/-!
# The slot budget of a level

`init_scheduler` gives level `p` a budget of `MAX_PRIO - p` consecutive
dispatches, after which the next level is to be served. `get_mlq_proc` does
move `curr_prio` on when the budget is spent, but its preemption scan moves it
back whenever the level it left is non-empty, and refills the budget. The
budget is therefore only kept where strict priority alone would keep it.
-/

namespace SimpleOs

open StrictPriority (Levels IsLowest Filed)

namespace Sched

variable {P : Type*} [DecidableEq P] (prio : P → Prio)

/-- `slot[p] = MAX_PRIO - p`, the dispatches a level may have in a row. -/
def budget (p : Prio) : Nat := maxPrio - p

/-- The `get_mlq_proc` calls of a sequence. -/
def gets : List (SchedOp P) → Nat
  | [] => 0
  | .get :: ops => gets ops + 1
  | _ :: ops => gets ops

/-- From `s`, the calls of `window` contain more `get_mlq_proc` calls than the
budget of `p`, every one returns a process of level `p`, and level `q` is
non-empty before every call. -/
structure Overrun (s : Sched P) (window : List (SchedOp P)) (p q : Prio) : Prop where
  other : q ≠ p
  spent : gets window = budget p + 1
  same : ∀ r ∈ (system prio).trace result s window, ∃ proc, r = some proc ∧ prio proc = p
  waiting : (system prio).StepsMeet (fun s _ => s.levels q ≠ []) s window

/-- The same, told by the queue contents alone: level `p` is the lowest
non-empty one before every `get_mlq_proc`. -/
structure Starving (s : Sched P) (window : List (SchedOp P)) (p q : Prio) : Prop where
  other : q ≠ p
  spent : gets window = budget p + 1
  lowest : (system prio).StepsMeet (fun s op => op = .get → IsLowest s.levels p) s window
  waiting : (system prio).StepsMeet (fun s _ => s.levels q ≠ []) s window

/-- No window of the run overruns the budget of a level. -/
def BudgetKept (ops : List (SchedOp P)) : Prop :=
  ∀ before window after, ops = before ++ window ++ after →
    ∀ s, (system prio).run boot before = some s → ∀ p q, ¬ Overrun prio s window p q

/-- No window of the run starves every level but `p` past the budget of `p`. -/
def NeverStarving (ops : List (SchedOp P)) : Prop :=
  ∀ before window after, ops = before ++ window ++ after →
    ∀ s, (system prio).run boot before = some s → ∀ p q, ¬ Starving prio s window p q

theorem filed_step {s t : Sched P} {op : SchedOp P} (filed : Filed prio s.levels)
    (step : (system prio).step s op = some t) : Filed prio t.levels := by
  cases op with
  | add proc =>
      cases step
      rw [levels_addMlqProc]
      exact filed.insert proc
  | put proc =>
      cases step
      rw [levels_putMlqProc]
      exact filed.insert proc
  | get =>
      obtain ⟨u, got, after, _⟩ := s.getMlqProc_spec
      have same : u = t := by simpa [system, got] using step
      rw [← same, after]
      exact filed.serve

/-- Every state the scheduler reaches keeps each process in its own level. -/
theorem filed_of_run {s : Sched P} {ops : List (SchedOp P)}
    (run : (system prio).run boot ops = some s) : Filed prio s.levels := by
  refine TransitionSystem.run_preserves (P := fun s => Filed prio s.levels)
    (fun _ _ _ filed step => filed_step prio filed step) run ?_
  intro l p member
  simp at member

/-- The slot table never changes, so a refill always gives a level its budget. -/
theorem slot_of_run {s : Sched P} {ops : List (SchedOp P)}
    (run : (system prio).run boot ops = some s) (p : Prio) : s.slot p = budget p := by
  refine TransitionSystem.run_preserves (P := fun s => s.slot p = (budget p : Int)) ?_ run ?_
  · intro s op t kept step
    cases op with
    | add proc =>
        cases step
        exact kept
    | put proc =>
        cases step
        exact kept
    | get =>
        obtain ⟨u, got, _, slots⟩ := s.getMlqProc_spec
        have same : u = t := by simpa [system, got] using step
        rw [← same, slots]
        exact kept
  · have below := p.isLt
    change (maxPrio : Int) - (p : Nat) = ((maxPrio - p : Nat) : Int)
    omega

/-- All dispatches of a window come from level `p` exactly when `p` is the
lowest non-empty level before each of them. -/
theorem same_level_iff {s : Sched P} (filed : Filed prio s.levels) (window : List (SchedOp P))
    (p : Prio) :
    (∀ r ∈ (system prio).trace result s window, ∃ proc, r = some proc ∧ prio proc = p) ↔
      (system prio).StepsMeet (fun s op => op = .get → IsLowest s.levels p) s window := by
  induction window generalizing s with
  | nil => simp [TransitionSystem.StepsMeet]
  | cons op window ih =>
      obtain ⟨t, step⟩ : ∃ t, (system prio).step s op = some t := by
        obtain ⟨t, run, _⟩ := run_refines prio s [op]
        obtain ⟨u, step, _⟩ := TransitionSystem.run_cons_eq_some.mp run
        exact ⟨u, step⟩
      have rest := ih (filed_step prio filed step)
      rw [TransitionSystem.trace_cons_of_step step, TransitionSystem.StepsMeet]
      simp only [step, Option.some.injEq, forall_eq', List.forall_mem_append, rest]
      refine and_congr_left fun _ => ?_
      cases op with
      | add proc => simp [result]
      | put proc => simp [result]
      | get =>
          obtain ⟨u, got, _⟩ := s.getMlqProc_spec
          rw [← filed.serve_level_iff p]
          simp [result, got]

theorem overrun_iff_starving {s : Sched P} (filed : Filed prio s.levels)
    (window : List (SchedOp P)) (p q : Prio) :
    Overrun prio s window p q ↔ Starving prio s window p q := by
  constructor
  · intro overrun
    exact ⟨overrun.other, overrun.spent, (same_level_iff prio filed window p).mp overrun.same,
      overrun.waiting⟩
  · intro starving
    exact ⟨starving.other, starving.spent,
      (same_level_iff prio filed window p).mpr starving.lowest, starving.waiting⟩

/-- A process of level 138, which has two slots, and one of level 139. -/
def twoLevels : Bool → Prio
  | false => 138
  | true => 139

/-- Level 138 is dispatched three times in a row while level 139 waits. -/
theorem budget_overrun : ¬ ∀ ops : List (SchedOp Bool), BudgetKept twoLevels ops := by
  intro kept
  let before : List (SchedOp Bool) := [.add false, .add true]
  let window : List (SchedOp Bool) := [.get, .put false, .get, .put false, .get]
  obtain ⟨s, run, _⟩ := run_refines twoLevels boot before
  have reached : s = (boot.addMlqProc twoLevels false).addMlqProc twoLevels true :=
    (Option.some.inj run).symm
  apply kept (before ++ window) before window [] (List.append_nil _).symm s run 138 139
  subst reached
  exact ⟨by decide, rfl, by decide +kernel, by decide +kernel⟩

/-- The budget is kept along a run exactly when strict priority keeps it: no
level stays the lowest non-empty one for more dispatches than its budget while
another level waits. -/
theorem budgetKept_iff (ops : List (SchedOp P)) :
    BudgetKept prio ops ↔ NeverStarving prio ops := by
  refine forall_congr' fun before => forall_congr' fun window => forall_congr' fun after =>
    forall_congr' fun _ => forall_congr' fun s => forall_congr' fun run =>
    forall_congr' fun p => forall_congr' fun q => not_congr ?_
  exact overrun_iff_starving prio (filed_of_run prio run) window p q

end Sched
end SimpleOs
