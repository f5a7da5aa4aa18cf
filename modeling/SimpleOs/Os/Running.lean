import SimpleOs.Os.Ownership

/-!
# What `running_list` tracks

`get_mlq_proc` enters the process it hands out in `running_list`, and
`put_mlq_proc` takes it out again. A process that finishes leaves its CPU without
a `put_proc`, so it stays on the list although its PCB is freed, and a list with
no room left tracks nothing more. In a run where neither happens the list is
exactly the processes on the CPUs.
-/

namespace SimpleOs

open Custody (occurrences)

variable {cfg : Config}

/-- What a CPU step does to `running_list` and to the process held. -/
inductive RunningEffect (k : Kernel cfg) (c : Cpu cfg.Proc) (k' : Kernel cfg) (c' : Cpu cfg.Proc) :
    Prop where
  | keep (running : k'.sched.runningList = k.sched.runningList) (held : c'.held = c.held)
  | free (p : cfg.Proc) (check : c.pc = .check) (held : c.held = some p)
      (finished : k.pcOf p = cfg.size p)
  | put (p : cfg.Proc) (held : c.held = some p)
      (running : k'.sched.runningList = (k.sched.runningList.purgequeue (some p)).2)
      (gone : c'.held = none)
  | dispatch (l : Prio) (p : cfg.Proc) (site : GetSite) (get : c.pc = .get site)
      (waiting : k.sched.levels l ≠ [])
      (running : k'.sched.runningList = k.sched.runningList.enqueue (some p))
      (taken : c'.held = some p)

theorem cpuStep_running {k k' : Kernel cfg} {c c' : Cpu cfg.Proc}
    (step : cpuStep k c = some (k', c')) : RunningEffect k c k' c' := by
  obtain ⟨pc, proc, timeLeft⟩ := c
  cases pc with
  | check =>
      cases proc with
      | none =>
          cases step
          exact .keep rfl rfl
      | some p =>
          simp only [cpuStep] at step
          split at step
          next finished =>
            cases step
            exact .free p rfl rfl finished
          next =>
            split at step
            next =>
              cases step
              exact .put p rfl rfl rfl
            next =>
              cases step
              exact .keep rfl rfl
  | get site =>
      obtain ⟨s, ret, _, _, same, _⟩ | ⟨l, p, rest, s, ret, _, head, _, enqueued, _⟩ |
        ⟨s, again, _, _, _, same, _⟩ := k.sched.getMlqSection_cases
      · simp only [cpuStep, ret, Option.some.injEq, Prod.mk.injEq] at step
        obtain ⟨rfl, rfl⟩ := step
        refine .keep same ?_
        cases site <;> rfl
      · simp only [cpuStep, ret, Option.some.injEq, Prod.mk.injEq] at step
        obtain ⟨rfl, rfl⟩ := step
        refine .dispatch l p site rfl ?_ enqueued ?_
        · simp [head]
        · simp [Cpu.held]
      · simp only [cpuStep, again, Option.some.injEq, Prod.mk.injEq] at step
        obtain ⟨rfl, rfl⟩ := step
        exact .keep same rfl
  | recheck =>
      cases proc with
      | none =>
          cases step
          refine .keep rfl ?_
          cases k.done <;> rfl
      | some p =>
          cases step
          exact .keep rfl rfl
  | run p =>
      cases step
      refine .keep rfl ?_
      by_cases fetched : k.pcOf p ≥ cfg.size p <;> simp [Cpu.held, fetched]
  | exited => cases step
  | _ =>
      cases step
      exact .keep rfl rfl

namespace Dispatch

/-- The processes that CPUs hold. -/
def holders (s : Dispatch cfg) (i : Fin cfg.numCpus) : List cfg.Proc := (s.cpu i).held.toList

theorem holders_setCpu (s : Dispatch cfg) (i : Fin cfg.numCpus) (k : Kernel cfg)
    (c : Cpu cfg.Proc) :
    (s.setCpu i k c).holders = Function.update s.holders i c.held.toList :=
  Function.comp_update (fun c : Cpu cfg.Proc => c.held.toList) s.cpu i c

/-- `running_list` has each process that a CPU holds, exactly once, and no other. -/
structure Tracks (s : Dispatch cfg) : Prop where
  held : ∀ i p, (s.cpu i).held = some p → s.kernel.sched.runningList.toList.count p = 1
  running : ∀ p ∈ s.kernel.sched.runningList.toList, ∃ i, (s.cpu i).held = some p

/-- The thread is inside `get_proc`. -/
def inGet (c : Cpu cfg.Proc) : Bool :=
  match c.pc with
  | .get _ => true
  | _ => false

/-- The CPU does not free a process that has finished, and while it is in `get_proc` with
a process waiting, `running_list` has room. -/
def Tracked (s : Dispatch cfg) : Action cfg → Prop
  | .ld => True
  | .cpu i =>
      (∀ p, (s.cpu i).pc = .check → (s.cpu i).held = some p → s.kernel.pcOf p ≠ cfg.size p) ∧
      (inGet (s.cpu i) = true → (∃ l, s.kernel.sched.levels l ≠ []) →
        s.kernel.sched.runningList.toList.length < maxQueueSize)

/-- `running_list` has as many entries of a process as CPUs hold it. -/
def Balanced (s : Dispatch cfg) : Prop :=
  ∀ p, s.kernel.sched.runningList.toList.count p = occurrences s.holders p

theorem balanced_start : Balanced (start cfg) := by
  intro p
  have none : occurrences (start cfg).holders p = 0 := by
    apply Custody.occurrences_eq_zero.mpr
    intro i
    simp [holders, start, Cpu.start, Cpu.held]
  rw [none]
  simp [start, Kernel.boot]

theorem balanced_cpu {s : Dispatch cfg} {i : Fin cfg.numCpus} {k : Kernel cfg} {c : Cpu cfg.Proc}
    (balanced : s.Balanced) (tracked : s.Tracked (.cpu i))
    (effect : RunningEffect s.kernel (s.cpu i) k c) : (s.setCpu i k c).Balanced := by
  intro p
  have account := Custody.occurrences_update s.holders i c.held.toList p
  have before := balanced p
  rw [holders_setCpu, setCpu_kernel]
  show k.sched.runningList.toList.count p = _
  simp only [holders] at account
  cases effect with
  | keep running held =>
      rw [held] at account ⊢
      rw [running]
      omega
  | free q check held finished => exact absurd finished (tracked.1 q check held)
  | put q held running gone =>
      rw [held, gone] at account
      rw [gone, running, (Queue.purgequeue_spec _ q).2, List.count_erase]
      simp only [Option.toList_some, Option.toList_none, List.count_nil, List.count_singleton]
        at account ⊢
      omega
  | dispatch l q site get waiting running taken =>
      have room := tracked.2 (by rw [inGet, get]) ⟨l, waiting⟩
      have held : (s.cpu i).held = none := by simp [Cpu.held, get]
      rw [held, taken] at account
      rw [taken, running, Queue.toList_enqueue, if_pos room, List.count_append]
      simp only [Option.toList_some, Option.toList_none, List.count_nil] at account ⊢
      omega

theorem balanced_step {s t : Dispatch cfg} {a : Action cfg} (balanced : s.Balanced)
    (tracked : s.Tracked a) (step : (system cfg).step s a = some t) : t.Balanced := by
  cases a with
  | cpu i =>
      obtain ⟨k, c, ran, rfl⟩ := step_cpu.mp step
      exact balanced_cpu balanced tracked (cpuStep_running ran)
  | ld =>
      obtain ⟨more, rfl⟩ | rfl := step_ld step
      · exact balanced
      · exact balanced

/-- Custody is exclusive, so a balanced list has each process held exactly once. -/
theorem Balanced.tracks {s : Dispatch cfg} (balanced : s.Balanced) (owned : Owned s) :
    s.Tracks := by
  constructor
  · intro i p held
    have here : p ∈ s.holders i := by simp [holders, held]
    have counted := Custody.occurrences_ne_zero here
    have once : occurrences s.holders p ≤ occurrences s.places p := by
      rw [occurrences, occurrences, Fintype.sum_sum_type]
      exact Nat.le_add_left _ _
    have bound := owned.exclusive p
    rw [balanced p]
    omega
  · intro p member
    have counted := List.count_pos_iff.mpr member
    rw [balanced p] at counted
    obtain ⟨i, here⟩ := Custody.exists_of_occurrences counted.ne'
    exact ⟨i, by simpa [holders, eq_comm] using here⟩

/-- In every run in which no CPU frees a finished process and every `get_proc` that finds
a process finds room in `running_list`, the list tracks the processes on the CPUs. -/
theorem running_list_tracks (cfg : Config) (as : List (Action cfg)) (s : Dispatch cfg)
    (tracked : (system cfg).StepsMeet Tracked (start cfg) as)
    (run : (system cfg).run (start cfg) as = some s) : s.Tracks :=
  (TransitionSystem.run_of_stepsMeet (fun _ _ _ => balanced_step) balanced_start tracked run).tracks
    (run_invariant run).1

instance (s : Dispatch cfg) : (a : Action cfg) → Decidable (s.Tracked a)
  | .ld => .isTrue trivial
  | .cpu i => inferInstanceAs (Decidable
      ((∀ p, (s.cpu i).pc = .check → (s.cpu i).held = some p → s.kernel.pcOf p ≠ cfg.size p) ∧
        (inGet (s.cpu i) = true → (∃ l, s.kernel.sched.levels l ≠ []) →
          s.kernel.sched.runningList.toList.length < maxQueueSize)))

theorem running_list_tracks_lone : ∃ s, (system loneProcess).run (start loneProcess) loneRun =
    some s ∧ s.Tracks := by
  have runs : ((system loneProcess).run (start loneProcess) loneRun).isSome = true := by
    decide +kernel
  obtain ⟨s, run⟩ := Option.isSome_iff_exists.mp runs
  exact ⟨s, run, running_list_tracks loneProcess loneRun s (by decide +kernel) run⟩

/-- The loader adds the process; the CPU executes both instructions, finds the process
finished and gets no other. -/
def finishedRun : List (Action loneProcess) :=
  loneRun ++ List.replicate 12 (.cpu loneCpu)

/-- A process that has finished and whose PCB is freed is still on `running_list`. -/
theorem finished_stays_listed : ¬ ∀ (cfg : Config) (as : List (Action cfg)) (s : Dispatch cfg),
    (system cfg).run (start cfg) as = some s → (∀ i, inGet (s.cpu i) = false) → s.Tracks := by
  intro tracks
  let proc : loneProcess.Proc := ⟨0, by decide⟩
  have stale : ((system loneProcess).run (start loneProcess) finishedRun).any
      (fun s => decide (∀ i, inGet (s.cpu i) = false) && s.kernel.freed proc &&
        decide (proc ∈ s.kernel.sched.runningList.toList) &&
          decide (∀ i, (s.cpu i).held ≠ some proc)) = true := by
    decide +kernel
  obtain ⟨s, run, facts⟩ := (Option.any_eq_true _ _).mp stale
  simp only [Bool.and_eq_true, decide_eq_true_eq] at facts
  obtain ⟨⟨⟨between, -⟩, listed⟩, idle⟩ := facts
  obtain ⟨i, held⟩ := (tracks _ _ s run between).running proc listed
  exact idle i held

end Dispatch
end SimpleOs
