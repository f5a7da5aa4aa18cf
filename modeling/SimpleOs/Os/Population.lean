import SimpleOs.Os.Ownership

/-!
# When a process is lost

`enqueue` on a full queue only prints, so both `add_mlq_proc` and `put_mlq_proc`
can drop a process that nobody else refers to. That is the only way to lose one:
as long as every insertion finds room in its level, each process that was loaded
and not freed waits in its ready queue or is the current process of a CPU.
-/

namespace SimpleOs

open Custody (occurrences)

namespace Dispatch

variable {cfg : Config}

/-- The process waits in the queue of its priority or is current on some CPU. -/
def Scheduled (s : Dispatch cfg) (p : cfg.Proc) : Prop :=
  p ∈ s.kernel.sched.levels (cfg.prio p) ∨ ∃ i, (s.cpu i).proc = some p

/-- Every process that was passed to `add_proc` and has not finished is scheduled. -/
def NoneLost (s : Dispatch cfg) : Prop :=
  ∀ p : cfg.Proc, p.val < s.kernel.loaded → s.kernel.freed p = false → s.Scheduled p

/-- If the step inserts a process into a ready queue, the queue has room. -/
def Room (s : Dispatch cfg) : Action cfg → Prop
  | .ld => ∀ more : s.kernel.loaded < cfg.numProcesses,
      (s.kernel.sched.levels (cfg.prio ⟨s.kernel.loaded, more⟩)).length < maxQueueSize
  | .cpu i => ∀ p, ¬ s.PutDropped i p

instance (s : Dispatch cfg) (i : Fin cfg.numCpus) (p : cfg.Proc) : Decidable (s.PutDropped i p) :=
  decidable_of_iff
    ((s.cpu i).pc = .check ∧ (s.cpu i).held = some p ∧ s.kernel.pcOf p ≠ cfg.size p ∧
      (s.cpu i).timeLeft = 0 ∧ maxQueueSize ≤ (s.kernel.sched.levels (cfg.prio p)).length)
    ⟨fun ⟨check, current, unfinished, expired, full⟩ =>
        ⟨check, current, unfinished, expired, full⟩,
      fun dropped => ⟨dropped.check, dropped.current, dropped.unfinished, dropped.expired,
        dropped.full⟩⟩

instance (s : Dispatch cfg) : (a : Action cfg) → Decidable (s.Room a)
  | .ld => inferInstanceAs (Decidable (∀ more : s.kernel.loaded < cfg.numProcesses,
      (s.kernel.sched.levels (cfg.prio ⟨s.kernel.loaded, more⟩)).length < maxQueueSize))
  | .cpu i => inferInstanceAs (Decidable (∀ p, ¬ s.PutDropped i p))

/-- A process in custody is scheduled. -/
theorem Owned.scheduled {s : Dispatch cfg} (owned : Owned s) {p : cfg.Proc}
    (kept : occurrences s.places p ≠ 0) : s.Scheduled p := by
  obtain ⟨x, member⟩ := Custody.exists_of_occurrences kept
  cases x with
  | inl l =>
      have own := owned.filed l p member
      subst own
      exact .inl member
  | inr i =>
      refine .inr ⟨i, ?_⟩
      have held : (s.cpu i).held = some p := by simpa [eq_comm] using member
      unfold Cpu.held at held
      split at held
      · cases held
      · exact held

/-- A step that finds room loses no process. -/
theorem kept_step {s t : Dispatch cfg} {a : Action cfg}
    (kept : ∀ p : cfg.Proc, p.val < s.kernel.loaded → s.kernel.freed p = false →
      occurrences s.places p ≠ 0)
    (room : s.Room a) (step : (system cfg).step s a = some t) (p : cfg.Proc)
    (added : p.val < t.kernel.loaded) (alive : t.kernel.freed p = false) :
    occurrences t.places p ≠ 0 := by
  cases a with
  | cpu i =>
      obtain ⟨k, c, ran, rfl⟩ := step_cpu.mp step
      have effect := cpuStep_effect ran
      obtain ⟨lost, total, reason, _⟩ := occurrences_cpu effect rfl p
      rw [setCpu_kernel] at alive
      have none : lost = 0 := by
        by_contra some
        obtain dead | dropped := reason some
        · rw [alive] at dead
          cases dead
        · exact room p dropped
      have before : s.kernel.freed p = false := by
        cases effect with
        | keep _ _ freed => rwa [← freed]
        | put _ _ _ _ _ _ _ freed => rwa [← freed]
        | dispatch _ _ _ _ _ _ _ freed => rwa [← freed]
        | free q _ _ _ _ _ freed =>
            rw [freed] at alive
            by_cases same : p = q
            · subst same
              rw [Function.update_self] at alive
              cases alive
            · rwa [Function.update_of_ne same] at alive
      have loaded : p.val < s.kernel.loaded := by rwa [setCpu_kernel, (cpuStep_loader ran).1] at added
      have present := kept p loaded before
      omega
  | ld =>
      obtain ⟨more, rfl⟩ | rfl := step_ld step
      · have account := occurrences_add s ⟨s.kernel.loaded, more⟩ p
        rw [if_pos (room more)] at account
        by_cases earlier : p.val < s.kernel.loaded
        · have present := kept p earlier alive
          omega
        · have below : p.val < s.kernel.loaded + 1 := added
          have same : p = ⟨s.kernel.loaded, more⟩ := 
            Fin.ext (Nat.le_antisymm (Nat.le_of_lt_succ below) (Nat.le_of_not_lt earlier))
          rw [← same, List.count_singleton_self] at account
          rw [same] at account ⊢
          omega
      · exact kept p added alive

/-- One CPU and 52 long programs at one level, with a long time slot. -/
def crowded : Config where
  timeSlot := 100
  numCpus := 1
  numProcesses := 52
  startTime := fun _ => 0
  prio := fun _ => 0
  size := fun _ => 100

/-- In every time slot the CPU takes its turn and then the loader adds a process:
first the CPU finds nothing, then it dispatches the first process, and it runs
that one from then on. -/
def crowdedRun : List (Action crowded) :=
  let cpu : Action crowded := .cpu ⟨0, by decide⟩
  List.replicate 6 cpu ++ .ld :: (List.replicate 9 cpu ++
    .ld :: (List.replicate 50 (List.replicate 8 cpu ++ [.ld])).flatten)

/-- The process that is added to a full level is neither queued nor running. -/
theorem full_level_loses : ¬ ∀ (cfg : Config) (as : List (Action cfg)) (s : Dispatch cfg),
    (system cfg).run (start cfg) as = some s → s.NoneLost := by
  intro kept
  let last : crowded.Proc := ⟨51, by decide⟩
  have lost : ((system crowded).run (start crowded) crowdedRun).any (fun s =>
      decide (51 < s.kernel.loaded) && !s.kernel.freed last &&
        !decide (last ∈ s.kernel.sched.levels (crowded.prio last)) &&
          decide (∀ i, (s.cpu i).proc ≠ some last)) = true := by
    decide +kernel
  obtain ⟨s, run, facts⟩ := (Option.any_eq_true _ _).mp lost
  simp only [Bool.and_eq_true, decide_eq_true_eq, Bool.not_eq_true', decide_eq_false_iff_not] at facts
  obtain ⟨⟨⟨added, alive⟩, absent⟩, idle⟩ := facts
  obtain queued | ⟨i, current⟩ := kept crowded crowdedRun s run last added alive
  · exact absent queued
  · exact idle i current

/-- As long as every insertion finds room, no process is lost. -/
theorem noneLost_of_room (cfg : Config) (as : List (Action cfg)) (s : Dispatch cfg)
    (room : (system cfg).StepsMeet Room (start cfg) as)
    (run : (system cfg).run (start cfg) as = some s) : s.NoneLost := by
  have kept := TransitionSystem.run_of_stepsMeet
    (P := fun s : Dispatch cfg => ∀ p : cfg.Proc, p.val < s.kernel.loaded →
      s.kernel.freed p = false → occurrences s.places p ≠ 0)
    (fun _ _ _ kept room step => kept_step kept room step)
    (fun p none => absurd none (Nat.not_lt_zero _)) room run
  intro p added alive
  exact (run_invariant run).1.scheduled (kept p added alive)

theorem noneLost_lone : ∃ s, (system loneProcess).run (start loneProcess) loneRun = some s ∧
    s.NoneLost := by
  have runs : ((system loneProcess).run (start loneProcess) loneRun).isSome = true := by
    decide +kernel
  obtain ⟨s, run⟩ := Option.isSome_iff_exists.mp runs
  exact ⟨s, run, noneLost_of_room loneProcess loneRun s (by decide +kernel) run⟩

end Dispatch
end SimpleOs
