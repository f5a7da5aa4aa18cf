import SimpleOs.Lib.Replay
import SimpleOs.Os.Determinism
import SimpleOs.Os.Progress
import SimpleOs.Os.Reclaim

/-!
# The schedule leaves no trace in memory

At most one CPU stands at an instruction, since the bodies exclude one another. So the
instructions are executed in one order, whatever the schedule, and each of them brings
the memory from one state to the next. What is in memory after so many instructions is
the same in every run, and since all processes finish so is what is in memory at the end.

This takes the values that the code reads from variables it has not set to be the same
for the same instruction.
-/

namespace SimpleOs

open Mem (Build Byte Machine MemCall)

namespace Os

variable {cfg : Config} {s t : Os cfg} {a b : Action cfg}

/-! ## The order of the instructions -/

/-- The process and the index of the instruction that a step executes. -/
def executed (s : Os cfg) : Action cfg → Option (cfg.Proc × Nat)
  | .cpu i =>
    match (s.dispatch.cpu i).pc with
    | .execute p n => some (p, n)
    | _ => none
  | .ld | .timer | .main => none

theorem executed_eq_some {p : cfg.Proc} {n : Nat} : s.executed a = some (p, n) ↔
    ∃ i, a = .cpu i ∧ (s.dispatch.cpu i).pc = .execute p n := by
  cases a with
  | cpu i => cases pc : (s.dispatch.cpu i).pc <;> simp [executed, pc]
  | ld => simp [executed]
  | timer => simp [executed]
  | main => simp [executed]

/-- What a step executes advances the `pc` of its process, and nothing else does. -/
theorem pcOf_of_step (step : (system cfg).step s a = some t) : t.dispatch.kernel.pcOf =
    (s.executed a).elim s.dispatch.kernel.pcOf fun e =>
      Function.update s.dispatch.kernel.pcOf e.1 (s.dispatch.kernel.pcOf e.1 + 1) := by
  cases a with
  | cpu i =>
      obtain ⟨_, k, c, ran, rfl⟩ := stepCpu_eq_some.mp step
      cases event : s.executed (.cpu i) with
      | none =>
          obtain same | ⟨q, n, executes, -⟩ := cpuStep_pcOf ran
          · exact same
          · rw [executed_eq_some.mpr ⟨i, rfl, executes⟩] at event
            cases event
      | some e =>
          obtain ⟨q, n⟩ := e
          obtain ⟨j, here, executes⟩ := executed_eq_some.mp event
          cases here
          simp only [cpuStep, executes, Option.some.injEq, Prod.mk.injEq] at ran
          rw [← ran.1]
          rfl
  | ld =>
      obtain ⟨-, same | ⟨-, ⟨q, -, same⟩ | same⟩⟩ := stepLd_kernel step <;> rw [same] <;> rfl
  | timer =>
      rw [(stepTimer_frame step).1]
      rfl
  | main =>
      obtain ⟨pc, stop, rfl⟩ := stepMain_frame step
      rfl

end Os

namespace OsMem

variable {cfg : Config} {b : Build} {text : cfg.Proc → Nat → Inst b} {s t : OsMem cfg b}

/-! ## What the instructions do to memory -/

/-- The instruction that a step executes. -/
def executed (s : OsMem cfg b) (a : Action cfg b) : Option (cfg.Proc × Nat) :=
  s.os.executed a.thread

/-- The memory after an instruction. -/
def perform (text : cfg.Proc → Nat → Inst b) (unset : cfg.Proc → Nat → b.Word × (Nat → Byte))
    (m : Machine b cfg.Proc) : cfg.Proc × Nat → Option (Machine b cfg.Proc)
  | (p, n) => serve m ((text p n).call p (unset p n).1 (unset p n).2)

/-- The threads run as they do without memory. -/
theorem run_os {as : List (Action cfg b)} (run : (system text).run s as = some t) :
    (Os.system cfg).run s.os (as.map Action.thread) = some t.os ∧
      (Os.system cfg).trace Os.executed s.os (as.map Action.thread) =
        (system text).trace executed s as :=
  ⟨TransitionSystem.run_map (fun _ _ _ step => (step_eq_some.mp step).1) run,
    TransitionSystem.trace_map (fun _ _ _ step => (step_eq_some.mp step).1) (fun _ _ => rfl) run⟩

/-- The program has come to where all processes have finished: by its time, by the length of
the run, or because no thread can go on. -/
def Late (s : OsMem cfg b) (as : List (Action cfg b)) : Prop :=
  cfg.finishSlot ≤ s.os.time ∨ Os.finishSteps cfg ≤ as.length ∨
    ∀ a, (Os.system cfg).step s.os a = none

/-- All processes have finished by then. -/
theorem pcOf_of_late (cpus : 1 ≤ cfg.numCpus) (few : cfg.numCpus ≤ 64) (fits : cfg.Fits)
    {memramsz memswpsz : Nat} {as : List (Action cfg b)}
    (run : (system text).run (start cfg b memramsz memswpsz) as = some s) (late : s.Late as)
    (p : cfg.Proc) : s.os.dispatch.kernel.pcOf p = cfg.size p := by
  obtain ⟨threads, -⟩ := run_os run
  have reachable : (Os.system cfg).Reachable s.os := (TransitionSystem.Reachable.init rfl).run threads
  obtain slot | long | stuck := late
  · exact (Os.freed_of_finishSlot cpus few fits reachable slot p).2
  · have slot := Os.finishSlot_le_time few threads (by rwa [List.length_map])
    exact (Os.freed_of_finishSlot cpus few fits reachable slot p).2
  · exact (Os.freed_of_stuck cpus few fits reachable stuck p).2

/-- `WRITE 7 0 0` and `READ 0 0`, and beside it `WRITE 9 0 0` -/
def writeRead : Dispatch.twoProcesses.Proc → Nat → Inst .mm32 :=
  fun p pc => if pc = 0 then .write (if p.val = 0 then 7 else 9) 0 0 else .read 0 0

end OsMem

end SimpleOs
