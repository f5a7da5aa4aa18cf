import SimpleOs.Os.Dispatch

/-!
# No process is duplicated

`Owned` is the invariant of the dispatch system: exclusive custody, each process
filed under its own priority, and no custody of a process not yet loaded or
already freed. `Fetched` ties the instruction a CPU is about to execute to the
program counter of the process it holds; exclusive custody keeps any other CPU
from moving that counter. The executed instructions of a process are then
`0, 1, 2, …` in this order.
-/

namespace SimpleOs

open StrictPriority (Filed)
open Custody (occurrences Exclusive)

namespace Dispatch

variable {cfg : Config}

/-- The processes in custody, and where. -/
structure Owned (s : Dispatch cfg) : Prop where
  exclusive : Exclusive s.places
  filed : Filed cfg.prio s.kernel.sched.levels
  fresh : ∀ p : cfg.Proc, s.kernel.loaded ≤ p.val → occurrences s.places p = 0
  gone : ∀ p, s.kernel.freed p = true → p.val < s.kernel.loaded ∧ occurrences s.places p = 0

/-- Inside `run(proc)` a CPU works on the process it holds, at the instruction
`proc->pc` still points to. -/
structure Fetched (s : Dispatch cfg) : Prop where
  running : ∀ i p, (s.cpu i).pc = .run p → (s.cpu i).held = some p
  fetched : ∀ i p n, (s.cpu i).pc = .execute p n →
    (s.cpu i).held = some p ∧ s.kernel.pcOf p = n ∧ n < cfg.size p
  bound : ∀ p, s.kernel.pcOf p ≤ cfg.size p

theorem owned_start : Owned (start cfg) where
  exclusive := by
    intro p
    rw [Custody.occurrences_eq_zero.mpr (by rintro (l | i) <;> simp [start, Kernel.boot, Cpu.start, Cpu.held])]
    exact Nat.zero_le 1
  filed := by
    intro l p member
    simp [start, Kernel.boot] at member
  fresh := by
    intro p _
    exact Custody.occurrences_eq_zero.mpr
      (by rintro (l | i) <;> simp [start, Kernel.boot, Cpu.start, Cpu.held])
  gone := by
    intro p freed
    simp [start, Kernel.boot] at freed

theorem fetched_start : Fetched (start cfg) where
  running := by intro i p at_run; cases at_run
  fetched := by intro i p n at_execute; cases at_execute
  bound := fun p => Nat.zero_le _

/-- Two CPUs never hold the same process. -/
theorem Owned.holder_unique {s : Dispatch cfg} (owned : Owned s) {i j : Fin cfg.numCpus}
    {p : cfg.Proc} (here : (s.cpu i).held = some p) (there : (s.cpu j).held = some p) : i = j := by
  have same := owned.exclusive.unique (i := .inr i) (j := .inr j) (t := p)
    (by simp [here]) (by simp [there])
  exact Sum.inr.inj same

theorem filed_effect {k k' : Kernel cfg} {c c' : Cpu cfg.Proc} (effect : CpuEffect k c k' c')
    (filed : Filed cfg.prio k.sched.levels) : Filed cfg.prio k'.sched.levels := by
  cases effect with
  | keep levels _ _ => rwa [levels]
  | free p _ _ _ sched _ _ => rwa [sched]
  | put p _ _ _ _ sched _ _ =>
      rw [sched, Sched.levels_putMlqProc]
      exact filed.insert p
  | dispatch l p rest _ head levels _ _ =>
      rw [levels]
      apply filed.update
      intro q member
      exact filed l q (by simp [head, member])

theorem owned_cpu {s t : Dispatch cfg} {i : Fin cfg.numCpus} (owned : Owned s)
    (step : (system cfg).step s (.cpu i) = some t) : Owned t := by
  obtain ⟨k, c, ran, after⟩ := step_cpu.mp step
  have effect := cpuStep_effect ran
  have account := fun p => occurrences_cpu effect after p
  have loaded : t.kernel.loaded = s.kernel.loaded := by
    rw [after]
    exact (cpuStep_loader ran).1
  refine ⟨?_, ?_, ?_, ?_⟩
  · intro p
    obtain ⟨lost, total, _⟩ := account p
    have bound := owned.exclusive p
    omega
  · rw [after]
    exact filed_effect effect owned.filed
  · intro p unloaded
    obtain ⟨lost, total, _⟩ := account p
    have none := owned.fresh p (loaded ▸ unloaded)
    omega
  · intro p dead
    obtain ⟨lost, total, _, released⟩ := account p
    have bound := owned.exclusive p
    rw [after] at dead
    rw [loaded]
    obtain before | now := released dead
    · obtain ⟨started, none⟩ := owned.gone p before
      exact ⟨started, by omega⟩
    · refine ⟨?_, by omega⟩
      by_contra unloaded
      have none := owned.fresh p (Nat.le_of_not_lt unloaded)
      omega

theorem owned_add {s : Dispatch cfg} (owned : Owned s) {q : cfg.Proc}
    (next : q.val = s.kernel.loaded) :
    Owned ({ s with kernel := s.kernel.addProc q } : Dispatch cfg) := by
  have account : ∀ p, occurrences ({ s with kernel := s.kernel.addProc q } : Dispatch cfg).places p ≤
      occurrences s.places p + if p = q then 1 else 0 := by
    intro p
    have total := occurrences_add s q p
    simp only [List.count_singleton, beq_iff_eq, eq_comm (a := q)] at total
    split at total <;> omega
  refine ⟨?_, ?_, ?_, ?_⟩
  · intro p
    have total := account p
    by_cases same : p = q
    · have new := owned.fresh p (by rw [same, next])
      rw [if_pos same] at total
      omega
    · have bound := owned.exclusive p
      rw [if_neg same] at total
      omega
  · change Filed cfg.prio (s.kernel.sched.addMlqProc cfg.prio q).levels
    rw [Sched.levels_addMlqProc]
    exact owned.filed.insert q
  · intro p unloaded
    have later : s.kernel.loaded + 1 ≤ p.val := unloaded
    have total := account p
    have none := owned.fresh p (by omega)
    have other : p ≠ q := by
      rintro rfl
      omega
    rw [if_neg other] at total
    omega
  · intro p dead
    obtain ⟨started, none⟩ := owned.gone p dead
    have total := account p
    have other : p ≠ q := by
      rintro rfl
      omega
    rw [if_neg other] at total
    exact ⟨Nat.lt_succ_of_lt started, by omega⟩

theorem owned_step {s t : Dispatch cfg} {a : Action cfg} (owned : Owned s)
    (step : (system cfg).step s a = some t) : Owned t := by
  cases a with
  | cpu i => exact owned_cpu owned step
  | ld =>
      obtain ⟨more, rfl⟩ | rfl := step_ld step
      · exact owned_add owned rfl
      · exact ⟨owned.exclusive, owned.filed, owned.fresh, owned.gone⟩

/-- A CPU enters `run(proc)` with the process it holds, and fetches the
instruction that `proc->pc` points to. -/
theorem cpuStep_fetch {k k' : Kernel cfg} {c c' : Cpu cfg.Proc}
    (step : cpuStep k c = some (k', c')) :
    (∀ p, c'.pc = .run p → c'.held = some p) ∧
      ∀ p n, c'.pc = .execute p n → c.pc = .run p ∧ c'.held = c.held ∧
        k'.pcOf = k.pcOf ∧ k.pcOf p = n ∧ n < cfg.size p := by
  obtain ⟨pc, proc, timeLeft⟩ := c
  cases pc with
  | run q =>
      cases step
      by_cases ended : k.pcOf q ≥ cfg.size q
      · simp [ended]
      · simp [ended, Cpu.held]
        omega
  | recheck =>
      cases proc with
      | none =>
          cases step
          cases done : k.done <;> simp
      | some q =>
          cases step
          simp [Cpu.held]
  | get site =>
      simp only [cpuStep] at step
      split at step
      · cases step
        simp
      · cases step
        split <;> simp
  | check =>
      simp only [cpuStep] at step
      (try split at step) <;> (try split at step) <;> (try split at step) <;> cases step <;> simp
  | exited => cases step
  | _ =>
      cases step
      simp

theorem cpu_of_other {s t : Dispatch cfg} {a : Action cfg} {i : Fin cfg.numCpus}
    (other : a ≠ .cpu i) (step : (system cfg).step s a = some t) : t.cpu i = s.cpu i := by
  cases a with
  | ld => obtain ⟨more, rfl⟩ | rfl := step_ld step <;> rfl
  | cpu j =>
      obtain ⟨k, c, ran, rfl⟩ := step_cpu.mp step
      refine setCpu_cpu_of_ne _ _ _ ?_
      rintro rfl
      exact other rfl

/-- A step of another thread leaves the counter of the process on a CPU alone. -/
theorem pcOf_of_other {s t : Dispatch cfg} {a : Action cfg} {i : Fin cfg.numCpus}
    (owned : Owned s) (fetched : Fetched s) (other : a ≠ .cpu i)
    (step : (system cfg).step s a = some t) {p : cfg.Proc} (held : (s.cpu i).held = some p) :
    t.kernel.pcOf p = s.kernel.pcOf p := by
  cases a with
  | ld => obtain ⟨more, rfl⟩ | rfl := step_ld step <;> rfl
  | cpu j =>
      obtain ⟨k, c, ran, rfl⟩ := step_cpu.mp step
      obtain kept | ⟨q, n, executes, advanced⟩ := cpuStep_pcOf ran
      · rw [setCpu_kernel, kept]
      · -- the CPU that advances `q` holds `q`, so `q` is not the process held here
        have distinct : p ≠ q := by
          rintro rfl
          obtain ⟨held', _⟩ := fetched.fetched j p n executes
          exact other (congrArg Action.cpu (owned.holder_unique held' held))
        rw [setCpu_kernel, advanced, Function.update_of_ne distinct]

theorem fetched_step {s t : Dispatch cfg} {a : Action cfg} (owned : Owned s) (fetched : Fetched s)
    (step : (system cfg).step s a = some t) : Fetched t := by
  cases a with
  | ld =>
      obtain ⟨more, rfl⟩ | rfl := step_ld step
      · exact ⟨fetched.running, fetched.fetched, fetched.bound⟩
      · exact ⟨fetched.running, fetched.fetched, fetched.bound⟩
  | cpu i =>
      obtain ⟨k, c, ran, rfl⟩ := step_cpu.mp step
      obtain ⟨enters, fetches⟩ := cpuStep_fetch ran
      refine ⟨?_, ?_, ?_⟩
      · intro j p at_run
        by_cases here : j = i
        · subst here
          rw [setCpu_cpu_self] at at_run ⊢
          exact enters p at_run
        · rw [setCpu_cpu_of_ne _ _ _ here] at at_run ⊢
          exact fetched.running j p at_run
      · intro j p n at_execute
        by_cases here : j = i
        · subst here
          rw [setCpu_cpu_self] at at_execute ⊢
          obtain ⟨at_run, held, kept, points, below⟩ := fetches p n at_execute
          rw [held]
          exact ⟨fetched.running j p at_run, by rw [setCpu_kernel, kept, points], below⟩
        · rw [setCpu_cpu_of_ne _ _ _ here] at at_execute ⊢
          obtain ⟨held, points, below⟩ := fetched.fetched j p n at_execute
          have other : Action.cpu i ≠ .cpu j := fun same => here (Action.cpu.inj same).symm
          exact ⟨held, (pcOf_of_other owned fetched other step held).trans points, below⟩
      · intro p
        obtain kept | ⟨q, m, executes, advanced⟩ := cpuStep_pcOf ran
        · rw [setCpu_kernel, kept]
          exact fetched.bound p
        · obtain ⟨_, points, below⟩ := fetched.fetched i q m executes
          rw [setCpu_kernel, advanced]
          by_cases same : p = q
          · subst same
            rw [Function.update_self]
            omega
          · rw [Function.update_of_ne same]
            exact fetched.bound p

/-- The CPU, the process and the index of the instruction that a step executes. -/
def executed (s : Dispatch cfg) : Action cfg → Option (Fin cfg.numCpus × cfg.Proc × Nat)
  | .cpu i =>
    match (s.cpu i).pc with
    | .execute p n => some (i, p, n)
    | _ => none
  | .ld => none

/-- The indices of the instructions of `p` among those executed. -/
def instructions (p : cfg.Proc) (es : List (Fin cfg.numCpus × cfg.Proc × Nat)) : List Nat :=
  (es.filter fun e => e.2.1 = p).map fun e => e.2.2

theorem executed_eq_none {s t : Dispatch cfg} {a : Action cfg}
    (step : (system cfg).step s a = some t) (quiet : executed s a = none) :
    t.kernel.pcOf = s.kernel.pcOf := by
  cases a with
  | ld => obtain ⟨more, rfl⟩ | rfl := step_ld step <;> rfl
  | cpu i =>
      obtain ⟨k, c, ran, rfl⟩ := step_cpu.mp step
      obtain kept | ⟨q, m, executes, _⟩ := cpuStep_pcOf ran
      · exact kept
      · simp [executed, executes] at quiet

theorem executed_eq_some {s t : Dispatch cfg} {a : Action cfg} (fetched : Fetched s)
    {i : Fin cfg.numCpus} {p : cfg.Proc} {n : Nat} (step : (system cfg).step s a = some t)
    (event : executed s a = some (i, p, n)) :
    s.kernel.pcOf p = n ∧ t.kernel.pcOf = Function.update s.kernel.pcOf p (n + 1) := by
  cases a with
  | ld => cases event
  | cpu j =>
      obtain ⟨k, c, ran, rfl⟩ := step_cpu.mp step
      have executes : (s.cpu j).pc = .execute p n := by
        simp only [executed] at event
        split at event
        · rename_i q m at_execute
          cases event
          exact at_execute
        · cases event
      obtain ⟨_, points, _⟩ := fetched.fetched j p n executes
      simp only [cpuStep, executes, Option.some.injEq, Prod.mk.injEq] at ran
      obtain ⟨rfl, rfl⟩ := ran
      exact ⟨points, by simp only [setCpu_kernel, points]⟩

/-- The instructions a process has executed are those below its counter, in order. -/
theorem instructions_step {es : List (Fin cfg.numCpus × cfg.Proc × Nat)} {s t : Dispatch cfg}
    {a : Action cfg} (fetched : Fetched s)
    (ordered : ∀ p, instructions p es = List.range (s.kernel.pcOf p))
    (step : (system cfg).step s a = some t) (p : cfg.Proc) :
    instructions p (es ++ (executed s a).toList) = List.range (t.kernel.pcOf p) := by
  cases event : executed s a with
  | none =>
      rw [executed_eq_none step event, Option.toList_none, List.append_nil]
      exact ordered p
  | some e =>
      obtain ⟨i, q, n⟩ := e
      obtain ⟨points, advanced⟩ := executed_eq_some fetched step event
      have before := ordered p
      unfold instructions at before ⊢
      rw [Option.toList_some, List.filter_append, List.map_append, before, advanced]
      by_cases same : p = q
      · subst same
        rw [Function.update_self, points, List.range_succ]
        simp
      · rw [Function.update_of_ne same]
        simp [Ne.symm same]

/-- The invariants along a run, with the instructions executed so far. -/
theorem run_invariant {s : Dispatch cfg} {as : List (Action cfg)}
    (run : (system cfg).run (start cfg) as = some s) :
    Owned s ∧ Fetched s ∧ ∀ p, instructions p ((system cfg).trace executed (start cfg) as) =
      List.range (s.kernel.pcOf p) := by
  refine TransitionSystem.trace_invariant (M := system cfg)
    (R := fun es s => Owned s ∧ Fetched s ∧ ∀ p, instructions p es = List.range (s.kernel.pcOf p))
    ?_ ⟨owned_start, fetched_start, fun p => rfl⟩ run
  rintro es s a t ⟨owned, fetched, ordered⟩ step
  exact ⟨owned_step owned step, fetched_step owned fetched step,
    instructions_step fetched ordered step⟩

/-- An instruction that shows up once in program order was executed by one CPU. -/
theorem executor_unique {es : List (Fin cfg.numCpus × cfg.Proc × Nat)} {i j : Fin cfg.numCpus}
    {p : cfg.Proc} {n : Nat} (once : (instructions p es).Nodup) (here : (i, p, n) ∈ es)
    (there : (j, p, n) ∈ es) : i = j := by
  have same := List.inj_on_of_nodup_map once
    (List.mem_filter.mpr ⟨here, by simp⟩) (List.mem_filter.mpr ⟨there, by simp⟩) rfl
  exact congrArg Prod.fst same

/-- The ready queues and the variables `proc` of the CPUs, whether or not the
CPU is still responsible for the process its variable points to. -/
def procVariables (s : Dispatch cfg) : Prio ⊕ Fin cfg.numCpus → List cfg.Proc :=
  Sum.elim s.kernel.sched.levels fun i => (s.cpu i).proc.toList

/-- One CPU and one process of two instructions, with time slots of one. -/
def loneProcess : Config where
  timeSlot := 1
  numCpus := 1
  numProcesses := 1
  startTime := fun _ => 0
  prio := fun _ => 0
  size := fun _ => 2

/-- The loader adds the process; the CPU executes one instruction, and puts the
process back at the start of its next turn. -/
def loneRun : List (Action loneProcess) :=
  .ld :: List.replicate 11 (.cpu ⟨0, by decide⟩)

def loneCpu : Fin loneProcess.numCpus := ⟨0, by decide⟩

/-- After its `put_proc` and before its `get_proc` returns, a CPU still has the
process in `proc` that is already back in the ready queue. -/
theorem variable_duplicates : ¬ ∀ (cfg : Config) (as : List (Action cfg)) (s : Dispatch cfg),
    (system cfg).run (start cfg) as = some s → ∀ p, occurrences s.procVariables p ≤ 1 := by
  intro unique
  let proc : loneProcess.Proc := ⟨0, by decide⟩
  have twice : ((system loneProcess).run (start loneProcess) loneRun).any
      (fun s => occurrences s.procVariables proc = 2) = true := by
    decide +kernel
  obtain ⟨s, run, two⟩ := (Option.any_eq_true _ _).mp twice
  have one := unique _ _ s run proc
  rw [of_decide_eq_true two] at one
  exact absurd one (by decide)

/-- Along every interleaving a process is at one place at most, waits only in
the queue of its own priority, and has its instructions executed once, in
program order, each by one CPU. -/
theorem process_exclusive (cfg : Config) (as : List (Action cfg)) (s : Dispatch cfg)
    (run : (system cfg).run (start cfg) as = some s) :
    (∀ p, occurrences s.places p ≤ 1) ∧
      (∀ l, ∀ p ∈ s.kernel.sched.levels l, cfg.prio p = l) ∧
      (∀ p, instructions p ((system cfg).trace executed (start cfg) as) =
        List.range (s.kernel.pcOf p) ∧ s.kernel.pcOf p ≤ cfg.size p) ∧
      ∀ i j p n, (i, p, n) ∈ (system cfg).trace executed (start cfg) as →
        (j, p, n) ∈ (system cfg).trace executed (start cfg) as → i = j := by
  obtain ⟨owned, fetched, ordered⟩ := run_invariant run
  refine ⟨owned.exclusive, owned.filed, fun p => ⟨ordered p, fetched.bound p⟩, ?_⟩
  intro i j p n here there
  refine executor_unique ?_ here there
  rw [ordered p]
  exact List.nodup_range

theorem process_exclusive_lone : ∃ s, (system loneProcess).run (start loneProcess) loneRun = some s ∧
    ∀ p, occurrences s.places p ≤ 1 ∧
      instructions p ((system loneProcess).trace executed (start loneProcess) loneRun) =
        List.range (s.kernel.pcOf p) := by
  have runs : ((system loneProcess).run (start loneProcess) loneRun).isSome = true := by
    decide +kernel
  obtain ⟨s, run⟩ := Option.isSome_iff_exists.mp runs
  obtain ⟨exclusive, _, ordered, _⟩ := process_exclusive loneProcess loneRun s run
  exact ⟨s, run, fun p => ⟨exclusive p, (ordered p).1⟩⟩

end Dispatch
end SimpleOs
