import SimpleOs.Sched.Refinement

/-!
# `cpu_routine` one step at a time

A CPU thread is its program counter in `cpu_routine` and its two local
variables. `cpuStep` is one step of it at lock granularity: a scheduler call is
one critical section of `queue_lock`, so a `get_proc` that finds its level empty
stays in the call and locks again. `run` fetches in one step and advances
`proc->pc` in the next one.

What a step does to processes is told by `Cpu.held`, the process a CPU is
responsible for. Between `put_proc` or `free` and the return of `get_proc` the
variable `proc` still holds the old pointer, and the CPU is responsible for none.
-/

namespace SimpleOs

open StrictPriority (Levels)

/-- What `read_config` and `load` provide: the first line of the configuration,
and for each listed process its start time, its priority and the size of its code. -/
structure Config where
  timeSlot : Int
  numCpus : Nat
  numProcesses : Nat
  startTime : Fin numProcesses → Nat
  prio : Fin numProcesses → Prio
  size : Fin numProcesses → Nat

/-- A process, by its position in the configuration. -/
abbrev Config.Proc (cfg : Config) := Fin cfg.numProcesses

/-- The three calls of `get_proc` in `cpu_routine`. -/
inductive GetSite where
  | load
  | finished
  | expired
  deriving DecidableEq

/-- Where a CPU thread stands in `cpu_routine`. `run proc` and `execute proc pc`
are inside `run(proc)`, before and after the instruction is fetched; `signal` is
`signal_next_cpu` on the way to `next_slot`, after `run` or without it. -/
inductive CpuPc (P : Type*) where
  | waitTurn
  | check
  | get (site : GetSite)
  | recheck
  | run (proc : P)
  | execute (proc : P) (pc : Nat)
  | signal (ran : Bool)
  | slotDone
  | slotWait
  | markInactive
  | signalStop
  | detach
  | exited
  deriving DecidableEq

/-- A CPU thread: where it stands, and the locals `proc` and `time_left`. -/
structure Cpu (P : Type*) where
  pc : CpuPc P
  proc : Option P
  timeLeft : Int

/-- What the threads share besides the turn and the timer: the scheduler, each
process's `pc` and whether it was freed, the loader's index `i` and `done`. -/
structure Kernel (cfg : Config) where
  sched : Sched cfg.Proc
  pcOf : cfg.Proc → Nat
  freed : cfg.Proc → Bool
  loaded : Nat
  done : Bool

namespace Kernel

/-- After `init_scheduler`, before any thread runs. -/
def boot (cfg : Config) : Kernel cfg where
  sched := Sched.boot
  pcOf := fun _ => 0
  freed := fun _ => false
  loaded := 0
  done := false

variable {cfg : Config}

/-- `add_proc(proc)` and `i++` of `ld_routine`. -/
def addProc (k : Kernel cfg) (proc : cfg.Proc) : Kernel cfg :=
  { k with sched := k.sched.addMlqProc cfg.prio proc, loaded := k.loaded + 1 }

/-- `done = 1` of `ld_routine`. -/
def setDone (k : Kernel cfg) : Kernel cfg := { k with done := true }

end Kernel

/-- A CPU thread at the start of `cpu_routine`. -/
def Cpu.start (P : Type*) : Cpu P where
  pc := .waitTurn
  proc := none
  timeLeft := 0

/-- The process a CPU is responsible for. -/
def Cpu.held {P : Type*} (c : Cpu P) : Option P :=
  match c.pc with
  | .get _ => none
  | _ => c.proc

section Steps

variable {cfg : Config}

/-- One step of `cpu_routine`; `none` once the thread has exited. -/
def cpuStep (k : Kernel cfg) (c : Cpu cfg.Proc) : Option (Kernel cfg × Cpu cfg.Proc) :=
  match c.pc with
  | .waitTurn => some (k, { c with pc := .check })
  | .check =>
    match c.proc with
    | none => some (k, { c with pc := .get .load })
    | some p =>
      if k.pcOf p = cfg.size p then
        some ({ k with freed := Function.update k.freed p true }, { c with pc := .get .finished })
      else if c.timeLeft = 0 then
        some ({ k with sched := k.sched.putMlqProc cfg.prio p }, { c with pc := .get .expired })
      else some (k, { c with pc := .recheck })
  | .get site =>
    match k.sched.getMlqSection with
    | .again s => some ({ k with sched := s }, c)
    | .ret proc s =>
      some ({ k with sched := s },
        { pc := if site = .load ∧ proc = none then .signal false else .recheck
          proc := proc
          timeLeft := if site = .finished then 0 else c.timeLeft })
  | .recheck =>
    match c.proc with
    | none => some (k, { c with pc := if k.done then .markInactive else .signal false })
    | some p =>
      some (k, { c with
        pc := .run p
        timeLeft := if c.timeLeft = 0 then cfg.timeSlot else c.timeLeft })
  | .run p =>
    some (k, { c with
      pc := if k.pcOf p ≥ cfg.size p then .signal true else .execute p (k.pcOf p) })
  | .execute p _ =>
    some ({ k with pcOf := Function.update k.pcOf p (k.pcOf p + 1) }, { c with pc := .signal true })
  | .signal ran =>
    some (k, { c with
      pc := .slotDone
      timeLeft := if ran then c.timeLeft - 1 else c.timeLeft })
  | .slotDone => some (k, { c with pc := .slotWait })
  | .slotWait => some (k, { c with pc := .waitTurn })
  | .markInactive => some (k, { c with pc := .signalStop })
  | .signalStop => some (k, { c with pc := .detach })
  | .detach => some (k, { c with pc := .exited })
  | .exited => none

/-- A CPU thread can always step until it exits. -/
theorem cpuStep_eq_none {k : Kernel cfg} {c : Cpu cfg.Proc} :
    cpuStep k c = none ↔ c.pc = .exited := by
  unfold cpuStep
  split <;> (try split) <;> (try split) <;> (try split) <;> simp_all

/-- What a CPU step does to the processes. -/
inductive CpuEffect (k : Kernel cfg) (c : Cpu cfg.Proc) (k' : Kernel cfg) (c' : Cpu cfg.Proc) :
    Prop where
  /-- The queues and the process held stay; `execute` may advance a `pc`. -/
  | keep (levels : k'.sched.levels = k.sched.levels) (held : c'.held = c.held)
      (freed : k'.freed = k.freed)
  /-- The process held has no instruction left, and is freed. -/
  | free (p : cfg.Proc) (check : c.pc = .check) (held : c.held = some p)
      (finished : k.pcOf p = cfg.size p) (sched : k'.sched = k.sched) (gone : c'.held = none)
      (freed : k'.freed = Function.update k.freed p true)
  /-- The process held has used up its time slot, and is put back. -/
  | put (p : cfg.Proc) (check : c.pc = .check) (held : c.held = some p)
      (unfinished : k.pcOf p ≠ cfg.size p) (expired : c.timeLeft = 0)
      (sched : k'.sched = k.sched.putMlqProc cfg.prio p) (gone : c'.held = none)
      (freed : k'.freed = k.freed)
  /-- The head of a level is dispatched. -/
  | dispatch (l : Prio) (p : cfg.Proc) (rest : List cfg.Proc) (held : c.held = none)
      (head : k.sched.levels l = p :: rest)
      (levels : k'.sched.levels = Function.update k.sched.levels l rest)
      (taken : c'.held = some p) (freed : k'.freed = k.freed)

/-- Everything one step of `cpu_routine` can do to the processes. -/
theorem cpuStep_effect {k k' : Kernel cfg} {c c' : Cpu cfg.Proc}
    (step : cpuStep k c = some (k', c')) : CpuEffect k c k' c' := by
  obtain ⟨pc, proc, timeLeft⟩ := c
  cases pc with
  | check =>
      cases proc with
      | none =>
          cases step
          exact .keep rfl rfl rfl
      | some p =>
          simp only [cpuStep] at step
          split at step
          · rename_i finished
            cases step
            exact .free p rfl rfl finished rfl rfl rfl
          · rename_i unfinished
            split at step
            · rename_i expired
              cases step
              exact .put p rfl rfl unfinished expired rfl rfl rfl
            · cases step
              exact .keep rfl rfl rfl
  | get site =>
      obtain ⟨s, ret, _, same, _⟩ | ⟨l, p, rest, s, ret, _, head, after, _⟩ |
        ⟨s, again, _, _, same, _⟩ := k.sched.getMlqSection_cases
      · simp only [cpuStep, ret, Option.some.injEq, Prod.mk.injEq] at step
        obtain ⟨rfl, rfl⟩ := step
        refine .keep same ?_ rfl
        cases site <;> rfl
      · simp only [cpuStep, ret, Option.some.injEq, Prod.mk.injEq] at step
        obtain ⟨rfl, rfl⟩ := step
        refine .dispatch l p rest rfl head after ?_ rfl
        simp [Cpu.held]
      · simp only [cpuStep, again, Option.some.injEq, Prod.mk.injEq] at step
        obtain ⟨rfl, rfl⟩ := step
        exact .keep same rfl rfl
  | recheck =>
      cases proc with
      | none =>
          cases step
          refine .keep rfl ?_ rfl
          cases done : k.done <;> simp [Cpu.held]
      | some p =>
          cases step
          exact .keep rfl rfl rfl
  | run p =>
      cases step
      refine .keep rfl ?_ rfl
      by_cases fetched : k.pcOf p ≥ cfg.size p <;> simp [Cpu.held, fetched]
  | exited => cases step
  | _ =>
      cases step
      exact .keep rfl rfl rfl

/-- A CPU leaves the loader's variables alone. -/
theorem cpuStep_loader {k k' : Kernel cfg} {c c' : Cpu cfg.Proc}
    (step : cpuStep k c = some (k', c')) : k'.loaded = k.loaded ∧ k'.done = k.done := by
  unfold cpuStep at step
  split at step <;> (try split at step) <;> (try split at step) <;> (try split at step) <;>
    cases step <;> exact ⟨rfl, rfl⟩

/-- Only `execute` advances a program. -/
theorem cpuStep_pcOf {k k' : Kernel cfg} {c c' : Cpu cfg.Proc}
    (step : cpuStep k c = some (k', c')) :
    k'.pcOf = k.pcOf ∨ ∃ p n, c.pc = .execute p n ∧
      k'.pcOf = Function.update k.pcOf p (k.pcOf p + 1) := by
  obtain ⟨pc, proc, timeLeft⟩ := c
  cases pc with
  | execute p n =>
      cases step
      exact .inr ⟨p, n, rfl, rfl⟩
  | _ =>
      refine .inl ?_
      simp only [cpuStep] at step
      (try split at step) <;> (try split at step) <;> (try split at step) <;>
        cases step <;> rfl

end Steps

end SimpleOs
