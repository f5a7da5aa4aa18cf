import SimpleOs.Lib.Monitor
import SimpleOs.Os.Progress

/-!
# Sleeping and signalling

In `Os` a wait is a step that is not enabled yet. The code tests a condition under a lock and
sleeps on a condition variable: the order variable in `wait_cpu_turn`, the `timer_cond` of a
device in `next_slot`, the `event_cond` of a device in `timer_routine`. What makes one of the
conditions true signals that variable, so no wake-up is lost, and the program with all its
tests, sleeps and wake-ups does what `Os` does.
-/

namespace SimpleOs

/-- The condition variables of `timer.c`. -/
inductive Cond (n : Nat) where
  | order
  | event (d : Dev n)
  | timer (d : Dev n)
  deriving DecidableEq

namespace Os

variable {cfg : Config}

deriving instance DecidableEq for Action

/-- The condition variable that a thread waits on where it stands. `main` joins threads. -/
def awaits (s : Os cfg) : Action cfg → Option (Cond cfg.numCpus)
  | .cpu i =>
    match (s.dispatch.cpu i).pc with
    | .waitTurn => some .order
    | .slotWait => some (.timer (.cpu i))
    | _ => none
  | .ld =>
    match s.ld with
    | .startWait => some .order
    | .waitTurn _ => some .order
    | .slotWait _ => some (.timer .ld)
    | _ => none
  | .timer =>
    match s.timer with
    | .check (d :: _) _ => some (.event d)
    | _ => none
  | .main => none

/-- The condition variable that a step signals, or broadcasts to. -/
def signals (s : Os cfg) : Action cfg → Option (Cond cfg.numCpus)
  | .cpu i =>
    match (s.dispatch.cpu i).pc with
    | .signal _ => some .order
    | .signalStop => some .order
    | .slotDone => some (.event (.cpu i))
    | .detach => some (.event (.cpu i))
    | _ => none
  | .ld =>
    match s.ld with
    | .startSignal => some .order
    | .innerSignal _ => some .order
    | .addSignal => some .order
    | .finalSignal => some .order
    | .slotDone _ => some (.event .ld)
    | .detach => some (.event .ld)
    | _ => none
  | .timer =>
    match s.timer with
    | .reset _ => some .order
    | .release (d :: _) _ => some (.timer d)
    | _ => none
  | .main => none

/-- The threads with their condition variables. -/
def monitor (cfg : Config) : Monitor (Os cfg) (Action cfg) where
  toTransitionSystem := system cfg
  waits s a := (s.awaits a).isSome
  wakes s a b := (s.awaits b).isSome && decide (s.signals a = s.awaits b)

variable {s t u : Os cfg} {a b : Action cfg} {d : Dev cfg.numCpus}

/-- What a step leaves as it is unless it signals the variable for it. -/
structure Quiet (s t : Os cfg) (a : Action cfg) : Prop where
  turn : s.signals a ≠ some .order → t.currentCpuTurn = s.currentCpuTurn
  set : ∀ d, s.signals a ≠ some (.event d) → (s.dev d).done = false → (t.dev d).done = false
  detached : ∀ d, s.signals a ≠ some (.event d) → (t.dev d).fsh = (s.dev d).fsh
  cleared : ∀ d, s.signals a ≠ some (.timer d) → (s.dev d).done = true → (t.dev d).done = true

/-- A step that leaves the turn and the flags alone. -/
theorem Quiet.of_same (turn : t.currentCpuTurn = s.currentCpuTurn) (dev : t.dev = s.dev) :
    Quiet s t a :=
  ⟨fun _ => turn, fun d _ held => by rw [dev, held], fun d _ => by rw [dev],
    fun d _ held => by rw [dev, held]⟩

/-- A step that signals the order variable and leaves the flags alone. -/
theorem Quiet.of_order (order : s.signals a = some .order) (dev : t.dev = s.dev) : Quiet s t a :=
  ⟨fun other => absurd order other, fun d _ held => by rw [dev, held], fun d _ => by rw [dev],
    fun d _ held => by rw [dev, held]⟩

theorem Quiet.congr (quiet : Quiet s t a) (turn : u.currentCpuTurn = t.currentCpuTurn)
    (dev : u.dev = t.dev) : Quiet s u a := by
  obtain ⟨keeps, set, detached, cleared⟩ := quiet
  exact ⟨by rwa [turn], by rwa [dev], by rwa [dev], by rwa [dev]⟩

/-- A step that raises a flag of a device and signals its event. -/
theorem Quiet.of_event {flags : TimerId} (event : s.signals a = some (.event d))
    (turn : t.currentCpuTurn = s.currentCpuTurn) (dev : t.dev = Function.update s.dev d flags)
    (kept : (s.dev d).done = true → flags.done = true) : Quiet s t a := by
  have other : ∀ e, s.signals a ≠ some (.event e) → t.dev e = s.dev e := by
    intro e apart
    rw [dev, Function.update_of_ne]
    rintro rfl
    exact apart event
  refine ⟨fun _ => turn, fun e apart held => ?_, fun e apart => ?_, fun e _ held => ?_⟩
  · rw [other e apart, held]
  · rw [other e apart]
  · by_cases same : e = d
    · subst same
      rw [dev, Function.update_self]
      exact kept held
    · rw [dev, Function.update_of_ne same, held]

theorem quiet_stepCpu {i : Fin cfg.numCpus} (step : s.stepCpu i = some t) : Quiet s t (.cpu i) := by
  obtain ⟨-, k, c, -, rfl⟩ := stepCpu_eq_some.mp step
  cases pc : (s.dispatch.cpu i).pc with
  | signal ran =>
      refine .of_order ?_ ?_
      · simp only [signals, pc]
      · simp only [cpuSync, pc, signalNextCpu]
  | signalStop =>
      refine .of_order ?_ ?_
      · simp only [signals, pc]
      · simp only [cpuSync, pc, signalNextCpu]
  | slotDone =>
      have raised : Quiet s (s.slotDone (.cpu i)) (.cpu i) :=
        .of_event (d := .cpu i) (by simp only [signals, pc]) rfl rfl fun _ => rfl
      exact raised.congr (by simp only [cpuSync, pc]) (by simp only [cpuSync, pc])
  | detach =>
      have raised : Quiet s (s.detachEvent (.cpu i)) (.cpu i) :=
        .of_event (d := .cpu i) (by simp only [signals, pc]) rfl rfl id
      exact raised.congr (by simp only [cpuSync, pc]) (by simp only [cpuSync, pc])
  | _ =>
      refine .of_same ?_ ?_
      · simp only [cpuSync, pc, markCpuInactive]
      · simp only [cpuSync, pc, markCpuInactive]

theorem quiet_stepLd (step : s.stepLd = some t) : Quiet s t .ld := by
  cases pc : s.ld with
  | startSignal | innerSignal | addSignal | finalSignal =>
      simp only [stepLd, pc, Option.some.injEq] at step
      subst step
      exact .of_order (by simp only [signals, pc]) rfl
  | slotDone =>
      simp only [stepLd, pc, Option.some.injEq] at step
      subst step
      exact .of_event (d := .ld) (by simp only [signals, pc]) rfl rfl fun _ => rfl
  | detach =>
      simp only [stepLd, pc, Option.some.injEq] at step
      subst step
      exact .of_event (d := .ld) (by simp only [signals, pc]) rfl rfl id
  | exited => simp only [stepLd, pc, reduceCtorEq] at step
  | _ =>
      simp only [stepLd, pc] at step
      (try split at step) <;> cases step <;> exact .of_same rfl rfl

theorem quiet_stepTimer (step : s.stepTimer = some t) : Quiet s t .timer := by
  unfold stepTimer at step
  split at step
  case h_4 timer =>
    cases step
    exact .of_order (by simp only [signals, timer]) rfl
  case h_5 d rest _ timer =>
    -- only clearing `done` can let a device go on, and it is the device that is signalled
    cases step
    have other : ∀ e, e ≠ d → (s.releaseDev d).dev e = s.dev e := fun e apart =>
      Function.update_of_ne apart ..
    have self : (s.releaseDev d).dev d = { s.dev d with done := false } :=
      Function.update_self ..
    refine ⟨fun _ => rfl, fun e _ held => ?_, fun e _ => ?_, fun e apart held => ?_⟩
    · by_cases same : e = d
      · subst same
        exact congrArg TimerId.done self
      · exact (congrArg TimerId.done (other e same)).trans held
    · by_cases same : e = d
      · subst same
        change ((s.releaseDev e).dev e).fsh = (s.dev e).fsh
        rw [self]
      · exact congrArg TimerId.fsh (other e same)
    · have unsignalled : e ≠ d := by
        rintro rfl
        exact apart (by simp only [signals, timer])
      exact (congrArg TimerId.done (other e unsignalled)).trans held
  all_goals
    (try split at step) <;> cases step <;> exact .of_same rfl rfl

theorem quiet_step (step : (system cfg).step s a = some t) : Quiet s t a := by
  cases a with
  | cpu i => exact quiet_stepCpu step
  | ld => exact quiet_stepLd step
  | timer => exact quiet_stepTimer step
  | main =>
      obtain ⟨pc, stop, rfl⟩ := stepMain_frame step
      exact .of_same rfl rfl

/-! ## No step moves another thread -/

theorem cpu_pc_of_step {i : Fin cfg.numCpus} (other : a ≠ .cpu i)
    (step : (system cfg).step s a = some t) : t.dispatch.cpu i = s.dispatch.cpu i := by
  by_cases own : ∃ j, a = .cpu j
  · obtain ⟨j, rfl⟩ := own
    obtain ⟨-, k, c, -, rfl⟩ := stepCpu_eq_some.mp step
    refine Dispatch.setCpu_cpu_of_ne _ _ _ ?_
    rintro rfl
    exact other rfl
  · rw [cpu_of_noCpu (not_exists.mp own) step]

theorem ld_of_step (other : a ≠ .ld) (step : (system cfg).step s a = some t) : t.ld = s.ld := by
  cases a with
  | cpu i => exact ld_stepCpu step
  | ld => exact absurd rfl other
  | timer => exact (stepTimer_frame step).2.1
  | main =>
      obtain ⟨pc, stop, rfl⟩ := stepMain_frame step
      rfl

theorem timer_of_step (other : a ≠ .timer) (step : (system cfg).step s a = some t) :
    t.timer = s.timer := by
  cases a with
  | cpu i => exact (stepCpu_frame step).timer
  | ld => exact (stepLd_frame step).timer
  | timer => exact absurd rfl other
  | main =>
      obtain ⟨pc, stop, rfl⟩ := stepMain_frame step
      rfl

/-- A thread stands at the same wait after a step of another one. -/
theorem awaits_of_step (other : a ≠ b) (step : (system cfg).step s a = some t) :
    t.awaits b = s.awaits b := by
  cases b with
  | cpu i => simp only [awaits, cpu_pc_of_step other step]
  | ld => simp only [awaits, ld_of_step other step]
  | timer => simp only [awaits, timer_of_step other step]
  | main => rfl

/-! ## No wake-up is lost -/

/-- The test of the loop around a wait, for the thread that stands there. -/
def waiting (s : Os cfg) : Action cfg → Bool
  | .cpu i => !s.cpuReady i
  | .ld =>
    match s.ld with
    | .startWait => s.currentCpuTurn ≠ -1
    | .waitTurn _ => s.currentCpuTurn ≠ -1
    | .slotWait _ => (s.dev .ld).done
    | _ => false
  | .timer =>
    match s.timer with
    | .check (d :: _) _ => !(s.dev d).done && !(s.dev d).fsh
    | _ => false
  | .main => false

/-- A thread at a wait has to wait exactly if the test of its loop says so. -/
theorem step_eq_none_iff (waits : (s.awaits b).isSome = true) :
    (system cfg).step s b = none ↔ s.waiting b = true := by
  cases b with
  | cpu i =>
      change s.stepCpu i = none ↔ _
      simp only [awaits] at waits
      cases pc : (s.dispatch.cpu i).pc <;> simp [pc] at waits <;>
        simp [stepCpu, waiting, cpuStep, pc]
  | ld =>
      change s.stepLd = none ↔ _
      simp only [awaits] at waits
      cases pc : s.ld <;> simp [pc] at waits <;> simp [stepLd, waiting, pc]
  | timer =>
      change s.stepTimer = none ↔ _
      simp only [awaits] at waits
      split at waits
      · rename_i timer
        simp [stepTimer, waiting, timer]
      · cases waits
  | main => cases waits

/-- What a waiting thread waits for does not come about without a signal. -/
theorem waiting_of_step (waits : (s.awaits b).isSome = true) (waiting : s.waiting b = true)
    (other : a ≠ b) (apart : s.signals a ≠ s.awaits b) (step : (system cfg).step s a = some t) :
    t.waiting b = true := by
  have quiet := quiet_step step
  cases b with
  | cpu i =>
      have place := congrArg Cpu.pc (cpu_pc_of_step other step)
      simp only [awaits] at waits apart
      simp only [Os.waiting, cpuReady, place] at waiting ⊢
      cases pc : (s.dispatch.cpu i).pc <;> simp only [pc] at waits waiting apart ⊢ <;>
        try cases waits
      · rwa [quiet.turn apart]
      · rw [Bool.not_not] at waiting ⊢
        exact quiet.cleared _ apart waiting
  | ld =>
      simp only [awaits] at waits apart
      simp only [Os.waiting, ld_of_step other step] at waiting ⊢
      cases pc : s.ld <;> simp only [pc] at waits waiting apart ⊢ <;> try cases waits
      · rwa [quiet.turn apart]
      · exact quiet.cleared _ apart waiting
      · rwa [quiet.turn apart]
  | timer =>
      simp only [awaits] at waits apart
      simp only [Os.waiting, timer_of_step other step] at waiting ⊢
      split at waits
      · rename_i d rest fsh timer
        simp only [timer, Bool.and_eq_true, Bool.not_eq_true'] at apart waiting ⊢
        exact ⟨quiet.set d apart waiting.1, (quiet.detached d apart).trans waiting.2⟩
      · cases waits
  | main => cases waits

/-- Whatever lets a thread that waits go on wakes it. -/
theorem signals_monitor (cfg : Config) : (monitor cfg).Signals := by
  intro s a t b _ step blocked waits unwoken
  change (system cfg).step s a = some t at step
  change (system cfg).step s b = none at blocked
  change (s.awaits b).isSome = true at waits
  have other : a ≠ b := by
    rintro rfl
    rw [blocked] at step
    cases step
  have apart : s.signals a ≠ s.awaits b := by
    simpa [monitor, waits] using unwoken
  have same := awaits_of_step other step
  have still : (t.awaits b).isSome = true := by rwa [same]
  refine ⟨?_, still⟩
  exact (step_eq_none_iff still).mpr
    (waiting_of_step waits ((step_eq_none_iff waits).mp blocked) other apart step)

/-- Before the threads run none of them sleeps. -/
def startThreads (cfg : Config) : Monitor.State (Os cfg) (Action cfg) :=
  ⟨start cfg, fun _ => false⟩

theorem reachable_threads {moves : List (Monitor.Action (Action cfg))}
    {s : Monitor.State (Os cfg) (Action cfg)}
    (run : (monitor cfg).threads.run (startThreads cfg) moves = some s) :
    (monitor cfg).threads.Reachable s := by
  have first : (monitor cfg).threads.Reachable (startThreads cfg) := .init ⟨rfl, fun _ => rfl⟩
  exact first.run run

/-- The steps of the system that the threads make in a run. -/
def steps (cfg : Config) (moves : List (Monitor.Action (Action cfg))) : List (Action cfg) :=
  (monitor cfg).threads.trace (monitor cfg).stepOf (startThreads cfg) moves

/-- However the threads test, sleep and wake up, they do a run of the system, a thread that sleeps
would have to wait if it woke up, and a step that the system can do the thread can do. -/
theorem no_lost_wakeup (cfg : Config) (moves : List (Monitor.Action (Action cfg)))
    (s : Monitor.State (Os cfg) (Action cfg))
    (run : (monitor cfg).threads.run (startThreads cfg) moves = some s) :
    (system cfg).run (start cfg) (steps cfg moves) = some s.shared ∧
      (∀ a, s.asleep a = true → s.shared.waiting a = true) ∧
      ∀ a t, (system cfg).step s.shared a = some t →
        ∃ u, (monitor cfg).threads.step s (.go a) = some u ∧ u.shared = t := by
  have reachable := reachable_threads run
  obtain ⟨-, idle⟩ := Monitor.idle_of_reachable (signals_monitor cfg) reachable
  refine ⟨Monitor.run_shared run, fun a sleeps => ?_, fun a t step => ?_⟩
  · obtain ⟨blocked, waits⟩ := idle a sleeps
    exact (step_eq_none_iff waits).mp blocked
  · exact Monitor.go_of_step (signals_monitor cfg) reachable step

/-- The loader finds that it is not its turn and goes to sleep; it wakes up without a signal, and
goes to sleep again. -/
def restlessLoader : List (Monitor.Action (Action Dispatch.loneProcess)) :=
  [.go .ld, .spurious .ld, .go .ld]

theorem no_lost_wakeup_restless : ∃ s, (monitor Dispatch.loneProcess).threads.run
    (startThreads Dispatch.loneProcess) restlessLoader = some s ∧ s.asleep .ld = true ∧
      s.shared.waiting .ld = true := by
  have runs : ((monitor Dispatch.loneProcess).threads.run (startThreads Dispatch.loneProcess)
      restlessLoader).any (fun s => s.asleep .ld) = true := by
    decide +kernel
  obtain ⟨s, run, asleep⟩ := (Option.any_eq_true _ _).mp runs
  exact ⟨s, run, asleep,
    (no_lost_wakeup Dispatch.loneProcess restlessLoader s run).2.1 .ld asleep⟩

/-! ## The program ends all processes -/

/-- The threads: the timer, `main`, the loader and the CPUs. -/
def threadEquiv (cfg : Config) : Option (Option (Option (Fin cfg.numCpus))) ≃ Action cfg where
  toFun
    | none => .timer
    | some none => .main
    | some (some none) => .ld
    | some (some (some i)) => .cpu i
  invFun
    | .timer => none
    | .main => some none
    | .ld => some (some none)
    | .cpu i => some (some (some i))
  left_inv d := by rcases d with _ | _ | _ | i <;> rfl
  right_inv a := by cases a <;> rfl

instance instFintypeAction (cfg : Config) : Fintype (Action cfg) :=
  .ofEquiv _ (threadEquiv cfg)

end Os
end SimpleOs
