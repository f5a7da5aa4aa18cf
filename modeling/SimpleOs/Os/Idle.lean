import SimpleOs.Os.Simulation
import SimpleOs.Os.Slots

/-!
# Idle CPUs do not stop

A CPU that ends a process, or puts one back, and then finds the ready queues
empty tests `done` and stops. A CPU that had no process to begin with does not:
when its `get_proc` returns NULL it goes straight to the next slot, without the
test. So a CPU that begins a turn without a process never stops in that turn,
and once nothing is left to run it takes turns for ever.
-/

namespace SimpleOs

namespace Os

variable {cfg : Config}

/-- The loader has set `done`, and all ready queues are empty. -/
structure WorkOver (s : Os cfg) : Prop where
  done : s.dispatch.kernel.done = true
  empty : ∀ l, s.dispatch.kernel.sched.levels l = []

/-- CPU `i` has been given its turn and has no current process. -/
structure BeginsIdle (s : Os cfg) (i : Fin cfg.numCpus) : Prop where
  check : (s.dispatch.cpu i).pc = .check
  proc : (s.dispatch.cpu i).proc = none

/-- `t` is the state in which the turn of CPU `i` that is under way in `s` ends:
every step on the way is taken while the CPU is in its body. -/
def TurnEnds (s : Os cfg) (i : Fin cfg.numCpus) (t : Os cfg) : Prop :=
  ∃ as, (system cfg).run s as = some t ∧
    (system cfg).StepsMeet (fun u _ => u.place (.cpu i) = .body) s as ∧ t.place (.cpu i) ≠ .body

/-- The turn ends with the CPU marked inactive and out of its loop. -/
def StopsThisTurn (s : Os cfg) (i : Fin cfg.numCpus) : Prop :=
  ∀ t, TurnEnds s i t → t.cpuActive i = false ∧ (t.dispatch.cpu i).pc = .detach

/-- Where a CPU without a process is while it takes its turns in vain. -/
def CpuPc.vain {P : Type*} : CpuPc P → Bool
  | .waitTurn => true
  | .check => true
  | .get .load => true
  | .signal false => true
  | .slotDone => true
  | .slotWait => true
  | _ => false

/-- A CPU without a process finds none in empty queues, and goes on to the next slot. -/
theorem cpuStep_vain {k k' : Kernel cfg} {c c' : Cpu cfg.Proc} (vain : CpuPc.vain c.pc = true)
    (proc : c.proc = none) (empty : ∀ l, k.sched.levels l = [])
    (step : cpuStep k c = some (k', c')) :
    CpuPc.vain c'.pc = true ∧ c'.proc = none ∧ (∀ l, k'.sched.levels l = []) ∧
      k'.done = k.done ∧ (c.pc.place = .body → c'.pc.place = .body ∨ c'.pc = .slotDone) := by
  obtain ⟨pc, proc', timeLeft⟩ := c
  dsimp only at proc
  subst proc
  have done := (cpuStep_loader step).2
  cases pc with
  | get site =>
      cases site with
      | load =>
          obtain ⟨s, ret, _, same, _⟩ | ⟨l, p, rest, s, ret, low, _⟩ | ⟨s, again, _, _, same, _⟩ :=
            k.sched.getMlqSection_cases
          · simp only [cpuStep, ret, Option.some.injEq, Prod.mk.injEq] at step
            obtain ⟨rfl, rfl⟩ := step
            exact ⟨rfl, rfl, same ▸ empty, rfl, fun _ => .inl rfl⟩
          · exact absurd (empty l) low.1
          · simp only [cpuStep, again, Option.some.injEq, Prod.mk.injEq] at step
            obtain ⟨rfl, rfl⟩ := step
            exact ⟨rfl, rfl, same ▸ empty, rfl, fun _ => .inl rfl⟩
      | _ => cases vain
  | signal ran =>
      cases ran with
      | false =>
          cases step
          exact ⟨rfl, rfl, empty, rfl, fun _ => .inr rfl⟩
      | true => cases vain
  | waitTurn =>
      cases step
      exact ⟨rfl, rfl, empty, rfl, fun _ => .inl rfl⟩
  | check =>
      cases step
      exact ⟨rfl, rfl, empty, rfl, fun _ => .inl rfl⟩
  | slotDone =>
      cases step
      exact ⟨rfl, rfl, empty, rfl, by simp [CpuPc.place]⟩
  | slotWait =>
      cases step
      exact ⟨rfl, rfl, empty, rfl, by simp [CpuPc.place]⟩
  | _ => cases vain

/-- Outside its body a CPU does not touch the kernel. -/
theorem cpuStep_outside {k k' : Kernel cfg} {c c' : Cpu cfg.Proc} (outside : c.pc.place ≠ .body)
    (step : cpuStep k c = some (k', c')) : k' = k := by
  obtain ⟨pc, proc, timeLeft⟩ := c
  cases pc with
  | exited => cases step
  | waitTurn => cases step; rfl
  | slotDone => cases step; rfl
  | slotWait => cases step; rfl
  | detach => cases step; rfl
  | _ => exact absurd rfl outside

/-- While CPU `i` is in its body and the loader is done, no other thread touches
the kernel or the CPU. -/
theorem step_other {s t : Os cfg} {a : Action cfg} {i : Fin cfg.numCpus} (inv : s.Inv)
    (loading : Loading s) (done : s.dispatch.kernel.done = true)
    (inside : s.place (.cpu i) = .body) (step : (system cfg).step s a = some t)
    (other : ∀ j, a = .cpu j → j ≠ i) :
    t.dispatch.kernel = s.dispatch.kernel ∧ t.dispatch.cpu i = s.dispatch.cpu i := by
  cases a with
  | cpu j =>
      obtain ⟨_, k, c, ran, rfl⟩ := stepCpu_eq_some.mp step
      have apart : j ≠ i := other j rfl
      have outside : (s.dispatch.cpu j).pc.place ≠ .body := by
        intro body
        have same := inv.inside_unique (d := .cpu j) (e := .cpu i)
          ((s.stage_inside_iff _).mpr body) ((s.stage_inside_iff _).mpr inside)
        cases same
        exact apart rfl
      exact ⟨cpuStep_outside outside ran, s.dispatch.setCpu_cpu_of_ne k c apart.symm⟩
  | ld =>
      change s.stepLd = some t at step
      have late := loading.done done
      simp only [place] at late
      unfold stepLd at step
      cases pc : s.ld with
      | detach =>
          simp only [pc, Option.some.injEq] at step
          subst step
          exact ⟨rfl, rfl⟩
      | exited => simp [pc] at step
      | _ => simp [pc, LdPc.place] at late
  | timer =>
      obtain ⟨dispatch, -⟩ := stepTimer_frame step
      rw [dispatch]
      exact ⟨rfl, rfl⟩
  | main =>
      obtain ⟨pc, stop, rfl⟩ := stepMain_frame step
      exact ⟨rfl, rfl⟩

/-- A turn that CPU `i` took up in vain, up to its end. -/
structure InVain (s : Os cfg) (i : Fin cfg.numCpus) : Prop where
  inv : s.Inv
  loading : Loading s
  finished : s.WorkOver
  vain : CpuPc.vain (s.dispatch.cpu i).pc = true
  proc : (s.dispatch.cpu i).proc = none
  ended : s.place (.cpu i) ≠ .body → (s.dispatch.cpu i).pc = .slotDone

theorem InVain.step {s t : Os cfg} {a : Action cfg} {i : Fin cfg.numCpus}
    (few : cfg.numCpus ≤ 64) (turn : InVain s i) (inside : s.place (.cpu i) = .body)
    (step : (system cfg).step s a = some t) : InVain t i := by
  have inv := turn.inv.step few step
  have loading := (turn.loading.step step).1
  by_cases own : a = .cpu i
  · subst own
    obtain ⟨_, k, c, ran, rfl⟩ := stepCpu_eq_some.mp step
    obtain ⟨vain, proc, empty, done, ends⟩ := cpuStep_vain turn.vain turn.proc turn.finished.empty ran
    refine ⟨inv, loading, ⟨?_, empty⟩, ?_, ?_, ?_⟩
    · exact done.trans turn.finished.done
    · simpa only [Dispatch.setCpu_cpu_self] using vain
    · simpa only [Dispatch.setCpu_cpu_self] using proc
    · simp only [place, Dispatch.setCpu_cpu_self]
      intro outside
      exact (ends inside).resolve_left outside
  · have other : ∀ j, a = .cpu j → j ≠ i := by
      rintro j rfl rfl
      exact own rfl
    obtain ⟨kernel, cpu⟩ := step_other turn.inv turn.loading turn.finished.done inside step other
    refine ⟨inv, loading, ⟨?_, ?_⟩, ?_, ?_, ?_⟩
    · rw [kernel]
      exact turn.finished.done
    · rw [kernel]
      exact turn.finished.empty
    · rw [cpu]
      exact turn.vain
    · rw [cpu]
      exact turn.proc
    · simp only [place, cpu]
      exact turn.ended

/-- Such a turn ends with the CPU active and on its way to the next slot. -/
theorem InVain.turnEnds {s t : Os cfg} {i : Fin cfg.numCpus} (few : cfg.numCpus ≤ 64)
    (turn : InVain s i) (ends : TurnEnds s i t) :
    t.cpuActive i = true ∧ (t.dispatch.cpu i).pc = .slotDone := by
  obtain ⟨as, run, inside, outside⟩ := ends
  have last : InVain t i := TransitionSystem.run_of_stepsMeet (P := fun s => InVain s i)
    (fun _ _ _ turn inside step => turn.step few inside step) turn inside run
  have pc := last.ended outside
  refine ⟨?_, pc⟩
  by_contra inactive
  have stopping := (last.inv.active i).mp (Bool.not_eq_true _ ▸ inactive)
  rw [pc] at stopping
  cases stopping

/-- In its body CPU `i` can take a step, and the turn stays one in vain. -/
theorem InVain.exists_step {s : Os cfg} {i : Fin cfg.numCpus} (few : cfg.numCpus ≤ 64)
    (turn : InVain s i) (inside : s.place (.cpu i) = .body) :
    ∃ t k c, (system cfg).step s (.cpu i) = some t ∧
      cpuStep s.dispatch.kernel (s.dispatch.cpu i) = some (k, c) ∧ InVain t i ∧
        t.dispatch.cpu i = c ∧ t.dispatch.kernel = k := by
  have ready : s.cpuReady i = true := by
    simp only [place] at inside
    unfold cpuReady
    cases pc : (s.dispatch.cpu i).pc <;> simp_all [CpuPc.place]
  cases ran : cpuStep s.dispatch.kernel (s.dispatch.cpu i) with
  | none =>
      simp only [place, cpuStep_eq_none.mp ran] at inside
      cases inside
  | some out =>
      obtain ⟨k, c⟩ := out
      have step : (system cfg).step s (.cpu i) = some { s.cpuSync i with
          dispatch := s.dispatch.setCpu i k c } := stepCpu_eq_some.mpr ⟨ready, k, c, ran, rfl⟩
      exact ⟨_, k, c, step, rfl, turn.step few inside step, s.dispatch.setCpu_cpu_self i k c, rfl⟩

/-- A step inside the body is a first step of the turn. -/
theorem TurnEnds.cons {s t u : Os cfg} {i : Fin cfg.numCpus} {a : Action cfg}
    (inside : s.place (.cpu i) = .body) (step : (system cfg).step s a = some t)
    (ends : TurnEnds t i u) : TurnEnds s i u := by
  obtain ⟨as, run, body, outside⟩ := ends
  refine ⟨a :: as, ?_, ⟨inside, ?_⟩, outside⟩
  · rw [TransitionSystem.run_cons, step]
    exact run
  · intro w moved
    rw [step] at moved
    cases moved
    exact body

theorem InVain.turnEnds_signal {s : Os cfg} {i : Fin cfg.numCpus} (few : cfg.numCpus ≤ 64)
    (turn : InVain s i) (pc : (s.dispatch.cpu i).pc = .signal false) : ∃ t, TurnEnds s i t := by
  have inside : s.place (.cpu i) = .body := by simp only [place, pc]; rfl
  obtain ⟨t, k, c, step, ran, _, cpu, _⟩ := turn.exists_step few inside
  simp only [cpuStep, pc, Option.some.injEq, Prod.mk.injEq] at ran
  refine ⟨t, TurnEnds.cons inside step ⟨[], rfl, trivial, ?_⟩⟩
  simp [place, cpu, ← ran.2, CpuPc.place]

/-- `get_proc` returns NULL, after a second critical section if the slots of the
current level are not spent. -/
theorem InVain.turnEnds_get {s : Os cfg} {i : Fin cfg.numCpus} (few : cfg.numCpus ≤ 64)
    (turn : InVain s i) (pc : (s.dispatch.cpu i).pc = .get .load) : ∃ t, TurnEnds s i t := by
  have returns : ∀ {u v : Os cfg} {k : Kernel cfg} {c : Cpu cfg.Proc},
      (u.dispatch.cpu i).pc = .get .load → (system cfg).step u (.cpu i) = some v →
        InVain v i → v.dispatch.cpu i = c → c.pc = .signal false → ∃ t, TurnEnds u i t := by
    intro u v k c at_get step later cpu signal
    have inside : u.place (.cpu i) = .body := by simp only [place, at_get]; rfl
    obtain ⟨t, ends⟩ := later.turnEnds_signal few (by rw [cpu, signal])
    exact ⟨t, TurnEnds.cons inside step ends⟩
  have inside : s.place (.cpu i) = .body := by simp only [place, pc]; rfl
  obtain ⟨t, k, c, step, ran, later, cpu, kernel⟩ := turn.exists_step few inside
  obtain ⟨r, ret, _⟩ | ⟨l, p, rest, r, ret, low, _⟩ | ⟨r, again, _, zero, _⟩ :=
    s.dispatch.kernel.sched.getMlqSection_cases
  · simp only [cpuStep, pc, ret, Option.some.injEq, Prod.mk.injEq] at ran
    exact returns (k := k) pc step later cpu (by rw [← ran.2]; rfl)
  · exact absurd (turn.finished.empty l) low.1
  · simp only [cpuStep, pc, again, Option.some.injEq, Prod.mk.injEq] at ran
    have still : (t.dispatch.cpu i).pc = .get .load := by
      rw [cpu, ← ran.2]
      exact pc
    have spent : t.dispatch.kernel.sched.currSlot = 0 := by
      rw [kernel, ← ran.1]
      exact zero
    have inside' : t.place (.cpu i) = .body := by simp only [place, still]; rfl
    obtain ⟨u, k', c', step', ran', later', cpu', _⟩ := later.exists_step few inside'
    obtain ⟨r', ret', _⟩ | ⟨l, p, rest, r', _, low, _⟩ | ⟨r', _, unspent, _⟩ :=
      t.dispatch.kernel.sched.getMlqSection_cases
    · simp only [cpuStep, still, ret', Option.some.injEq, Prod.mk.injEq] at ran'
      obtain ⟨v, ends⟩ := returns (k := k') still step' later' cpu' (by rw [← ran'.2]; rfl)
      exact ⟨v, TurnEnds.cons inside step ends⟩
    · exact absurd (later.finished.empty l) low.1
    · exact absurd spent unspent

/-- A turn in vain does end. -/
theorem InVain.exists_turnEnds {s : Os cfg} {i : Fin cfg.numCpus} (few : cfg.numCpus ≤ 64)
    (turn : InVain s i) (check : (s.dispatch.cpu i).pc = .check) : ∃ t, TurnEnds s i t := by
  have inside : s.place (.cpu i) = .body := by simp only [place, check]; rfl
  obtain ⟨t, k, c, step, ran, later, cpu, _⟩ := turn.exists_step few inside
  simp only [cpuStep, check, turn.proc, Option.some.injEq, Prod.mk.injEq] at ran
  obtain ⟨u, ends⟩ := later.turnEnds_get few (by rw [cpu, ← ran.2])
  exact ⟨u, TurnEnds.cons inside step ends⟩

theorem inVain_of_beginsIdle {s : Os cfg} {i : Fin cfg.numCpus} (few : cfg.numCpus ≤ 64)
    (reachable : (system cfg).Reachable s) (finished : s.WorkOver) (idle : s.BeginsIdle i) :
    InVain s i where
  inv := inv_of_reachable few reachable
  loading := (dispatch_reachable reachable).2
  finished := finished
  vain := by rw [idle.check]; rfl
  proc := idle.proc
  ended := by
    intro outside
    simp [place, idle.check, CpuPc.place] at outside

/-- Nothing is left to run, and CPU `i` takes its turns in vain. -/
structure Spinning (s : Os cfg) (i : Fin cfg.numCpus) : Prop where
  finished : s.WorkOver
  loading : Loading s
  idle : ∀ j, (s.dispatch.cpu j).proc = none
  vain : CpuPc.vain (s.dispatch.cpu i).pc = true

/-- A CPU without a process leaves empty queues empty. -/
theorem cpuStep_idle {k k' : Kernel cfg} {c c' : Cpu cfg.Proc} (proc : c.proc = none)
    (empty : ∀ l, k.sched.levels l = []) (step : cpuStep k c = some (k', c')) :
    c'.proc = none ∧ ∀ l, k'.sched.levels l = [] := by
  obtain ⟨pc, proc', timeLeft⟩ := c
  dsimp only at proc
  subst proc
  cases pc with
  | get site =>
      obtain ⟨s, ret, _, same, _⟩ | ⟨l, p, rest, s, ret, low, _⟩ | ⟨s, again, _, _, same, _⟩ :=
        k.sched.getMlqSection_cases
      · simp only [cpuStep, ret, Option.some.injEq, Prod.mk.injEq] at step
        obtain ⟨rfl, rfl⟩ := step
        exact ⟨rfl, same ▸ empty⟩
      · exact absurd (empty l) low.1
      · simp only [cpuStep, again, Option.some.injEq, Prod.mk.injEq] at step
        obtain ⟨rfl, rfl⟩ := step
        exact ⟨rfl, same ▸ empty⟩
  | exited => cases step
  | _ =>
      cases step
      exact ⟨rfl, empty⟩

theorem Spinning.step {s t : Os cfg} {a : Action cfg} {i : Fin cfg.numCpus}
    (spinning : Spinning s i) (step : (system cfg).step s a = some t) : Spinning t i := by
  have loading := (spinning.loading.step step).1
  cases a with
  | cpu j =>
      obtain ⟨_, k, c, ran, rfl⟩ := stepCpu_eq_some.mp step
      obtain ⟨proc, empty⟩ := cpuStep_idle (spinning.idle j) spinning.finished.empty ran
      refine ⟨⟨(cpuStep_loader ran).2.trans spinning.finished.done, empty⟩, loading, ?_, ?_⟩
      · intro l
        by_cases same : l = j
        · subst same
          simpa only [Dispatch.setCpu_cpu_self] using proc
        · simpa only [Dispatch.setCpu_cpu_of_ne _ _ _ same] using spinning.idle l
      · by_cases same : i = j
        · subst same
          have vain := (cpuStep_vain spinning.vain (spinning.idle i) spinning.finished.empty ran).1
          simpa only [Dispatch.setCpu_cpu_self] using vain
        · simpa only [Dispatch.setCpu_cpu_of_ne _ _ _ same] using spinning.vain
  | ld =>
      change s.stepLd = some t at step
      have late := spinning.loading.done spinning.finished.done
      simp only [place] at late
      unfold stepLd at step
      cases pc : s.ld with
      | detach =>
          simp only [pc, Option.some.injEq] at step
          subst step
          exact ⟨⟨spinning.finished.done, spinning.finished.empty⟩, loading, spinning.idle, spinning.vain⟩
      | exited => simp [pc] at step
      | _ => simp [pc, LdPc.place] at late
  | timer =>
      have same := (stepTimer_frame step).1
      exact ⟨⟨same ▸ spinning.finished.done, same ▸ spinning.finished.empty⟩, loading,
        same ▸ spinning.idle, same ▸ spinning.vain⟩
  | main =>
      obtain ⟨pc, stop, rfl⟩ := stepMain_frame step
      exact ⟨⟨spinning.finished.done, spinning.finished.empty⟩, loading, spinning.idle,
        spinning.vain⟩

/-- Once nothing is left to run, a CPU that takes its turns in vain does so along
every run, and no run comes to an end. -/
theorem Spinning.forever {s t : Os cfg} {as : List (Action cfg)} {i : Fin cfg.numCpus}
    (few : cfg.numCpus ≤ 64) (spinning : Spinning s i) (reachable : (system cfg).Reachable s)
    (run : (system cfg).run s as = some t) :
    Spinning t i ∧ ∃ a u, (system cfg).step t a = some u := by
  have still : Spinning t i := TransitionSystem.run_preserves (P := fun s => Spinning s i)
    (fun _ _ _ spinning step => spinning.step step) run spinning
  refine ⟨still, progress (inv_of_reachable few (reachable.run run)) ?_⟩
  intro finished
  have vain := still.vain
  rw [finished.cpus i] at vain
  cases vain

/-- One CPU and nothing to do. -/
def noProcess : Config where
  timeSlot := 1
  numCpus := 1
  numProcesses := 0
  startTime := fun _ => 0
  prio := fun _ => 0
  size := fun _ => 0

/-- In the first slot the CPU finds no process and the loader sets `done`; in the
second one the CPU is given its turn again. -/
def secondTurn : List (Action noProcess) :=
  List.replicate 5 (.cpu ⟨0, by decide⟩) ++ List.replicate 6 .ld ++ List.replicate 7 .timer ++
    List.replicate 2 (.cpu ⟨0, by decide⟩)

theorem secondTurn_idle : ∃ s, (system noProcess).Reachable s ∧ s.WorkOver ∧
    s.BeginsIdle ⟨0, by decide⟩ := by
  have facts : ((system noProcess).run (start noProcess) secondTurn).any (fun s =>
      s.dispatch.kernel.done && decide (∀ l, s.dispatch.kernel.sched.levels l = []) &&
        decide ((s.dispatch.cpu ⟨0, by decide⟩).pc = .check) &&
          decide ((s.dispatch.cpu ⟨0, by decide⟩).proc = none)) = true := by
    decide +kernel
  obtain ⟨s, run, idle⟩ := (Option.any_eq_true _ _).mp facts
  simp only [Bool.and_eq_true, decide_eq_true_eq] at idle
  obtain ⟨⟨⟨done, empty⟩, check⟩, proc⟩ := idle
  exact ⟨s, (TransitionSystem.Reachable.init rfl).run run, ⟨done, empty⟩, ⟨check, proc⟩⟩

/-- The CPU of a configuration without processes goes on after `done`. -/
theorem idle_cpu_goes_on : ¬ ∀ (cfg : Config) (s : Os cfg), (system cfg).Reachable s →
    s.WorkOver → ∀ i, s.BeginsIdle i → StopsThisTurn s i := by
  intro stops
  obtain ⟨s, reachable, finished, idle⟩ := secondTurn_idle
  have turn := inVain_of_beginsIdle (by decide) reachable finished idle
  obtain ⟨t, ends⟩ := turn.exists_turnEnds (by decide) idle.check
  have active := (turn.turnEnds (by decide) ends).1
  rw [(stops noProcess s reachable finished _ idle t ends).1] at active
  cases active

/-- No CPU that begins a turn without a process, once the work is over, stops in
that turn. -/
theorem idle_never_stops (cfg : Config) (few : cfg.numCpus ≤ 64) (s : Os cfg)
    (reachable : (system cfg).Reachable s) (finished : s.WorkOver) (i : Fin cfg.numCpus)
    (idle : s.BeginsIdle i) : ¬ StopsThisTurn s i := by
  intro stops
  have turn := inVain_of_beginsIdle few reachable finished idle
  obtain ⟨t, ends⟩ := turn.exists_turnEnds few idle.check
  have active := (turn.turnEnds few ends).1
  rw [(stops t ends).1] at active
  cases active

theorem idle_never_stops_noProcess : ∃ s, (system noProcess).Reachable s ∧
    ¬ StopsThisTurn s ⟨0, by decide⟩ := by
  obtain ⟨s, reachable, finished, idle⟩ := secondTurn_idle
  exact ⟨s, reachable, idle_never_stops noProcess (by decide) s reachable finished _ idle⟩

end Os
end SimpleOs
