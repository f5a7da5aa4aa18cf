import SimpleOs.Os.Arrival
import SimpleOs.Sched.Indices

/-!
# Configuration values as indices

The number of CPUs and the priorities go from the configuration file into indices of
`_cpu_active` and `mlq_ready_queue`. `init_cpu_order`, `mark_cpu_inactive` and
`count_active_participants` test the bound of `_cpu_active`; the searches of
`signal_next_cpu` and `reset_cpu_order` do not, and no function tests a priority.

`accesses` lists the indices that a step uses, and `bounded` is the program up to its
first index out of bounds. It has none exactly when the file stays within the arrays:
every other number of CPUs shows up in the first time slot, and every other priority
when the loader adds its process.
-/

namespace SimpleOs

/-- What `read_config` reads. The priorities and start times are `unsigned long`s. -/
structure ConfigFile where
  timeSlot : Int
  numCpus : Nat
  numProcesses : Nat
  startTime : Fin numProcesses → BitVec 64
  prio : Fin numProcesses → BitVec 64
  size : Fin numProcesses → Nat

/-- `proc->prio = ld_processes.prio[i]`, where `prio` is a `uint32_t`. -/
def ConfigFile.storedPrio (f : ConfigFile) (p : Fin f.numProcesses) : BitVec 32 :=
  (f.prio p).setWidth 32

/-- The program started with this file. A priority that is no level is given one here,
which nothing depends on: a step that uses it leaves the bounds. -/
def ConfigFile.config (f : ConfigFile) : Config where
  timeSlot := f.timeSlot
  numCpus := f.numCpus
  numProcesses := f.numProcesses
  startTime := fun p => (f.startTime p).toNat
  prio := fun p => Fin.ofNat maxPrio (f.storedPrio p).toNat
  size := f.size

/-! ## The indices of `timer.c` -/

/-- The entries that a search reads which starts below `count`. -/
def scanned (active : Nat → Bool) : (count : Nat) → List Access
  | 0 => []
  | i + 1 => .cpuActive i :: if active i then [] else scanned active i

/-- `init_cpu_order(num_cpus)`. -/
def initAccesses (numCpus : Nat) : List Access :=
  (List.range (min numCpus cpuActiveLen)).map fun i : Nat => .cpuActive i

/-- `count_active_participants()`. -/
def countAccesses (numCpus : Nat) : List Access :=
  (List.range (min numCpus cpuActiveLen)).map fun i : Nat => .cpuActive i

/-- `mark_cpu_inactive(cpu_id)`. -/
def markAccesses (cpuId : Nat) : List Access :=
  if cpuId < cpuActiveLen then [.cpuActive cpuId] else []

/-- `find_highest_active_cpu()`. -/
def highestAccesses (active : Nat → Bool) (numCpus : Nat) : List Access := scanned active numCpus

/-- `signal_next_cpu(cpu_id)`. -/
def signalAccesses (active : Nat → Bool) (numCpus : Nat) (cpuId : Int) : List Access :=
  if cpuId = -1 then highestAccesses active numCpus
  else if cpuId = 0 then []
  else scanned active (cpuId - 1 + 1).toNat

theorem scanned_inBounds {active : Nat → Bool} {count : Nat} (few : count ≤ cpuActiveLen) :
    ∀ x ∈ scanned active count, x.InBounds := by
  induction count with
  | zero => simp [scanned]
  | succ i ih =>
      have here : (Access.cpuActive i).InBounds := ⟨by omega, by omega⟩
      refine List.forall_mem_cons.mpr ⟨here, ?_⟩
      split
      · simp
      · exact ih (Nat.le_of_succ_le few)

theorem guarded_inBounds (numCpus : Nat) :
    ∀ x ∈ (List.range (min numCpus cpuActiveLen)).map fun i : Nat => Access.cpuActive i,
      x.InBounds := by
  intro x member
  obtain ⟨i, inside, rfl⟩ := List.mem_map.mp member
  have below := List.mem_range.mp inside
  exact ⟨by omega, by omega⟩

theorem markAccesses_inBounds (cpuId : Nat) : ∀ x ∈ markAccesses cpuId, x.InBounds := by
  unfold markAccesses
  split
  · rename_i inside
    have here : (Access.cpuActive cpuId).InBounds := ⟨by omega, by omega⟩
    simpa using here
  · simp

theorem signalAccesses_inBounds {active : Nat → Bool} {numCpus : Nat} {cpuId : Int}
    (few : numCpus ≤ cpuActiveLen) (known : cpuId < numCpus) :
    ∀ x ∈ signalAccesses active numCpus cpuId, x.InBounds := by
  unfold signalAccesses
  split
  · exact scanned_inBounds few
  · split
    · simp
    · exact scanned_inBounds (by omega)

namespace Os

/-- The indices that the next step of a thread uses. -/
def accesses (f : ConfigFile) (s : Os f.config) : Action f.config → List Access
  | .cpu i =>
    match (s.dispatch.cpu i).pc with
    | .check =>
      match (s.dispatch.cpu i).proc with
      | none => []
      | some p =>
        if s.dispatch.kernel.pcOf p = f.size p then []
        else if (s.dispatch.cpu i).timeLeft = 0 then [.mlqReadyQueue (f.storedPrio p).toNat]
        else []
    | .get _ =>
      (s.dispatch.kernel.sched.getLogged (s.dispatch.kernel.sched.currPrio : Nat)
        s.dispatch.kernel.sched.currSlot).1
    | .signal _ => signalAccesses s.cpuActive f.numCpus (i : Nat)
    | .markInactive => markAccesses i
    | .signalStop => signalAccesses s.cpuActive f.numCpus (i : Nat)
    | _ => []
  | .ld =>
    match s.ld with
    | .startSignal => signalAccesses s.cpuActive f.numCpus (-1)
    | .innerSignal _ => signalAccesses s.cpuActive f.numCpus (-1)
    | .addProc p => [.mlqReadyQueue (f.storedPrio p).toNat]
    | .addSignal => signalAccesses s.cpuActive f.numCpus (-1)
    | .finalSignal => signalAccesses s.cpuActive f.numCpus (-1)
    | _ => []
  | .timer =>
    match s.timer with
    | .reset _ => highestAccesses s.cpuActive f.numCpus
    | _ => []
  | .main => []

/-- The program up to its first index out of bounds. -/
def bounded (f : ConfigFile) : TransitionSystem (Os f.config) (Action f.config) where
  init s := s = start f.config
  step s a :=
    if ∀ x ∈ accesses f s a, x.InBounds then (system f.config).step s a else none

/-- Every index used is one of its array. -/
structure StaysInBounds (f : ConfigFile) : Prop where
  init : ∀ x ∈ initAccesses f.numCpus, x.InBounds
  count : ∀ x ∈ countAccesses f.numCpus, x.InBounds
  run : ∀ s a, (bounded f).Reachable s → ((system f.config).step s a).isSome = true →
    ∀ x ∈ accesses f s a, x.InBounds

variable {f : ConfigFile}

/-- With few CPUs and proper priorities no step of any state leaves the arrays. -/
theorem accesses_inBounds (few : f.numCpus ≤ cpuActiveLen)
    (levels : ∀ p, (f.storedPrio p).toNat < maxPrio) (s : Os f.config) (a : Action f.config) :
    ∀ x ∈ accesses f s a, x.InBounds := by
  have queue : ∀ p, (Access.mlqReadyQueue (f.storedPrio p).toNat).InBounds := fun p =>
    ⟨by omega, by have := levels p; omega⟩
  have signal : ∀ cpuId : Int, cpuId < f.numCpus →
      ∀ x ∈ signalAccesses s.cpuActive f.numCpus cpuId, x.InBounds := fun _ known =>
    signalAccesses_inBounds few known
  cases a with
  | cpu i =>
      have known : ((i : Nat) : Int) < f.numCpus := by
        have := i.isLt
        simp only [ConfigFile.config] at this
        omega
      simp only [accesses]
      split
      · split
        · simp
        · rename_i p _
          split
          · simp
          · split
            · simpa using queue p
            · simp
      · exact Sched.getLogged_inBounds _
      · exact signal _ known
      · exact markAccesses_inBounds _
      · exact signal _ known
      · simp
  | ld =>
      have loader := signal (-1) (by omega)
      simp only [accesses]
      split
      · exact loader
      · exact loader
      · rename_i p _
        simpa using queue p
      · exact loader
      · exact loader
      · simp
  | timer =>
      simp only [accesses]
      split
      · exact scanned_inBounds few
      · simp
  | main => simp [accesses]

/-! ## What stays in bounds -/

/-- A program that stays in bounds is never cut short. -/
theorem StaysInBounds.reachable (stays : StaysInBounds f) {s : Os f.config}
    (reached : (system f.config).Reachable s) : (bounded f).Reachable s := by
  induction reached with
  | init begin => exact .init begin
  | @step s t a _ step ih =>
      have inside := stays.run s a ih (by rw [step]; rfl)
      exact ih.step ((if_pos inside).trans step)

theorem StaysInBounds.access (stays : StaysInBounds f) {s t : Os f.config} {a : Action f.config}
    (reached : (system f.config).Reachable s) (step : (system f.config).step s a = some t)
    {x : Access} (member : x ∈ accesses f s a) : x.InBounds :=
  stays.run s a (stays.reachable reached) (by rw [step]; rfl) x member

section FirstSlot

variable {cfg : Config}

/-- The first time slot, in the turn of CPU `i`: it stands at `c`, and the CPUs below it
and the loader have yet to begin. -/
structure FirstTurn (s : Os cfg) (i : Fin cfg.numCpus) (c : Cpu cfg.Proc) : Prop where
  reachable : (system cfg).Reachable s
  turn : s.currentCpuTurn = (i : Nat)
  here : s.dispatch.cpu i = c
  lower : ∀ j, j < i → s.dispatch.cpu j = Cpu.start cfg.Proc
  ld : s.ld = .startWait
  sched : s.dispatch.kernel.sched = Sched.boot
  active : s.cpuActive = (start cfg).cpuActive

/-- A step of the CPU that leaves the data of `timer.c` alone. -/
theorem FirstTurn.step {s : Os cfg} {i : Fin cfg.numCpus} {c c' : Cpu cfg.Proc} {k : Kernel cfg}
    (first : FirstTurn s i c) (quiet : s.cpuSync i = s) (awake : c.pc ≠ .slotWait)
    (ran : cpuStep s.dispatch.kernel c = some (k, c')) (sched : k.sched = Sched.boot) :
    ∃ t, FirstTurn t i c' := by
  have ready : s.cpuReady i = true := by
    unfold cpuReady
    rw [first.here]
    split
    · exact decide_eq_true first.turn
    · exact absurd ‹_› awake
    · rfl
  have step : (system cfg).step s (.cpu i) = some { s with dispatch := s.dispatch.setCpu i k c' } :=
    stepCpu_eq_some.mpr ⟨ready, k, c', first.here ▸ ran, by rw [quiet]⟩
  refine ⟨_, first.reachable.step step, first.turn, s.dispatch.setCpu_cpu_self i k c', ?_,
    first.ld, sched, first.active⟩
  intro j below
  exact (s.dispatch.setCpu_cpu_of_ne k c' below.ne).trans (first.lower j below)

/-- The CPU finds no process, and is about to pass the turn on. -/
theorem FirstTurn.signals {s : Os cfg} {i : Fin cfg.numCpus}
    (first : FirstTurn s i (Cpu.start cfg.Proc)) :
    ∃ t, FirstTurn t i { pc := .signal false, proc := none, timeLeft := 0 } := by
  obtain ⟨t, check⟩ := first.step (by simp only [cpuSync, first.here]; rfl) (by simp [Cpu.start])
    rfl first.sched
  obtain ⟨u, get⟩ := check.step (by simp only [cpuSync, check.here]) (by simp) rfl check.sched
  have ran : cpuStep u.dispatch.kernel { pc := .get .load, proc := none, timeLeft := 0 } =
      some ({ u.dispatch.kernel with sched := Sched.boot },
        { pc := .signal false, proc := none, timeLeft := 0 }) := by
    simp only [cpuStep, get.sched, Sched.getMlqSection_boot]
    rfl
  exact get.step (by simp only [cpuSync, get.here]) (by simp) ran rfl

/-- The turn goes from one CPU to the next. -/
theorem FirstTurn.passes {s : Os cfg} {i : Fin cfg.numCpus}
    (first : FirstTurn s i { pc := .signal false, proc := none, timeLeft := 0 }) :
    ∃ t, (system cfg).step s (.cpu i) = some t ∧
      t.currentCpuTurn = scanActive (start cfg).cpuActive i ∧
      (∀ j, j < i → t.dispatch.cpu j = Cpu.start cfg.Proc) ∧ t.ld = .startWait ∧
      t.dispatch.kernel.sched = Sched.boot ∧ t.cpuActive = (start cfg).cpuActive := by
  have ready : s.cpuReady i = true := by simp only [cpuReady, first.here]
  have sync : s.cpuSync i = s.signalNextCpu (i : Nat) := by simp only [cpuSync, first.here]
  refine ⟨_, stepCpu_eq_some.mpr ⟨ready, _, _, by rw [first.here]; rfl, rfl⟩, ?_, ?_, ?_, ?_, ?_⟩
  · simp only [sync, signalNextCpu, nextTurn_cpu, first.active]
  · intro j below
    exact (s.dispatch.setCpu_cpu_of_ne _ _ below.ne).trans (first.lower j below)
  · simp only [sync, signalNextCpu]
    exact first.ld
  · exact first.sched
  · simp only [sync, signalNextCpu]
    exact first.active

end FirstSlot

/-- In the first time slot the turn reaches every CPU. -/
theorem StaysInBounds.firstTurn (stays : StaysInBounds f) (above : Nat) :
    ∀ i : Fin f.config.numCpus, i + above + 1 = f.config.numCpus →
      ∃ s, FirstTurn s i (Cpu.start f.config.Proc) := by
  induction above with
  | zero =>
      intro i highest
      refine ⟨start f.config, .init rfl, ?_, rfl, fun _ _ => rfl, rfl, rfl, rfl⟩
      change (f.config.numCpus : Int) - 1 = (i : Nat)
      omega
  | succ above ih =>
      intro i distance
      let next : Fin f.config.numCpus := ⟨i + 1, by omega⟩
      obtain ⟨s, first⟩ := ih next (by change i.val + 1 + above + 1 = _; omega)
      obtain ⟨t, signals⟩ := first.signals
      obtain ⟨u, step, turn, lower, ld, sched, active⟩ := signals.passes
      -- the search reads the entry of CPU `i` first
      have reads : Access.cpuActive (i : Nat) ∈ accesses f t (.cpu next) := by
        have below : (((next : Nat) : Int) - 1 + 1).toNat = i + 1 := by
          change (((i + 1 : Nat) : Int) - 1 + 1).toNat = i + 1
          omega
        have notLoader : ((next : Nat) : Int) ≠ -1 := by omega
        have notLast : ((next : Nat) : Int) ≠ 0 := by
          change ((i + 1 : Nat) : Int) ≠ 0
          omega
        simp only [accesses, signals.here, signalAccesses, if_neg notLoader, if_neg notLast, below]
        exact List.mem_cons_self
      have inside := stays.access signals.reachable step reads
      have found : (start f.config).cpuActive i = true := by
        have few : i.val < 64 := by
          have bound : ((i : Nat) : Int) < cpuActiveLen := inside.2
          simp only [cpuActiveLen] at bound
          omega
        simp [start, few]
      have passed : scanActive (start f.config).cpuActive next = (i : Nat) := by
        change scanActive (start f.config).cpuActive (i + 1) = _
        simp [scanActive, found]
      have before : i < next := Nat.lt_succ_self i
      exact ⟨u, signals.reachable.step step, turn.trans passed, lower i before,
        fun j below => lower j (below.trans before), ld, sched, active⟩

/-- With more CPUs than entries the first signal of the loader, if not one before it,
leaves `_cpu_active`. -/
theorem StaysInBounds.few (stays : StaysInBounds f) : f.numCpus ≤ cpuActiveLen := by
  cases count : f.numCpus with
  | zero => exact Nat.zero_le _
  | succ n =>
      have total : f.config.numCpus = n + 1 := count
      let last : Fin f.config.numCpus := ⟨0, by omega⟩
      obtain ⟨s, first⟩ := stays.firstTurn n last (by change 0 + n + 1 = _; omega)
      obtain ⟨t, signals⟩ := first.signals
      obtain ⟨u, step, turn, _, ld, _⟩ := signals.passes
      have wakes : (system f.config).step u .ld = some (u.goLd .startSignal) := by
        have reached : u.currentCpuTurn = -1 := turn
        change u.stepLd = _
        simp only [stepLd, ld, if_pos reached]
      have reads : Access.cpuActive n ∈ accesses f (u.goLd .startSignal) .ld := by
        simp only [accesses, goLd, signalAccesses, if_true, highestAccesses, count]
        exact List.mem_cons_self
      have reachable := (signals.reachable.step step).step wakes
      have inside := stays.access reachable rfl reads
      have bound : (n : Int) < cpuActiveLen := inside.2
      omega

/-- The loader comes to every process, and uses its priority as a level. -/
theorem StaysInBounds.level (stays : StaysInBounds f) (p : Fin f.numProcesses) :
    (f.storedPrio p).toNat < maxPrio := by
  have few : f.config.numCpus ≤ 64 := stays.few
  obtain ⟨as, s, run, last⟩ := (system f.config).exists_run (start f.config) (arrivalSteps f.config)
  have all := all_loaded few run last
  have calls := (logged_of_run few run).calls
  rw [List.take_of_length_le (by simpa [Config.arrivals] using all)] at calls
  have called : (f.config.arrival p, p) ∈
      addCalls ((system f.config).trace schedEvent (start f.config) as) := by
    rw [calls]
    exact List.mem_map.mpr ⟨p, List.mem_finRange p, rfl⟩
  obtain ⟨u, a, reachable, event⟩ :=
    (TransitionSystem.Reachable.init rfl).of_mem_trace (mem_addCalls.mp called)
  obtain ⟨rfl, at_add⟩ := addProc_of_schedEvent event
  have step : (system f.config).step u .ld =
      some ((u.setKernel (u.dispatch.kernel.addProc p)).goLd .addSignal) := by
    change u.stepLd = _
    simp only [stepLd, at_add]
  have reads : Access.mlqReadyQueue (f.storedPrio p).toNat ∈ accesses f u .ld := by
    simp [accesses, at_add]
  have inside := stays.access reachable step reads
  have bound : ((f.storedPrio p).toNat : Int) < maxPrio := inside.2
  omega

/-- Every index that the program uses on `mlq_ready_queue`, `slot` and `_cpu_active` lies
in its array if and only if there are at most 64 CPUs and every priority, as stored in a
`uint32_t`, is a level. -/
theorem staysInBounds_iff (f : ConfigFile) :
    StaysInBounds f ↔ f.numCpus ≤ cpuActiveLen ∧ ∀ p, (f.storedPrio p).toNat < maxPrio := by
  constructor
  · exact fun stays => ⟨stays.few, stays.level⟩
  · rintro ⟨few, levels⟩
    exact ⟨guarded_inBounds _, guarded_inBounds _,
      fun s a _ _ => accesses_inBounds few levels s a⟩

/-- 66 CPUs and no process. -/
def manyCpus : ConfigFile where
  timeSlot := 1
  numCpus := 66
  numProcesses := 0
  startTime := fun _ => 0
  prio := fun _ => 0
  size := fun _ => 0

/-- One CPU, and a process whose priority comes after the last level. -/
def pastLowest : ConfigFile where
  timeSlot := 1
  numCpus := 1
  numProcesses := 1
  startTime := fun _ => 0
  prio := fun _ => 140
  size := fun _ => 1

/-- A run up to a step that uses an index out of bounds. -/
theorem not_staysInBounds {s : Os f.config} {as : List (Action f.config)} {a : Action f.config}
    {x : Access} (run : (bounded f).run (start f.config) as = some s)
    (enabled : ((system f.config).step s a).isSome = true) (member : x ∈ accesses f s a)
    (outside : ¬ x.InBounds) : ¬ StaysInBounds f := fun stays =>
  outside (stays.run s a ((TransitionSystem.Reachable.init rfl).run run) enabled x member)

/-- The highest of 66 CPUs, when it passes the turn on, starts its search at
`_cpu_active[64]`; and a process of priority 140 is added to `mlq_ready_queue[140]`. -/
theorem configuration_leaves_arrays :
    (1 ≤ manyCpus.numCpus ∧ ¬ StaysInBounds manyCpus) ∧
      (1 ≤ pastLowest.numCpus ∧ ¬ StaysInBounds pastLowest) := by
  refine ⟨⟨by decide, ?_⟩, by decide, ?_⟩
  · let top : Fin manyCpus.config.numCpus := ⟨65, by decide⟩
    have reaches : ((bounded manyCpus).run (start manyCpus.config)
        (List.replicate 3 (.cpu top))).any (fun s => ((system manyCpus.config).step s (.cpu top)).isSome
          && decide (Access.cpuActive 64 ∈ accesses manyCpus s (.cpu top))) = true := by
      decide +kernel
    obtain ⟨s, run, last⟩ := (Option.any_eq_true _ _).mp reaches
    obtain ⟨enabled, member⟩ := Bool.and_eq_true_iff.mp last
    exact not_staysInBounds run enabled (of_decide_eq_true member) (by decide)
  · let only : Fin pastLowest.config.numCpus := ⟨0, by decide⟩
    have reaches : ((bounded pastLowest).run (start pastLowest.config)
        (List.replicate 4 (.cpu only) ++ List.replicate 4 .ld)).any (fun s =>
          ((system pastLowest.config).step s .ld).isSome &&
            decide (Access.mlqReadyQueue 140 ∈ accesses pastLowest s .ld)) = true := by
      decide +kernel
    obtain ⟨s, run, last⟩ := (Option.any_eq_true _ _).mp reaches
    obtain ⟨enabled, member⟩ := Bool.and_eq_true_iff.mp last
    exact not_staysInBounds run enabled (of_decide_eq_true member) (by decide)

end Os
end SimpleOs
