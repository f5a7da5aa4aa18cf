import SimpleOs.Lib.Rounds
import SimpleOs.Os.Dispatch

/-!
# The threads of the simulator

The CPU threads of `Dispatch` under the turn protocol of `timer.c`, with the
loader, the timer and `main`. A step is one critical section: a condition
variable is a wait that is enabled when its condition holds. The CPU threads
take the steps of `cpuStep`; what is added here is when a step has to wait, and
what it does to the turn and to the flags shared with the timer.
-/

namespace SimpleOs

/-- A device of the timer: the loader or a CPU. -/
inductive Dev (n : Nat) where
  | ld
  | cpu (i : Fin n)
  deriving DecidableEq

/-- The flags of `struct timer_id_t`. -/
structure TimerId where
  done : Bool
  fsh : Bool

/-- Where the loader thread stands in `ld_routine`. The argument of a wait for
the next slot is the process whose start time is waited for, or `none` after an
`add_proc`. -/
inductive LdPc (P : Type*) where
  | startWait
  | startSignal
  | loopHead
  | inner (proc : P)
  | slotDone (next : Option P)
  | slotWait (next : Option P)
  | waitTurn (next : Option P)
  | innerSignal (proc : P)
  | addProc (proc : P)
  | addSignal
  | finalSignal
  | setDone
  | detach
  | exited

/-- Where the timer thread stands in `timer_routine`: at the loop test, waiting
for the devices of `rest`, about to reset the turn, or releasing the devices of
`rest`. The second argument is `fsh`. -/
inductive TimerPc (n : Nat) where
  | head
  | check (rest : List (Dev n)) (fsh : Nat)
  | reset (fsh : Nat)
  | release (rest : List (Dev n)) (fsh : Nat)
  | exited

/-- Where `main` stands once the threads are created: joining them, and then
joining the timer. -/
inductive MainPc (n : Nat) where
  | join (rest : List (Dev n))
  | joinTimer
  | exited

/-- `dev_list`: `attach_event` puts each device in front, the CPUs in order and
the loader last. -/
def devList (n : Nat) : List (Dev n) := .ld :: (List.finRange n).reverse.map .cpu

/-- The threads `main` joins, in order. -/
def joinList (n : Nat) : List (Dev n) := (List.finRange n).map .cpu ++ [.ld]

/-- The whole program: the CPUs with the scheduler, the other threads, and the
static data of `timer.c`. -/
structure Os (cfg : Config) where
  dispatch : Dispatch cfg
  ld : LdPc cfg.Proc
  timer : TimerPc cfg.numCpus
  main : MainPc cfg.numCpus
  currentCpuTurn : Int
  cpuActive : Nat → Bool
  time : Nat
  timerStop : Bool
  dev : Dev cfg.numCpus → TimerId

/-- The loop of both searches: the highest active CPU among `0, …, count - 1`. -/
def scanActive (active : Nat → Bool) : (count : Nat) → Int
  | 0 => -1
  | i + 1 => if active i then i else scanActive active i

/-- `find_next_active_cpu(from)`. -/
def findNextActiveCpu (active : Nat → Bool) (start : Int) : Int :=
  scanActive active (start + 1).toNat

/-- `find_highest_active_cpu()`. -/
def findHighestActiveCpu (active : Nat → Bool) (numCpus : Nat) : Int :=
  scanActive active numCpus

/-- The new turn of `reset_cpu_order`. -/
def resetTurn (active : Nat → Bool) (numCpus : Nat) : Int :=
  let highest := findHighestActiveCpu active numCpus
  if highest ≥ 0 then highest else -1

/-- The new turn of `signal_next_cpu(cpu_id)`. -/
def nextTurn (active : Nat → Bool) (numCpus : Nat) (cpuId : Int) : Int :=
  if cpuId = -1 then resetTurn active numCpus
  else if cpuId = 0 then -1
  else
    let next := findNextActiveCpu active (cpuId - 1)
    if next ≥ 0 then next else -1

namespace Os

variable {cfg : Config}

/-- After `init_cpu_order`, `start_timer` and the creation of the threads. -/
def start (cfg : Config) : Os cfg where
  dispatch := Dispatch.start cfg
  ld := .startWait
  timer := .head
  main := .join (joinList cfg.numCpus)
  currentCpuTurn := (cfg.numCpus : Int) - 1
  cpuActive := fun i => decide (i < cfg.numCpus) && decide (i < 64)
  time := 0
  timerStop := false
  dev := fun _ => { done := false, fsh := false }

/-- `signal_next_cpu(cpu_id)`. -/
def signalNextCpu (s : Os cfg) (cpuId : Int) : Os cfg :=
  { s with currentCpuTurn := nextTurn s.cpuActive cfg.numCpus cpuId }

/-- `mark_cpu_inactive(cpu_id)`. -/
def markCpuInactive (s : Os cfg) (cpuId : Nat) : Os cfg :=
  { s with
    cpuActive := if cpuId < 64 then Function.update s.cpuActive cpuId false else s.cpuActive }

/-- The first half of `next_slot(timer_id)`. -/
def slotDone (s : Os cfg) (d : Dev cfg.numCpus) : Os cfg :=
  { s with dev := Function.update s.dev d { s.dev d with done := true } }

/-- `detach_event(event)`. -/
def detachEvent (s : Os cfg) (d : Dev cfg.numCpus) : Os cfg :=
  { s with dev := Function.update s.dev d { s.dev d with fsh := true } }

/-- Whether a CPU may step: `wait_cpu_turn` and the second half of `next_slot` wait. -/
def cpuReady (s : Os cfg) (i : Fin cfg.numCpus) : Bool :=
  match (s.dispatch.cpu i).pc with
  | .waitTurn => s.currentCpuTurn = (i : Nat)
  | .slotWait => !(s.dev (.cpu i)).done
  | _ => true

/-- What a step of a CPU does to the data of `timer.c`. -/
def cpuSync (s : Os cfg) (i : Fin cfg.numCpus) : Os cfg :=
  match (s.dispatch.cpu i).pc with
  | .signal _ => s.signalNextCpu (i : Nat)
  | .markInactive => s.markCpuInactive i
  | .signalStop => s.signalNextCpu (i : Nat)
  | .slotDone => s.slotDone (.cpu i)
  | .detach => s.detachEvent (.cpu i)
  | _ => s

/-- One step of a CPU thread. -/
def stepCpu (s : Os cfg) (i : Fin cfg.numCpus) : Option (Os cfg) :=
  if s.cpuReady i then
    (cpuStep s.dispatch.kernel (s.dispatch.cpu i)).map fun (k, c) =>
      { s.cpuSync i with dispatch := s.dispatch.setCpu i k c }
  else none

/-- The loader goes on at `pc`. -/
def goLd (s : Os cfg) (pc : LdPc cfg.Proc) : Os cfg := { s with ld := pc }

/-- The loader changes the kernel. -/
def setKernel (s : Os cfg) (k : Kernel cfg) : Os cfg :=
  { s with dispatch := { s.dispatch with kernel := k } }

/-- Where the loader goes on when it has its turn again. -/
def resume : Option cfg.Proc → LdPc cfg.Proc
  | none => .loopHead
  | some p => .innerSignal p

/-- One step of `ld_routine`. -/
def stepLd (s : Os cfg) : Option (Os cfg) :=
  match s.ld with
  | .startWait => if s.currentCpuTurn = -1 then some (s.goLd .startSignal) else none
  | .startSignal => some ((s.signalNextCpu (-1)).goLd .loopHead)
  | .loopHead =>
    if more : s.dispatch.kernel.loaded < cfg.numProcesses then
      some (s.goLd (.inner ⟨s.dispatch.kernel.loaded, more⟩))
    else some (s.goLd .finalSignal)
  | .inner p =>
    if s.time < cfg.startTime p then some (s.goLd (.slotDone (some p)))
    else some (s.goLd (.addProc p))
  | .slotDone next => some ((s.slotDone .ld).goLd (.slotWait next))
  | .slotWait next => if (s.dev .ld).done then none else some (s.goLd (.waitTurn next))
  | .waitTurn next => if s.currentCpuTurn = -1 then some (s.goLd (resume next)) else none
  | .innerSignal p => some ((s.signalNextCpu (-1)).goLd (.inner p))
  | .addProc p => some ((s.setKernel (s.dispatch.kernel.addProc p)).goLd .addSignal)
  | .addSignal => some ((s.signalNextCpu (-1)).goLd (.slotDone none))
  | .finalSignal => some ((s.signalNextCpu (-1)).goLd .setDone)
  | .setDone => some ((s.setKernel s.dispatch.kernel.setDone).goLd .detach)
  | .detach => some ((s.detachEvent .ld).goLd .exited)
  | .exited => none

/-- The timer goes on at `pc`. -/
def goTimer (s : Os cfg) (pc : TimerPc cfg.numCpus) : Os cfg := { s with timer := pc }

/-- `_time++`. -/
def openSlot (s : Os cfg) : Os cfg := { s with time := s.time + 1 }

/-- `reset_cpu_order()`. -/
def resetCpuOrder (s : Os cfg) : Os cfg :=
  { s with currentCpuTurn := resetTurn s.cpuActive cfg.numCpus }

/-- The timer lets a device go on: `done = 0`. -/
def releaseDev (s : Os cfg) (d : Dev cfg.numCpus) : Os cfg :=
  { s with dev := Function.update s.dev d { s.dev d with done := false } }

/-- One step of `timer_routine`. -/
def stepTimer (s : Os cfg) : Option (Os cfg) :=
  match s.timer with
  | .head => some (s.goTimer (if s.timerStop then .exited else .check (devList cfg.numCpus) 0))
  | .check (d :: rest) fsh =>
    if (s.dev d).done || (s.dev d).fsh then
      some (s.goTimer (.check rest (if (s.dev d).fsh then fsh + 1 else fsh)))
    else none
  | .check [] fsh => some (s.openSlot.goTimer (.reset fsh))
  | .reset fsh => some (s.resetCpuOrder.goTimer (.release (devList cfg.numCpus) fsh))
  | .release (d :: rest) fsh => some ((s.releaseDev d).goTimer (.release rest fsh))
  | .release [] fsh =>
    some (s.goTimer (if fsh = (devList cfg.numCpus).length then .exited else .head))
  | .exited => none

/-- The thread of a device has ended. -/
def ended (s : Os cfg) : Dev cfg.numCpus → Bool
  | .ld =>
    match s.ld with
    | .exited => true
    | _ => false
  | .cpu i =>
    match (s.dispatch.cpu i).pc with
    | .exited => true
    | _ => false

/-- One step of `main` after the threads are created. -/
def stepMain (s : Os cfg) : Option (Os cfg) :=
  match s.main with
  | .join (d :: rest) => if s.ended d then some { s with main := .join rest } else none
  | .join [] => some { s with main := .joinTimer, timerStop := true }
  | .joinTimer =>
    match s.timer with
    | .exited => some { s with main := .exited }
    | _ => none
  | .exited => none

/-- The timer moves none of the other threads. -/
theorem stepTimer_frame {s t : Os cfg} (step : s.stepTimer = some t) :
    t.dispatch = s.dispatch ∧ t.ld = s.ld ∧ t.main = s.main := by
  unfold stepTimer at step
  split at step <;> (try split at step) <;> cases step <;> exact ⟨rfl, rfl, rfl⟩

/-- `main` only goes on itself, and stops the timer. -/
theorem stepMain_frame {s t : Os cfg} (step : s.stepMain = some t) :
    ∃ pc stop, t = { s with main := pc, timerStop := stop } := by
  unfold stepMain at step
  split at step <;> (try split at step) <;> cases step <;> exact ⟨_, _, rfl⟩

/-- Whose step it is. -/
inductive Action (cfg : Config) where
  | cpu (i : Fin cfg.numCpus)
  | ld
  | timer
  | main

/-- Any interleaving of all threads. -/
def system (cfg : Config) : TransitionSystem (Os cfg) (Action cfg) where
  init s := s = start cfg
  step s
    | .cpu i => s.stepCpu i
    | .ld => s.stepLd
    | .timer => s.stepTimer
    | .main => s.stepMain

end Os
end SimpleOs
