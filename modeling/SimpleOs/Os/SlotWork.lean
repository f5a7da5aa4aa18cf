import Mathlib.Algebra.BigOperators.Fin
import SimpleOs.Lib.Work
import SimpleOs.Os.Slots

/-!
# How much there is to do in a slot

`work` bounds the steps that are left before the timer has to open the next slot.
A device spends its share on the way from its release to `next_slot`, where it
waits; the timer and `main` go down their lists. `get_mlq_proc` starts over only
when it gives up the slots of a level, so that is paid for once.
-/

namespace SimpleOs

open Rounds (Event)

/-- The steps a CPU has left in the slot. In `next_slot` it counts whether the CPU
waits for the body of the slot or has it behind it. -/
def CpuPc.work {P : Type*} (early : Bool) : CpuPc P → Nat
  | .slotWait => if early then 10 else 0
  | .waitTurn => 9
  | .check => 8
  | .get _ => 7
  | .recheck => 5
  | .run _ => 4
  | .execute _ _ => 3
  | .signal _ => 2
  | .slotDone => 1
  | .markInactive => 3
  | .signalStop => 2
  | .detach => 1
  | .exited => 0

/-- The steps the loader has left in the slot. -/
def LdPc.work {P : Type*} (early : Bool) : LdPc P → Nat
  | .slotWait _ => if early then 8 else 0
  | .startWait => 7
  | .waitTurn _ => 7
  | .startSignal => 6
  | .loopHead => 5
  | .innerSignal _ => 5
  | .inner _ => 4
  | .addProc _ => 3
  | .addSignal => 2
  | .slotDone _ => 1
  | .finalSignal => 3
  | .setDone => 2
  | .detach => 1
  | .exited => 0

/-- The steps the timer has left before it opens a slot. -/
def TimerPc.work {n : Nat} : TimerPc n → Nat
  | .reset _ => 2 * n + 6
  | .release rest _ => rest.length + n + 4
  | .head => n + 3
  | .check rest _ => rest.length + 1
  | .exited => 0

def MainPc.work {n : Nat} : MainPc n → Nat
  | .join rest => rest.length + 2
  | .joinTimer => 1
  | .exited => 0

/-- A `get_mlq_proc` that may have to start over. -/
def Sched.work {P : Type*} (s : Sched P) : Nat := if s.currSlot = 0 then 0 else 1

theorem Sched.work_le {P : Type*} (s : Sched P) : s.work ≤ 1 := by
  unfold work
  split <;> omega

theorem CpuPc.work_le {P : Type*} (early : Bool) (pc : CpuPc P) : pc.work early ≤ 10 := by
  cases pc <;> simp only [work] <;> (try split) <;> omega

theorem LdPc.work_le {P : Type*} (early : Bool) (pc : LdPc P) : pc.work early ≤ 8 := by
  cases pc <;> simp only [work] <;> (try split) <;> omega

theorem length_devList (n : Nat) : (devList n).length = n + 1 := by
  simp [devList]

theorem length_joinList (n : Nat) : (joinList n).length = n + 1 := by
  simp [joinList]

/-- A step of a CPU spends work, unless the CPU goes to sleep too early or wakes up too
late. -/
theorem cpuStep_work {cfg : Config} {k k' : Kernel cfg} {c c' : Cpu cfg.Proc} {early later : Bool}
    (step : cpuStep k c = some (k', c')) (sleeps : c.pc = .slotDone → later = false)
    (wakes : c.pc = .slotWait → early = true) :
    c'.pc.work later + k'.sched.work < c.pc.work early + k.sched.work := by
  obtain ⟨pc, proc, timeLeft⟩ := c
  cases pc with
  | check =>
      cases proc with
      | none =>
          cases step
          simp [CpuPc.work]
      | some p =>
          simp only [cpuStep] at step
          split at step
          · cases step
            simp [CpuPc.work]
          · split at step
            · -- putting a process back does not touch the slots
              cases step
              have same : (k.sched.putMlqProc cfg.prio p).work = k.sched.work := rfl
              simp only [CpuPc.work, same]
              omega
            · cases step
              simp [CpuPc.work]
  | get site =>
      obtain ⟨s, ret, _⟩ | ⟨l, p, rest, s, ret, _⟩ | ⟨s, again, slots, spent, _⟩ :=
        k.sched.getMlqSection_cases
      · simp only [cpuStep, ret, Option.some.injEq, Prod.mk.injEq] at step
        obtain ⟨rfl, rfl⟩ := step
        have refilled := s.work_le
        dsimp only
        split <;> simp only [CpuPc.work] <;> omega
      · simp only [cpuStep, ret, Option.some.injEq, Prod.mk.injEq] at step
        obtain ⟨rfl, rfl⟩ := step
        have refilled := s.work_le
        dsimp only
        split <;> simp only [CpuPc.work] <;> omega
      · simp only [cpuStep, again, Option.some.injEq, Prod.mk.injEq] at step
        obtain ⟨rfl, rfl⟩ := step
        simp [CpuPc.work, Sched.work, slots, spent]
  | recheck =>
      cases proc with
      | none =>
          cases step
          cases done : k.done <;> simp [CpuPc.work]
      | some p =>
          cases step
          simp [CpuPc.work]
  | run p =>
      cases step
      dsimp only
      split <;> simp [CpuPc.work]
  | exited => cases step
  | slotDone =>
      cases step
      simp [CpuPc.work, sleeps rfl]
  | slotWait =>
      cases step
      simp [CpuPc.work, wakes rfl]
  | _ =>
      cases step
      simp [CpuPc.work]

namespace Os

variable {cfg : Config}

def early (s : Os cfg) (d : Dev cfg.numCpus) : Bool := s.stage d = .before

/-- The steps left before the next slot. -/
def work (s : Os cfg) : Nat :=
  s.timer.work + s.main.work + s.ld.work (s.early .ld) + s.dispatch.kernel.sched.work +
    ∑ i, (s.dispatch.cpu i).pc.work (s.early (.cpu i))

/-- No slot takes more steps. -/
def slotWork (cfg : Config) : Nat := 13 * cfg.numCpus + 20

theorem work_le {s : Os cfg} (inv : s.Inv) : s.work ≤ slotWork cfg := by
  have timer : s.timer.work ≤ 2 * cfg.numCpus + 6 := by
    have counted := inv.counted
    unfold Counted at counted
    have total := length_devList cfg.numCpus
    cases timer : s.timer with
    | check rest fsh =>
        rw [timer] at counted
        obtain ⟨checked, split, _⟩ := counted
        rw [← split, List.length_append] at total
        simp only [TimerPc.work]
        omega
    | release rest fsh =>
        rw [timer] at counted
        obtain ⟨⟨released, split⟩, _⟩ := counted
        rw [← split, List.length_append] at total
        simp only [TimerPc.work]
        omega
    | _ =>
        simp only [TimerPc.work]
        omega
  have main : s.main.work ≤ cfg.numCpus + 3 := by
    cases main : s.main with
    | join rest =>
        obtain ⟨joined, split, _⟩ := inv.joined.joined rest main
        have total := length_joinList cfg.numCpus
        rw [← split, List.length_append] at total
        simp only [MainPc.work]
        omega
    | _ =>
        simp only [MainPc.work]
        omega
  have ld := s.ld.work_le (s.early .ld)
  have sched := s.dispatch.kernel.sched.work_le
  have cpus : ∑ i, (s.dispatch.cpu i).pc.work (s.early (.cpu i)) ≤ cfg.numCpus * 10 := by
    have each := Finset.sum_le_card_nsmul Finset.univ
      (fun i => (s.dispatch.cpu i).pc.work (s.early (.cpu i))) 10
      fun i _ => CpuPc.work_le _ _
    simpa using each
  unfold work slotWork
  omega

theorem early_congr {s t : Os cfg} {d : Dev cfg.numCpus} (stage : t.stage d = s.stage d) :
    t.early d = s.early d := by
  unfold early
  rw [stage]

/-- A device that goes to sleep in `next_slot` has its body behind it. -/
theorem Move.sleeps {s t : Os cfg} {d : Dev cfg.numCpus} {event : Option (Event (Dev cfg.numCpus))}
    (flags : s.Flags) (frame : Frame s t d) (move : Move s t d event)
    (posts : s.place d = .slotDone) : t.early d = false := by
  have stages := move.stage flags frame
  have after : s.stage d = .after := by simp [Os.stage, posts]
  have passed : t.stage d ≠ .before := by
    cases move with
    | post => obtain same | ⟨_, gone⟩ := stages <;> simp_all
    | _ => simp_all
  simp [early, passed]

/-- A device that wakes up has its body before it. -/
theorem early_of_released {s : Os cfg} {d : Dev cfg.numCpus} (waits : s.place d = .slotWait)
    (released : (s.dev d).done = false) : s.early d = true := by
  simp [early, stage, waits, released]

/-- The share of the CPUs, when one of them moves. -/
theorem sum_work_cpu {s t : Os cfg} {i : Fin cfg.numCpus}
    (others : ∀ j, j ≠ i → t.dispatch.cpu j = s.dispatch.cpu j ∧ t.early (.cpu j) = s.early (.cpu j)) :
    ∑ j, (t.dispatch.cpu j).pc.work (t.early (.cpu j)) +
        (s.dispatch.cpu i).pc.work (s.early (.cpu i)) =
      ∑ j, (s.dispatch.cpu j).pc.work (s.early (.cpu j)) +
        (t.dispatch.cpu i).pc.work (t.early (.cpu i)) := by
  have rest : ∑ j ∈ Finset.univ.erase i, (t.dispatch.cpu j).pc.work (t.early (.cpu j)) =
      ∑ j ∈ Finset.univ.erase i, (s.dispatch.cpu j).pc.work (s.early (.cpu j)) := by
    refine Finset.sum_congr rfl fun j member => ?_
    obtain ⟨cpu, early⟩ := others j (Finset.ne_of_mem_erase member)
    rw [cpu, early]
  rw [← Finset.add_sum_erase _ _ (Finset.mem_univ i),
    ← Finset.add_sum_erase _ (fun j => (s.dispatch.cpu j).pc.work _) (Finset.mem_univ i), rest]
  omega

theorem work_stepCpu {s t : Os cfg} {i : Fin cfg.numCpus} (inv : s.Inv)
    (step : s.stepCpu i = some t) : t.work < s.work := by
  have frame := stepCpu_frame step
  have move := stepCpu_move step
  obtain ⟨ready, k, c, ran, after⟩ := stepCpu_eq_some.mp step
  have dispatch : t.dispatch = s.dispatch.setCpu i k c := by rw [after]
  have loader : t.early .ld = s.early .ld := early_congr (frame.stage (by simp))
  have cpus := s.sum_work_cpu (t := t) (i := i) fun j other => by
    refine ⟨by rw [dispatch, Dispatch.setCpu_cpu_of_ne _ _ _ other], early_congr (frame.stage ?_)⟩
    rintro same
    exact other (Dev.cpu.inj same)
  have src : s.place (.cpu i) = (s.dispatch.cpu i).pc.place := rfl
  have sleeps : (s.dispatch.cpu i).pc = .slotDone → t.early (.cpu i) = false := fun posts =>
    move.sleeps inv.flags frame (by rw [src, posts]; rfl)
  have wakes : (s.dispatch.cpu i).pc = .slotWait → s.early (.cpu i) = true := fun waits =>
    early_of_released (by rw [src, waits]; rfl) (by simpa [cpuReady, waits] using ready)
  have spent := cpuStep_work ran sleeps wakes
  rw [dispatch, Dispatch.setCpu_cpu_self, ← dispatch] at cpus
  unfold work
  rw [frame.timer, frame.main, ld_stepCpu step, loader]
  have kernel : t.dispatch.kernel = k := by rw [dispatch, Dispatch.setCpu_kernel]
  rw [kernel]
  omega

/-- A step of the loader spends work, unless it goes to sleep too early or wakes up too
late. -/
theorem stepLd_spends {s t : Os cfg} (step : s.stepLd = some t)
    (sleeps : s.place .ld = .slotDone → t.early .ld = false)
    (wakes : s.place .ld = .slotWait → s.early .ld = true) :
    t.ld.work (t.early .ld) < s.ld.work (s.early .ld) ∧
      t.dispatch.kernel.sched.work = s.dispatch.kernel.sched.work ∧
      t.dispatch.cpu = s.dispatch.cpu := by
  simp only [place] at sleeps wakes
  generalize t.early .ld = later at *
  unfold stepLd at step
  cases pc : s.ld with
  | slotDone next =>
      simp only [pc, Option.some.injEq] at step
      subst step
      refine ⟨?_, rfl, rfl⟩
      simp [LdPc.work, goLd, sleeps (by rw [pc]; rfl)]
  | slotWait next =>
      simp only [pc, Option.ite_none_left_eq_some, Option.some.injEq] at step
      obtain ⟨_, rfl⟩ := step
      refine ⟨?_, rfl, rfl⟩
      simp [LdPc.work, goLd, wakes (by rw [pc]; rfl)]
  | waitTurn next =>
      simp only [pc, Option.ite_none_right_eq_some, Option.some.injEq] at step
      obtain ⟨_, rfl⟩ := step
      refine ⟨?_, rfl, rfl⟩
      cases next <;> simp [LdPc.work, goLd, resume]
  | startWait =>
      simp only [pc, Option.ite_none_right_eq_some, Option.some.injEq] at step
      obtain ⟨_, rfl⟩ := step
      exact ⟨by simp [LdPc.work, goLd], rfl, rfl⟩
  | loopHead =>
      simp only [pc] at step
      split at step <;> cases step <;> exact ⟨by simp [LdPc.work, goLd], rfl, rfl⟩
  | inner p =>
      simp only [pc] at step
      split at step <;> cases step <;> exact ⟨by simp [LdPc.work, goLd], rfl, rfl⟩
  | exited => simp [pc] at step
  | _ =>
      simp only [pc, Option.some.injEq] at step
      subst step
      exact ⟨by simp [LdPc.work, goLd], rfl, rfl⟩

theorem work_stepLd {s t : Os cfg} (inv : s.Inv) (step : s.stepLd = some t) :
    t.work < s.work := by
  have frame := stepLd_frame step
  have move := stepLd_move step
  have wakes : s.place .ld = .slotWait → s.early .ld = true := by
    intro waits
    refine early_of_released waits ?_
    by_contra sleeping
    have quiet := step
    simp only [place] at waits
    unfold stepLd at quiet
    cases pc : s.ld <;> simp_all [LdPc.place]
  obtain ⟨spent, sched, cpu⟩ := stepLd_spends step (move.sleeps inv.flags frame) wakes
  have cpus : ∀ i, t.early (.cpu i) = s.early (.cpu i) := fun i =>
    early_congr (frame.stage (by simp))
  unfold work
  simp only [frame.timer, frame.main, sched, cpu, cpus]
  omega

/-- Between two slots the timer goes down its lists. -/
theorem stepTimer_spends {s t : Os cfg} (quiet : s.event .timer = none)
    (step : s.stepTimer = some t) : t.timer.work < s.timer.work := by
  have total := length_devList cfg.numCpus
  unfold stepTimer at step
  cases timer : s.timer with
  | head =>
      simp only [timer, Option.some.injEq] at step
      subst step
      simp only [goTimer]
      split <;> simp only [TimerPc.work] <;> omega
  | check rest fsh =>
      cases rest with
      | nil => simp [event, timer] at quiet
      | cons d rest =>
          simp only [timer, Option.ite_none_right_eq_some, Option.some.injEq] at step
          obtain ⟨_, rfl⟩ := step
          simp [TimerPc.work, goTimer]
  | reset fsh =>
      simp only [timer, Option.some.injEq] at step
      subst step
      simp only [goTimer, TimerPc.work]
      omega
  | release rest fsh =>
      cases rest with
      | nil =>
          simp only [timer, Option.some.injEq] at step
          subst step
          simp only [goTimer]
          split <;> simp only [TimerPc.work, List.length_nil] <;> omega
      | cons d rest =>
          simp only [timer, Option.some.injEq] at step
          subst step
          simp only [TimerPc.work, goTimer, List.length_cons]
          omega
  | exited => simp [timer] at step

/-- `main` goes down its list and changes nothing for the others. -/
theorem stepMain_spends {s t : Os cfg} (step : s.stepMain = some t) :
    t.main.work < s.main.work := by
  unfold stepMain at step
  split at step
  · rename_i d rest main
    simp only [Option.ite_none_right_eq_some, Option.some.injEq] at step
    obtain ⟨_, rfl⟩ := step
    simp [main, MainPc.work]
  · rename_i main
    cases step
    simp [main, MainPc.work]
  · rename_i main
    split at step
    · cases step
      simp [main, MainPc.work]
    · cases step
  · cases step

/-- Whatever the schedule, a slot takes a bounded number of steps. -/
theorem spends (few : cfg.numCpus ≤ 64) :
    TransitionSystem.Spends (system cfg) Inv time work (slotWork cfg) where
  preserved := fun _ _ _ inv step => inv.step few step
  bounded := fun _ inv => work_le inv
  spends := by
    intro s a t inv step
    cases a with
    | cpu i => exact .inr ⟨(stepCpu_frame step).time, work_stepCpu inv step⟩
    | ld => exact .inr ⟨(stepLd_frame step).time, work_stepLd inv step⟩
    | timer =>
        cases event : s.event .timer with
        | some e =>
            left
            obtain ⟨fsh, timer, -⟩ := event_timer event
            change s.stepTimer = some t at step
            simp only [stepTimer, timer, Option.some.injEq] at step
            subst step
            rfl
        | none =>
            obtain ⟨time, stages⟩ := (inv.stage_stepTimer step).2 event
            obtain ⟨dispatch, ld, main⟩ := stepTimer_frame step
            have spent := stepTimer_spends event step
            have early : t.early = s.early := funext fun d => early_congr (stages d)
            refine .inr ⟨time, ?_⟩
            unfold work
            rw [dispatch, ld, main, early]
            omega
    | main =>
        have spent := stepMain_spends step
        obtain ⟨pc, stop, rfl⟩ := stepMain_frame step
        have early : ({ s with main := pc, timerStop := stop } : Os cfg).early = s.early :=
          funext fun d => early_congr (stage_congr (congrFun (place_congr rfl rfl) d) rfl rfl)
        refine .inr ⟨rfl, ?_⟩
        unfold work
        rw [early]
        dsimp only at spent ⊢
        omega

end Os
end SimpleOs
