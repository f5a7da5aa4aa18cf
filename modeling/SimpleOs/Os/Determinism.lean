import SimpleOs.Lib.Commute
import SimpleOs.Os.Invariant
import SimpleOs.Os.Ownership

/-!
# The schedule cannot be seen

A step of a device outside its body changes only what is its own: its position and
its flags. A step of the timer between two slots changes its own position and the
flag of a device that waits for it. `Outside d` collects such modifications, as far
as they do not concern device `d`; what `d` does next does not depend on them.

Bodies exclude one another, and a device whose turn it is excludes them too. So of
any two threads that can step at least one makes a modification outside the other,
and it makes none of the calls of the scheduler.
-/

namespace SimpleOs

/-- The calls of the scheduler, of `run`, and the end of a CPU. -/
inductive SchedEvent (P : Type*) (n : Nat) where
  | addProc (proc : P)
  | getProc (cpu : Fin n) (ret : Option P)
  | putProc (cpu : Fin n) (proc : P)
  | run (cpu : Fin n) (proc : P) (pc : Nat)
  | stop (cpu : Fin n)
  deriving DecidableEq

variable {cfg : Config}

/-- The event of the next step of CPU `i`. -/
def cpuSchedEvent (i : Fin cfg.numCpus) (k : Kernel cfg) (c : Cpu cfg.Proc) :
    Option (SchedEvent cfg.Proc cfg.numCpus) :=
  match c.pc with
  | .check =>
    match c.proc with
    | none => none
    | some p =>
      if k.pcOf p = cfg.size p then none
      else if c.timeLeft = 0 then some (.putProc i p)
      else none
  | .get _ =>
    match k.sched.getMlqSection with
    | .again _ => none
    | .ret proc _ => some (.getProc i proc)
  | .run p => some (.run i p (k.pcOf p))
  | .markInactive => some (.stop i)
  | _ => none

namespace Os

/-- The event of a step, with its time slot. -/
def schedEvent (s : Os cfg) : Action cfg → Option (Nat × SchedEvent cfg.Proc cfg.numCpus)
  | .cpu i => (cpuSchedEvent i s.dispatch.kernel (s.dispatch.cpu i)).map fun e => (s.time, e)
  | .ld =>
    match s.ld with
    | .addProc p => some (s.time, .addProc p)
    | _ => none
  | .timer | .main => none

/-- The step of a device. -/
def action : Dev cfg.numCpus → Action cfg
  | .ld => .ld
  | .cpu i => .cpu i

/-- Modifications that do not concern device `d`. -/
inductive Outside (d : Dev cfg.numCpus) : (Os cfg → Os cfg) → Prop
  | timer (pc : TimerPc cfg.numCpus) : Outside d fun s => { s with timer := pc }
  | main (pc : MainPc cfg.numCpus) : Outside d fun s => { s with main := pc }
  | flags (e : Dev cfg.numCpus) (id : TimerId) (other : e ≠ d) :
      Outside d fun s => { s with dev := Function.update s.dev e id }
  | ld (pc : LdPc cfg.Proc) (other : d ≠ .ld) : Outside d fun s => { s with ld := pc }
  | cpu (j : Fin cfg.numCpus) (c : Cpu cfg.Proc) (other : d ≠ .cpu j) :
      Outside d fun s => { s with dispatch := s.dispatch.setCpu j s.dispatch.kernel c }
  | comp {f g : Os cfg → Os cfg} (first : Outside d f) (second : Outside d g) :
      Outside d fun s => g (f s)

/-- A CPU does the same after a modification that leaves alone what it reads. -/
theorem stepCpu_map {s : Os cfg} {i : Fin cfg.numCpus} {f : Os cfg → Os cfg}
    (ready : (f s).cpuReady i = s.cpuReady i) (kernel : (f s).dispatch.kernel = s.dispatch.kernel)
    (cpu : (f s).dispatch.cpu i = s.dispatch.cpu i)
    (sync : ∀ k c, ({ (f s).cpuSync i with dispatch := (f s).dispatch.setCpu i k c } : Os cfg) =
      f { s.cpuSync i with dispatch := s.dispatch.setCpu i k c }) :
    (f s).stepCpu i = (s.stepCpu i).map f := by
  rw [stepCpu, stepCpu, ready, kernel, cpu]
  split
  · simp only [Option.map_map, sync]
    rfl
  · rfl

theorem setCpu_comm (s : Dispatch cfg) {i j : Fin cfg.numCpus} (apart : i ≠ j) (k : Kernel cfg)
    (c c' : Cpu cfg.Proc) :
    (s.setCpu j s.kernel c').setCpu i k c = (s.setCpu i k c).setCpu j k c' := by
  simp only [Dispatch.setCpu, Function.update_comm apart]

theorem Outside.stepCpu {i : Fin cfg.numCpus} {f : Os cfg → Os cfg}
    (outside : Outside (.cpu i) f) (s : Os cfg) : (f s).stepCpu i = (s.stepCpu i).map f := by
  induction outside generalizing s with
  | timer pc =>
      apply stepCpu_map (f := fun s => { s with timer := pc }) rfl rfl rfl
      intro k c
      simp only [cpuSync]
      split <;> rfl
  | main pc =>
      apply stepCpu_map (f := fun s => { s with main := pc }) rfl rfl rfl
      intro k c
      simp only [cpuSync]
      split <;> rfl
  | flags e id other =>
      apply stepCpu_map (f := fun s => { s with dev := Function.update s.dev e id }) ?_ rfl rfl
      · intro k c
        simp only [cpuSync]
        split <;> simp [signalNextCpu, markCpuInactive, slotDone, detachEvent,
          Function.update_of_ne other.symm, Function.update_comm other]
      · simp only [cpuReady, Function.update_of_ne other.symm]
  | ld pc other =>
      apply stepCpu_map (f := fun s => { s with ld := pc }) rfl rfl rfl
      intro k c
      simp only [cpuSync]
      split <;> rfl
  | cpu j c' other =>
      have apart : i ≠ j := by
        rintro rfl
        exact other rfl
      have same := s.dispatch.setCpu_cpu_of_ne s.dispatch.kernel c' apart
      apply stepCpu_map
        (f := fun s => { s with dispatch := s.dispatch.setCpu j s.dispatch.kernel c' }) ?_ rfl same
      · intro k c
        simp only [cpuSync, same, setCpu_comm _ apart]
        split <;> rfl
      · simp only [cpuReady, same]
  | comp first second ihf ihg =>
      rw [ihg, ihf, Option.map_map]
      rfl

theorem Outside.stepLd {f : Os cfg → Os cfg} (outside : Outside .ld f) (s : Os cfg) :
    (f s).stepLd = s.stepLd.map f := by
  induction outside generalizing s with
  | ld pc other => exact absurd rfl other
  | comp first second ihf ihg =>
      rw [ihg, ihf, Option.map_map]
      rfl
  | flags e id other =>
      simp only [Os.stepLd]
      split <;> (try split) <;> simp_all [goLd, signalNextCpu, slotDone, detachEvent, setKernel,
          Function.update_of_ne other.symm, Function.update_comm other]
  | cpu j c other =>
      simp only [Os.stepLd]
      split
      case h_3 =>
        -- the loader counts the processes it has loaded, which no CPU does
        by_cases more : s.dispatch.kernel.loaded < cfg.numProcesses
        · refine (dif_pos more).trans ?_
          rw [dif_pos more]
          rfl
        · refine (dif_neg more).trans ?_
          rw [dif_neg more]
          rfl
      all_goals (try split) <;> rfl
  | _ =>
      simp only [Os.stepLd]
      split <;> (try split) <;> rfl

/-- A device neither notices a modification outside it nor shows anything else. -/
theorem Outside.step {d : Dev cfg.numCpus} {f : Os cfg → Os cfg} (outside : Outside d f)
    (s : Os cfg) : (system cfg).step (f s) (action d) = ((system cfg).step s (action d)).map f := by
  cases d with
  | ld => exact outside.stepLd s
  | cpu i => exact outside.stepCpu s

theorem Outside.view {d : Dev cfg.numCpus} {f : Os cfg → Os cfg} (outside : Outside d f)
    (s : Os cfg) : (f s).schedEvent (action d) = s.schedEvent (action d) ∧
      (f s).place d = s.place d := by
  induction outside generalizing s with
  | ld pc other =>
      cases d with
      | ld => exact absurd rfl other
      | cpu i => exact ⟨rfl, rfl⟩
  | cpu j c other =>
      cases d with
      | ld => exact ⟨rfl, rfl⟩
      | cpu i =>
          have apart : i ≠ j := by
            rintro rfl
            exact other rfl
          have same := s.dispatch.setCpu_cpu_of_ne s.dispatch.kernel c apart
          simp only [action, schedEvent, place, same, Dispatch.setCpu_kernel, and_self]
  | comp first second ihf ihg =>
      obtain ⟨shows, place⟩ := ihf s
      obtain ⟨shows', place'⟩ := ihg _
      exact ⟨shows'.trans shows, place'.trans place⟩
  | _ => cases d <;> exact ⟨rfl, rfl⟩

/-! ## Devices outside their bodies -/

/-- The device is in `next_slot` or in `detach_event`. -/
def Between (s : Os cfg) (d : Dev cfg.numCpus) : Prop :=
  s.place d = .slotDone ∨ s.place d = .slotWait ∨ s.place d = .detach

/-- What a device has to itself. -/
def Agrees (s t : Os cfg) : Dev cfg.numCpus → Prop
  | .ld => t.ld = s.ld ∧ t.dev .ld = s.dev .ld
  | .cpu i => t.dispatch.cpu i = s.dispatch.cpu i ∧ t.dev (.cpu i) = s.dev (.cpu i)

theorem Agrees.place {s t : Os cfg} {d : Dev cfg.numCpus} (agrees : Agrees s t d) :
    t.place d = s.place d := by
  cases d with
  | ld => simp only [Os.place, agrees.1]
  | cpu i => simp only [Os.place, agrees.1]

/-- A step of another device leaves alone what a device has to itself. -/
theorem agrees_of_step {s t : Os cfg} {d e : Dev cfg.numCpus} (apart : d ≠ e)
    (step : (system cfg).step s (action e) = some t) : Agrees s t d := by
  cases e with
  | ld =>
      have flags := (stepLd_frame step).flags d apart
      cases d with
      | ld => exact absurd rfl apart
      | cpu i =>
          have same : t.dispatch.cpu = s.dispatch.cpu := by
            change s.stepLd = some t at step
            unfold stepLd at step
            split at step <;> (try split at step) <;> cases step <;> rfl
          exact ⟨congrFun same i, flags⟩
  | cpu j =>
      have flags := (stepCpu_frame step).flags d apart
      cases d with
      | ld => exact ⟨ld_stepCpu step, flags⟩
      | cpu i =>
          obtain ⟨_, k, c, _, rfl⟩ := stepCpu_eq_some.mp step
          refine ⟨s.dispatch.setCpu_cpu_of_ne k c ?_, flags⟩
          rintro rfl
          exact apart rfl

/-- A device between two bodies shows nothing. -/
theorem schedEvent_between {s : Os cfg} {d : Dev cfg.numCpus} (between : Between s d) :
    s.schedEvent (action d) = none := by
  cases d with
  | ld =>
      simp only [Between, place] at between
      simp only [action, schedEvent]
      cases pc : s.ld <;> simp_all [LdPc.place]
  | cpu i =>
      simp only [Between, place] at between
      simp only [action, schedEvent, cpuSchedEvent]
      cases pc : (s.dispatch.cpu i).pc <;> simp_all [CpuPc.place]

/-- The step of a device between two bodies is a modification of what it has to itself. -/
theorem step_between {s t : Os cfg} {d : Dev cfg.numCpus} (between : Between s d)
    (step : (system cfg).step s (action d) = some t) :
    ∃ f, (∀ e, e ≠ d → Outside e f) ∧
      ∀ u, Agrees s u d → (system cfg).step u (action d) = some (f u) := by
  cases d with
  | ld =>
      have modifies : ∀ pc id, ∀ e : Dev cfg.numCpus, e ≠ .ld → Outside e
          fun u : Os cfg => { u with dev := Function.update u.dev .ld id, ld := pc } :=
        fun pc id e other => .comp (.flags .ld id other.symm) (.ld pc other)
      change s.stepLd = some t at step
      simp only [Between, place] at between
      cases pc : s.ld with
      | slotDone next =>
          refine ⟨_, modifies (.slotWait next) { s.dev .ld with done := true }, ?_⟩
          rintro u ⟨here, flags⟩
          simp only [action, system, stepLd, here, pc, slotDone, goLd, flags]
      | slotWait next =>
          refine ⟨_, modifies (.waitTurn next) (s.dev .ld), ?_⟩
          rintro u ⟨here, flags⟩
          have released : (s.dev .ld).done = false := by
            by_contra waits
            simp [stepLd, pc, waits] at step
          rw [← flags, Function.update_eq_self]
          simp [action, system, stepLd, here, pc, flags, released, goLd]
      | detach =>
          refine ⟨_, modifies .exited { s.dev .ld with fsh := true }, ?_⟩
          rintro u ⟨here, flags⟩
          simp only [action, system, stepLd, here, pc, detachEvent, goLd, flags]
      | _ => simp [pc, LdPc.place] at between
  | cpu i =>
      have modifies : ∀ c id, ∀ e : Dev cfg.numCpus, e ≠ .cpu i → Outside e fun u : Os cfg =>
          { u with
            dev := Function.update u.dev (.cpu i) id
            dispatch := u.dispatch.setCpu i u.dispatch.kernel c } :=
        fun c id e other => .comp (.flags (.cpu i) id other.symm) (.cpu i c other)
      change s.stepCpu i = some t at step
      simp only [Between, place] at between
      cases pc : (s.dispatch.cpu i).pc with
      | slotDone =>
          refine ⟨_, modifies { s.dispatch.cpu i with pc := .slotWait }
            { s.dev (.cpu i) with done := true }, ?_⟩
          rintro u ⟨here, flags⟩
          simp [action, system, stepCpu, cpuReady, cpuSync, cpuStep, here, pc, slotDone, flags]
      | slotWait =>
          refine ⟨_, modifies { s.dispatch.cpu i with pc := .waitTurn } (s.dev (.cpu i)), ?_⟩
          rintro u ⟨here, flags⟩
          have released : (s.dev (.cpu i)).done = false := by
            by_contra waits
            simp [stepCpu, cpuReady, pc, waits] at step
          rw [← flags, Function.update_eq_self]
          simp [action, system, stepCpu, cpuReady, cpuSync, cpuStep, here, pc, flags, released]
      | detach =>
          refine ⟨_, modifies { s.dispatch.cpu i with pc := .exited }
            { s.dev (.cpu i) with fsh := true }, ?_⟩
          rintro u ⟨here, flags⟩
          simp [action, system, stepCpu, cpuReady, cpuSync, cpuStep, here, pc, detachEvent, flags]
      | _ => simp [pc, CpuPc.place] at between

/-! ## The timer and `main` -/

/-- A device that the timer has seen through with its slot does not step. -/
theorem step_of_ready {s : Os cfg} (flags : s.Flags) {d : Dev cfg.numCpus}
    (ready : (s.dev d).done = true ∨ (s.dev d).fsh = true) :
    (system cfg).step s (action d) = none := by
  cases d with
  | ld =>
      show s.stepLd = none
      obtain ⟨waits, done⟩ | exited := flags.place_of_ready ready
      · simp only [place] at waits
        rw [stepLd]
        cases pc : s.ld <;> simp_all [LdPc.place]
      · simp only [place] at exited
        rw [stepLd]
        cases pc : s.ld <;> simp_all [LdPc.place]
  | cpu i =>
      show s.stepCpu i = none
      obtain ⟨waits, done⟩ | exited := flags.place_of_ready ready
      · simp only [place] at waits
        rw [stepCpu, cpuReady]
        cases pc : (s.dispatch.cpu i).pc <;> simp_all [CpuPc.place]
      · simp only [place] at exited
        rw [stepCpu, cpuStep_eq_none.mpr]
        · simp
        · cases pc : (s.dispatch.cpu i).pc <;> simp_all [CpuPc.place]

/-- While a device can step, the timer changes its position and the flag of another
device at most. -/
theorem step_timer {s t u : Os cfg} {d : Dev cfg.numCpus} (inv : s.Inv)
    (step : s.stepTimer = some t) (moves : (system cfg).step s (action d) = some u) :
    ∃ f, Outside d f ∧ ∀ v : Os cfg, v.timer = s.timer → v.timerStop = s.timerStop →
      (∀ e, e ≠ d → v.dev e = s.dev e) → v.stepTimer = some (f v) := by
  have busy : ¬((s.dev d).done = true ∨ (s.dev d).fsh = true) := by
    intro ready
    rw [step_of_ready inv.flags ready] at moves
    cases moves
  have counted := inv.counted
  unfold Counted at counted
  have posted := inv.flags.posted
  unfold pending at posted
  unfold stepTimer at step
  cases timer : s.timer with
  | head =>
      refine ⟨_, .timer (if s.timerStop then .exited else .check (devList cfg.numCpus) 0), ?_⟩
      intro v same stop flags
      simp only [stepTimer, same, stop, goTimer]
  | check rest fsh =>
      cases rest with
      | nil =>
          rw [timer] at counted
          obtain ⟨checked, split, ready, _⟩ := counted
          rw [List.append_nil] at split
          exact absurd (ready d (split ▸ mem_devList d)) busy
      | cons e rest =>
          simp only [timer, Option.ite_none_right_eq_some, Bool.or_eq_true] at step
          obtain ⟨ready, _⟩ := step
          have other : e ≠ d := by
            rintro rfl
            exact busy ready
          refine ⟨_, .timer (.check rest (if (s.dev e).fsh then fsh + 1 else fsh)), ?_⟩
          intro v same stop flags
          simp only [stepTimer, same, flags e other, Bool.or_eq_true, if_pos ready, goTimer]
  | reset fsh =>
      rw [timer] at posted
      exact absurd (posted d rfl) busy
  | release rest fsh =>
      cases rest with
      | nil =>
          refine ⟨_, .timer (if fsh = (devList cfg.numCpus).length then .exited else .head), ?_⟩
          intro v same stop flags
          simp only [stepTimer, same, goTimer]
      | cons e rest =>
          rw [timer] at posted
          have other : e ≠ d := by
            rintro rfl
            exact busy (posted e (by simp))
          refine ⟨_, .comp (.flags e { s.dev e with done := false } other)
            (.timer (.release rest fsh)), ?_⟩
          intro v same stop flags
          simp only [stepTimer, same, releaseDev, flags e other, goTimer]
  | exited => simp [timer] at step

/-- Nothing is left of the threads but the timer and `main`. -/
def Over (s : Os cfg) : Prop := ∀ d, s.place d = .exited

/-- Before all devices have ended, `main` changes nothing but its position. -/
theorem step_main {s t : Os cfg} (inv : s.Inv) (running : ¬ Over s) (step : s.stepMain = some t) :
    ∃ pc : MainPc cfg.numCpus, ∀ v : Os cfg, v.main = s.main →
      (s.timer = .exited → v.timer = .exited) →
        (∀ d, s.place d = .exited → v.place d = .exited) →
          v.stepMain = some { v with main := pc } := by
  unfold stepMain at step
  cases main : s.main with
  | join rest =>
      cases rest with
      | nil =>
          obtain ⟨joined, split, ended⟩ := inv.joined.joined [] main
          rw [List.append_nil] at split
          exact absurd (fun d => ended d (split ▸ mem_joinList d)) running
      | cons d rest =>
          simp only [main, Option.ite_none_right_eq_some] at step
          refine ⟨.join rest, ?_⟩
          intro v same _ exited
          have ended := (v.ended_iff d).mpr (exited d ((s.ended_iff d).mp step.1))
          simp only [stepMain, same, ended, if_true]
  | joinTimer =>
      simp only [main] at step
      split at step
      · rename_i timer
        refine ⟨.exited, ?_⟩
        intro v same exited _
        simp only [stepMain, same, exited timer]
      · cases step
  | exited => simp [main] at step

/-- The timer does not notice where `main` stands. -/
theorem stepTimer_main (s : Os cfg) (pc : MainPc cfg.numCpus) :
    ({ s with main := pc } : Os cfg).stepTimer =
      s.stepTimer.map fun s => { s with main := pc } := by
  simp only [stepTimer]
  split <;> (try split) <;> rfl

/-! ## Diamonds -/

section Diamonds

variable {s : Os cfg}

theorem silent_between {d e : Dev cfg.numCpus} {t : Os cfg} (apart : d ≠ e)
    (between : Between s d) (step : (system cfg).step s (action d) = some t) :
    ∃ f, TransitionSystem.Silent (system cfg) schedEvent s (action d) (action e) f := by
  obtain ⟨f, outside, same⟩ := step_between between step
  refine ⟨f, same s ?_, ?_, ⟨(outside e apart.symm).step s, ((outside e apart.symm).view s).1⟩,
    schedEvent_between between⟩
  · cases d <;> exact ⟨rfl, rfl⟩
  · intro u moves
    have agrees := agrees_of_step apart moves
    refine ⟨same u agrees, schedEvent_between ?_⟩
    rw [Between, agrees.place]
    exact between

theorem silent_timer {d : Dev cfg.numCpus} {t u : Os cfg} (inv : s.Inv)
    (step : s.stepTimer = some t) (moves : (system cfg).step s (action d) = some u) :
    ∃ f, TransitionSystem.Silent (system cfg) schedEvent s .timer (action d) f := by
  obtain ⟨f, outside, same⟩ := step_timer inv step moves
  refine ⟨f, same s rfl rfl fun _ _ => rfl, ?_, ⟨outside.step s, (outside.view s).1⟩, rfl⟩
  intro v moved
  have frame : Frame s v d := by
    cases d with
    | ld => exact stepLd_frame moved
    | cpu i => exact stepCpu_frame moved
  exact ⟨same v frame.timer frame.timerStop frame.flags, rfl⟩

theorem silent_main {b : Action cfg} {t : Os cfg} (inv : s.Inv) (running : ¬ Over s)
    (other : b ≠ .main) (step : s.stepMain = some t) :
    ∃ f, TransitionSystem.Silent (system cfg) schedEvent s .main b f := by
  obtain ⟨pc, same⟩ := step_main inv running step
  have device : ∀ d, TransitionSystem.Silent (system cfg) schedEvent s .main (action d)
      fun s => { s with main := pc } := by
    intro d
    have outside : Outside d fun s : Os cfg => { s with main := pc } := .main pc
    refine ⟨same s rfl (fun last => last) fun _ last => last, ?_,
      ⟨outside.step s, (outside.view s).1⟩, rfl⟩
    intro v moved
    cases d with
    | ld =>
        have frame := stepLd_frame moved
        refine ⟨same v frame.main (fun last => frame.timer.trans last) ?_, rfl⟩
        exact fun e last => (stepLd_move moved).exited frame last
    | cpu i =>
        have frame := stepCpu_frame moved
        refine ⟨same v frame.main (fun last => frame.timer.trans last) ?_, rfl⟩
        exact fun e last => (stepCpu_move moved).exited frame last
  refine ⟨fun s => { s with main := pc }, ?_⟩
  cases b with
  | cpu i => exact device (.cpu i)
  | ld => exact device .ld
  | main => exact absurd rfl other
  | timer =>
      refine ⟨same s rfl (fun last => last) fun _ last => last, ?_,
        ⟨stepTimer_main s pc, rfl⟩, rfl⟩
      intro v moved
      have place := (inv.stage_stepTimer moved).1
      obtain ⟨-, -, main⟩ := stepTimer_frame moved
      refine ⟨same v main ?_ ?_, rfl⟩
      · intro last
        change s.stepTimer = some v at moved
        simp [stepTimer, last] at moved
      · intro d last
        rw [place, last]

/-- A device that can step is between two bodies, or stands at the cursor. -/
theorem between_or_rank {d : Dev cfg.numCpus} {t : Os cfg} {τ : Int} (inv : s.Inv)
    (cursor : s.Cursor τ) (step : (system cfg).step s (action d) = some t) :
    Between s d ∨ d.rank = τ := by
  have move : ∃ event, Move s t d event := by
    cases d with
    | ld => exact ⟨_, stepLd_move step⟩
    | cpu i => exact ⟨_, stepCpu_move step⟩
  obtain ⟨event, move⟩ := move
  cases move with
  | enter turn src => exact .inr (cursor.rank_of_turn inv.flags src turn)
  | work src => exact .inr (cursor.rank_of_inside ((s.stage_inside_iff d).mpr src))
  | leave src => exact .inr (cursor.rank_of_inside ((s.stage_inside_iff d).mpr src))
  | quit src => exact .inr (cursor.rank_of_inside ((s.stage_inside_iff d).mpr src))
  | post src => exact .inl (.inl src)
  | wake src => exact .inl (.inr (.inl src))
  | finish src => exact .inl (.inr (.inr src))

/-- Of two devices that can step, one is between two bodies. -/
theorem diamond_devices {d e : Dev cfg.numCpus} {t u : Os cfg} (inv : s.Inv) (apart : d ≠ e)
    (stepD : (system cfg).step s (action d) = some t)
    (stepE : (system cfg).step s (action e) = some u) :
    TransitionSystem.Diamond (system cfg) schedEvent s (action d) (action e) t u := by
  obtain ⟨τ, cursor⟩ := inv.cursor
  obtain between | here := between_or_rank inv cursor stepD
  · obtain ⟨f, silent⟩ := silent_between (e := e) apart between stepD
    exact silent.diamond stepD stepE
  · obtain between | there := between_or_rank inv cursor stepE
    · obtain ⟨f, silent⟩ := silent_between (e := d) apart.symm between stepE
      exact (silent.diamond stepE stepD).symm
    · exact absurd (Dev.rank_inj (here.trans there.symm)) apart

theorem diamond_timer {d : Dev cfg.numCpus} {t u : Os cfg} (inv : s.Inv)
    (stepT : s.stepTimer = some t) (stepD : (system cfg).step s (action d) = some u) :
    TransitionSystem.Diamond (system cfg) schedEvent s .timer (action d) t u := by
  obtain ⟨f, silent⟩ := silent_timer inv stepT stepD
  exact silent.diamond stepT stepD

theorem diamond_main {b : Action cfg} {t u : Os cfg} (inv : s.Inv) (running : ¬ Over s)
    (other : b ≠ .main) (stepM : s.stepMain = some t) (stepB : (system cfg).step s b = some u) :
    TransitionSystem.Diamond (system cfg) schedEvent s .main b t u := by
  obtain ⟨f, silent⟩ := silent_main inv running other stepM
  exact silent.diamond stepM stepB

/-- Two threads that can step commute, as long as some device has not ended. -/
theorem diamond {a b : Action cfg} {t u : Os cfg} (inv : s.Inv) (running : ¬ Over s)
    (apart : a ≠ b) (stepA : (system cfg).step s a = some t)
    (stepB : (system cfg).step s b = some u) :
    TransitionSystem.Diamond (system cfg) schedEvent s a b t u := by
  have device : ∀ a : Action cfg, a = .timer ∨ a = .main ∨ ∃ d, a = action d := by
    intro a
    cases a with
    | timer => exact .inl rfl
    | main => exact .inr (.inl rfl)
    | ld => exact .inr (.inr ⟨.ld, rfl⟩)
    | cpu i => exact .inr (.inr ⟨.cpu i, rfl⟩)
  obtain rfl | rfl | ⟨d, rfl⟩ := device a
  · obtain rfl | rfl | ⟨e, rfl⟩ := device b
    · exact absurd rfl apart
    · exact (diamond_main inv running apart stepB stepA).symm
    · exact diamond_timer inv stepA stepB
  · exact diamond_main inv running apart.symm stepA stepB
  · obtain rfl | rfl | ⟨e, rfl⟩ := device b
    · exact (diamond_timer inv stepB stepA).symm
    · exact (diamond_main inv running apart stepB stepA).symm
    · refine diamond_devices inv ?_ stepA stepB
      rintro rfl
      exact apart rfl

end Diamonds

theorem Over.step {s t : Os cfg} {a : Action cfg} (ended : Over s)
    (step : (system cfg).step s a = some t) : Over t := by
  cases a with
  | cpu i => exact fun e => (stepCpu_move step).exited (stepCpu_frame step) (ended e)
  | ld => exact fun e => (stepLd_move step).exited (stepLd_frame step) (ended e)
  | timer =>
      obtain ⟨dispatch, ld, -⟩ := stepTimer_frame step
      exact fun e => (congrFun (place_congr dispatch ld) e).trans (ended e)
  | main =>
      obtain ⟨pc, stop, rfl⟩ := stepMain_frame step
      exact ended

theorem Over.mute {s : Os cfg} (ended : Over s) (a : Action cfg) : s.schedEvent a = none := by
  cases a with
  | cpu i =>
      have last := ended (.cpu i)
      simp only [place] at last
      simp only [schedEvent, cpuSchedEvent]
      cases pc : (s.dispatch.cpu i).pc <;> simp_all [CpuPc.place]
  | ld =>
      have last := ended .ld
      simp only [place] at last
      simp only [schedEvent]
      cases pc : s.ld <;> simp_all [LdPc.place]
  | timer => rfl
  | main => rfl

theorem determinate (few : cfg.numCpus ≤ 64) :
    TransitionSystem.Determinate (system cfg) schedEvent Inv Over where
  preserved := fun _ _ _ inv step => inv.step few step
  stays := fun _ _ _ ended step => ended.step step
  mute := fun _ a ended => ended.mute a
  diamond := fun _ _ _ _ _ inv running apart stepA stepB =>
    diamond inv running apart stepA stepB

/-- Under any two schedules the threads make the same calls in the same order, each in
the same slot and by the same CPU, as far as both runs go. -/
theorem simulation_deterministic (cfg : Config) (few : cfg.numCpus ≤ 64)
    (as bs : List (Action cfg)) (s t : Os cfg) (runA : (system cfg).run (start cfg) as = some s)
    (runB : (system cfg).run (start cfg) bs = some t) :
    (system cfg).trace schedEvent (start cfg) as <+: (system cfg).trace schedEvent (start cfg) bs ∨
      (system cfg).trace schedEvent (start cfg) bs <+:
        (system cfg).trace schedEvent (start cfg) as :=
  (determinate few).comparable (inv_start few) runA runB

/-- The turn of the CPU and then that of the loader. -/
def cpuFirst : List (Action Dispatch.loneProcess) :=
  List.replicate 5 (.cpu Dispatch.loneCpu) ++ List.replicate 7 .ld

/-- The same turns with the timer and the CPU in between. -/
def interleaved : List (Action Dispatch.loneProcess) :=
  .timer :: List.replicate 4 (.cpu Dispatch.loneCpu) ++ List.replicate 3 .ld ++
    .cpu Dispatch.loneCpu :: List.replicate 2 .ld

theorem simulation_deterministic_lone :
    (system Dispatch.loneProcess).trace schedEvent (start Dispatch.loneProcess) cpuFirst <+:
        (system Dispatch.loneProcess).trace schedEvent (start Dispatch.loneProcess) interleaved ∨
      (system Dispatch.loneProcess).trace schedEvent (start Dispatch.loneProcess) interleaved <+:
        (system Dispatch.loneProcess).trace schedEvent (start Dispatch.loneProcess) cpuFirst := by
  have runsA : ((system Dispatch.loneProcess).run (start Dispatch.loneProcess)
      cpuFirst).isSome = true := by
    decide +kernel
  have runsB : ((system Dispatch.loneProcess).run (start Dispatch.loneProcess)
      interleaved).isSome = true := by
    decide +kernel
  obtain ⟨s, runA⟩ := Option.isSome_iff_exists.mp runsA
  obtain ⟨t, runB⟩ := Option.isSome_iff_exists.mp runsB
  exact simulation_deterministic Dispatch.loneProcess (by decide) cpuFirst interleaved s t runA runB

end Os
end SimpleOs
