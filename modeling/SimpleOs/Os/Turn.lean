import SimpleOs.Os.Threads

/-!
# Places, stages and moves

What the turn protocol is about is not the position of a thread but its place:
outside its body waiting for the turn, in its body, or on the way to the next
slot. `Move` lists the ways in which a CPU or the loader can change its place,
with the event of the round protocol each of them is; one lemma for the CPU and
one for the loader show that their steps are such moves.
-/

namespace SimpleOs

open Rounds (Event)

/-- Where a device stands with respect to its slot body. -/
inductive Place where
  | turn
  | body
  | slotDone
  | slotWait
  | detach
  | exited
  deriving DecidableEq

/-- What that means for the time slot: the body is still to come in it, runs, or
is over, or the thread has ended. -/
inductive Stage where
  | before
  | inside
  | after
  | gone
  deriving DecidableEq

def CpuPc.place {P : Type*} : CpuPc P → Place
  | .waitTurn => .turn
  | .slotDone => .slotDone
  | .slotWait => .slotWait
  | .detach => .detach
  | .exited => .exited
  | _ => .body

def LdPc.place {P : Type*} : LdPc P → Place
  | .startWait => .turn
  | .waitTurn _ => .turn
  | .slotDone _ => .slotDone
  | .slotWait _ => .slotWait
  | .detach => .detach
  | .exited => .exited
  | _ => .body

/-- The CPU is past `mark_cpu_inactive`. -/
def CpuPc.stopping {P : Type*} : CpuPc P → Bool
  | .signalStop => true
  | .detach => true
  | .exited => true
  | _ => false

/-- The turn a device waits for. -/
def Dev.rank {n : Nat} : Dev n → Int
  | .ld => -1
  | .cpu i => (i : Nat)

theorem Dev.rank_inj {n : Nat} {d e : Dev n} (same : d.rank = e.rank) : d = e := by
  cases d <;> cases e <;> simp only [rank] at same
  · rfl
  · omega
  · omega
  · congr 1
    exact Fin.ext (by omega)

theorem Dev.rank_ge {n : Nat} (d : Dev n) : -1 ≤ d.rank := by
  cases d <;> simp only [rank] <;> omega

theorem Dev.rank_lt {n : Nat} (d : Dev n) : d.rank < n := by
  cases d with
  | ld => simp only [rank]; omega
  | cpu i =>
      have := i.isLt
      simp only [rank]
      omega

/-- The searches find the highest active CPU below `count`. -/
theorem scanActive_cases (active : Nat → Bool) (count : Nat) :
    (scanActive active count = -1 ∧ ∀ i < count, active i = false) ∨
      ∃ i < count, scanActive active count = i ∧ active i = true ∧
        ∀ j < count, i < j → active j = false := by
  induction count with
  | zero => exact .inl ⟨rfl, by omega⟩
  | succ count ih =>
      cases here : active count with
      | true =>
          refine .inr ⟨count, Nat.lt_succ_self _, by simp [scanActive, here], here, ?_⟩
          intro j below above
          omega
      | false =>
          have skip : scanActive active (count + 1) = scanActive active count := by
            simp [scanActive, here]
          rw [skip]
          obtain ⟨none, quiet⟩ | ⟨i, below, found, on, quiet⟩ := ih
          · refine .inl ⟨none, ?_⟩
            intro i under
            obtain earlier | rfl := Nat.lt_succ_iff_lt_or_eq.mp under
            · exact quiet i earlier
            · exact here
          · refine .inr ⟨i, Nat.lt_succ_of_lt below, found, on, ?_⟩
            intro j under above
            obtain earlier | rfl := Nat.lt_succ_iff_lt_or_eq.mp under
            · exact quiet j earlier above
            · exact here

theorem scanActive_ge (active : Nat → Bool) (count : Nat) : -1 ≤ scanActive active count := by
  obtain ⟨none, _⟩ | ⟨i, _, found, _⟩ := scanActive_cases active count <;> omega

/-- The guard `highest >= 0` changes nothing. -/
theorem guarded_scanActive (active : Nat → Bool) (count : Nat) :
    (if scanActive active count ≥ 0 then scanActive active count else -1) =
      scanActive active count := by
  have bound := scanActive_ge active count
  by_cases found : scanActive active count ≥ 0
  · rw [if_pos found]
  · rw [if_neg found]
    omega

theorem resetTurn_eq (active : Nat → Bool) (numCpus : Nat) :
    resetTurn active numCpus = scanActive active numCpus :=
  guarded_scanActive active numCpus

/-- A CPU passes the turn to the next active CPU below it, or to the loader. -/
theorem nextTurn_cpu (active : Nat → Bool) (numCpus i : Nat) :
    nextTurn active numCpus i = scanActive active i := by
  rw [nextTurn, if_neg (by omega)]
  by_cases zero : (i : Int) = 0
  · have same : i = 0 := by omega
    rw [if_pos zero, same]
    rfl
  · have position : ((i : Int) - 1 + 1).toNat = i := by omega
    rw [if_neg zero]
    simp only [findNextActiveCpu, position]
    exact guarded_scanActive active i

namespace Os

variable {cfg : Config}

def place (s : Os cfg) : Dev cfg.numCpus → Place
  | .ld => s.ld.place
  | .cpu i => (s.dispatch.cpu i).pc.place

/-- The timer has yet to release the device from `next_slot`. -/
def pending (s : Os cfg) (d : Dev cfg.numCpus) : Bool :=
  match s.timer with
  | .reset _ => true
  | .release rest _ => d ∈ rest
  | _ => false

/-- A device waiting in `next_slot` has the body of the old slot behind it until
the timer turns to the new slot, and the body of the new slot before it then. -/
def stage (s : Os cfg) (d : Dev cfg.numCpus) : Stage :=
  match s.place d with
  | .turn => .before
  | .body => .inside
  | .slotDone => .after
  | .slotWait => if (s.dev d).done && !s.pending d then .after else .before
  | .detach => .after
  | .exited => .gone

theorem ended_iff (s : Os cfg) (d : Dev cfg.numCpus) : s.ended d = true ↔ s.place d = .exited := by
  cases d with
  | ld =>
      simp only [ended, place]
      cases s.ld <;> simp [LdPc.place]
  | cpu i =>
      simp only [ended, place]
      cases (s.dispatch.cpu i).pc <;> simp [CpuPc.place]

/-- The event of the round protocol that a step is. -/
def event (s : Os cfg) : Action cfg → Option (Event (Dev cfg.numCpus))
  | .cpu i =>
    match (s.dispatch.cpu i).pc with
    | .waitTurn => some (.enter (.cpu i))
    | .signal _ => some (.leave (.cpu i))
    | .signalStop => some (.quit (.cpu i))
    | _ => none
  | .ld =>
    match s.ld with
    | .startWait => some (.enter .ld)
    | .waitTurn _ => some (.enter .ld)
    | .inner p => if s.time < cfg.startTime p then some (.leave .ld) else none
    | .addSignal => some (.leave .ld)
    | .setDone => some (.quit .ld)
    | _ => none
  | .timer =>
    match s.timer with
    | .check [] _ => some .tick
    | _ => none
  | .main => none

/-- What a step of device `d` leaves alone. -/
structure Frame (s t : Os cfg) (d : Dev cfg.numCpus) : Prop where
  places : ∀ e, e ≠ d → t.place e = s.place e
  flags : ∀ e, e ≠ d → t.dev e = s.dev e
  timer : t.timer = s.timer
  time : t.time = s.time
  main : t.main = s.main
  timerStop : t.timerStop = s.timerStop

/-- The ways in which device `d` changes its place, its flags and the turn. A CPU
that leaves its body passes the turn on; the loader sets it while in its body. -/
inductive Move (s t : Os cfg) (d : Dev cfg.numCpus) : Option (Event (Dev cfg.numCpus)) → Prop where
  | enter (turn : s.currentCpuTurn = d.rank) (src : s.place d = .turn) (dst : t.place d = .body)
      (flags : t.dev d = s.dev d) (keeps : t.currentCpuTurn = s.currentCpuTurn) :
      Move s t d (some (.enter d))
  | work (src : s.place d = .body) (dst : t.place d = .body) (flags : t.dev d = s.dev d)
      (keeps : d ≠ .ld → t.currentCpuTurn = s.currentCpuTurn) : Move s t d none
  | leave (src : s.place d = .body) (dst : t.place d = .slotDone) (flags : t.dev d = s.dev d)
      (passes : ∀ i, d = .cpu i → t.currentCpuTurn = scanActive s.cpuActive i) :
      Move s t d (some (.leave d))
  | quit (src : s.place d = .body) (dst : t.place d = .detach) (flags : t.dev d = s.dev d)
      (passes : ∀ i, d = .cpu i → t.currentCpuTurn = scanActive s.cpuActive i) :
      Move s t d (some (.quit d))
  | post (src : s.place d = .slotDone) (dst : t.place d = .slotWait)
      (flags : t.dev d = { s.dev d with done := true })
      (keeps : t.currentCpuTurn = s.currentCpuTurn) : Move s t d none
  | wake (src : s.place d = .slotWait) (dst : t.place d = .turn)
      (released : (s.dev d).done = false) (flags : t.dev d = s.dev d)
      (keeps : t.currentCpuTurn = s.currentCpuTurn) : Move s t d none
  | finish (src : s.place d = .detach) (dst : t.place d = .exited)
      (flags : t.dev d = { s.dev d with fsh := true })
      (keeps : t.currentCpuTurn = s.currentCpuTurn) : Move s t d none

theorem stepCpu_eq_some {s t : Os cfg} {i : Fin cfg.numCpus} :
    s.stepCpu i = some t ↔ s.cpuReady i = true ∧
      ∃ k c, cpuStep s.dispatch.kernel (s.dispatch.cpu i) = some (k, c) ∧
        t = { s.cpuSync i with dispatch := s.dispatch.setCpu i k c } := by
  unfold stepCpu
  cases ready : s.cpuReady i with
  | false => simp
  | true =>
      simp only [if_true, Option.map_eq_some_iff, true_and, Prod.exists]
      exact exists_congr fun k => exists_congr fun c => and_congr_right fun _ => eq_comm

/-- A CPU does not move the loader. -/
theorem ld_stepCpu {s t : Os cfg} {i : Fin cfg.numCpus} (step : s.stepCpu i = some t) :
    t.ld = s.ld := by
  obtain ⟨_, k, c, _, rfl⟩ := stepCpu_eq_some.mp step
  simp only [cpuSync]
  split <;> rfl

theorem stepCpu_frame {s t : Os cfg} {i : Fin cfg.numCpus} (step : s.stepCpu i = some t) :
    Frame s t (.cpu i) := by
  obtain ⟨_, k, c, ran, rfl⟩ := stepCpu_eq_some.mp step
  have sync : (s.cpuSync i).ld = s.ld ∧ (s.cpuSync i).timer = s.timer ∧
      (s.cpuSync i).time = s.time ∧ (s.cpuSync i).main = s.main ∧
      (s.cpuSync i).timerStop = s.timerStop ∧
      ∀ e, e ≠ .cpu i → (s.cpuSync i).dev e = s.dev e := by
    unfold cpuSync
    split <;> refine ⟨rfl, rfl, rfl, rfl, rfl, ?_⟩ <;> intro e other
    all_goals first
      | rfl
      | exact Function.update_of_ne other ..
  obtain ⟨ld, timer, time, main, stop, flags⟩ := sync
  refine ⟨?_, flags, timer, time, main, stop⟩
  intro e other
  cases e with
  | ld => exact congrArg LdPc.place ld
  | cpu j =>
      have apart : j ≠ i := by
        rintro rfl
        exact other rfl
      simp only [place, Dispatch.setCpu_cpu_of_ne _ _ _ apart]

/-- Where `cpuStep` goes from each place, and from the two ends of a body. -/
theorem cpuStep_place {k k' : Kernel cfg} {c c' : Cpu cfg.Proc}
    (step : cpuStep k c = some (k', c')) :
    match c.pc with
    | .waitTurn => c'.pc.place = .body
    | .signal _ => c'.pc.place = .slotDone
    | .signalStop => c'.pc.place = .detach
    | .slotDone => c'.pc.place = .slotWait
    | .slotWait => c'.pc.place = .turn
    | .detach => c'.pc.place = .exited
    | _ => c'.pc.place = .body := by
  obtain ⟨pc, proc, timeLeft⟩ := c
  cases pc with
  | check =>
      simp only [cpuStep] at step
      (try split at step) <;> (try split at step) <;> (try split at step) <;> cases step <;> rfl
  | get site =>
      simp only [cpuStep] at step
      split at step
      · cases step
        rfl
      · cases step
        dsimp only
        split <;> rfl
  | recheck =>
      cases proc with
      | none =>
          cases step
          cases done : k.done <;> rfl
      | some p =>
          cases step
          rfl
  | run p =>
      cases step
      dsimp only
      split <;> rfl
  | exited => cases step
  | _ =>
      cases step
      rfl

/-- A step of a CPU is a move of its device. -/
theorem stepCpu_move {s t : Os cfg} {i : Fin cfg.numCpus} (step : s.stepCpu i = some t) :
    Move s t (.cpu i) (s.event (.cpu i)) := by
  obtain ⟨ready, k, c, ran, rfl⟩ := stepCpu_eq_some.mp step
  have dst := cpuStep_place ran
  have here : ({ s.cpuSync i with dispatch := s.dispatch.setCpu i k c } : Os cfg).place (.cpu i) =
      c.pc.place := by
    simp only [place, Dispatch.setCpu_cpu_self]
  have src : s.place (.cpu i) = (s.dispatch.cpu i).pc.place := rfl
  cases pc : (s.dispatch.cpu i).pc with
  | waitTurn =>
      simp only [pc] at dst
      simp only [cpuReady, pc, decide_eq_true_eq] at ready
      simp only [event, pc]
      refine .enter ready (by rw [src, pc]; rfl) (here.trans dst) ?_ ?_
      · simp only [cpuSync, pc]
      · simp only [cpuSync, pc]
  | signal ran =>
      simp only [pc] at dst
      simp only [event, pc]
      refine .leave (by rw [src, pc]; rfl) (here.trans dst) ?_ ?_
      · simp only [cpuSync, pc, signalNextCpu]
      · intro j same
        cases same
        simp only [cpuSync, pc, signalNextCpu, nextTurn_cpu]
  | signalStop =>
      simp only [pc] at dst
      simp only [event, pc]
      refine .quit (by rw [src, pc]; rfl) (here.trans dst) ?_ ?_
      · simp only [cpuSync, pc, signalNextCpu]
      · intro j same
        cases same
        simp only [cpuSync, pc, signalNextCpu, nextTurn_cpu]
  | slotDone =>
      simp only [pc] at dst
      simp only [event, pc]
      refine .post (by rw [src, pc]; rfl) (here.trans dst) ?_ ?_
      · simp only [cpuSync, pc, slotDone, Function.update_self]
      · simp only [cpuSync, pc, slotDone]
  | slotWait =>
      simp only [pc] at dst
      simp only [cpuReady, pc, Bool.not_eq_true'] at ready
      simp only [event, pc]
      refine .wake (by rw [src, pc]; rfl) (here.trans dst) ready ?_ ?_
      · simp only [cpuSync, pc]
      · simp only [cpuSync, pc]
  | detach =>
      simp only [pc] at dst
      simp only [event, pc]
      refine .finish (by rw [src, pc]; rfl) (here.trans dst) ?_ ?_
      · simp only [cpuSync, pc, detachEvent, Function.update_self]
      · simp only [cpuSync, pc, detachEvent]
  | exited => simp [cpuStep, pc] at ran
  | markInactive =>
      simp only [pc] at dst
      simp only [event, pc]
      refine .work (by rw [src, pc]; rfl) (here.trans dst) ?_ ?_
      · simp only [cpuSync, pc, markCpuInactive]
      · intro _
        simp only [cpuSync, pc, markCpuInactive]
  | _ =>
      simp only [pc] at dst
      simp only [event, pc]
      refine .work (by rw [src, pc]; rfl) (here.trans dst) ?_ ?_
      · simp only [cpuSync, pc]
      · intro _
        simp only [cpuSync, pc]

theorem stepLd_frame {s t : Os cfg} (step : s.stepLd = some t) : Frame s t .ld := by
  have cases_ld : ∀ e : Dev cfg.numCpus, e ≠ .ld → ∃ j, e = .cpu j := by
    intro e other
    cases e with
    | ld => exact absurd rfl other
    | cpu j => exact ⟨j, rfl⟩
  unfold stepLd at step
  split at step <;> (try split at step) <;> cases step <;>
    refine ⟨?_, ?_, rfl, rfl, rfl, rfl⟩ <;> intro e other <;>
    obtain ⟨j, rfl⟩ := cases_ld e other <;> rfl

/-- A step of the loader is a move of its device. -/
theorem stepLd_move {s t : Os cfg} (step : s.stepLd = some t) : Move s t .ld (s.event .ld) := by
  have src : s.place .ld = s.ld.place := rfl
  unfold stepLd at step
  cases pc : s.ld with
  | startWait =>
      simp only [pc, Option.ite_none_right_eq_some, Option.some.injEq] at step
      obtain ⟨turn, rfl⟩ := step
      simp only [event, pc]
      exact .enter turn (by rw [src, pc]; rfl) rfl rfl rfl
  | waitTurn next =>
      simp only [pc, Option.ite_none_right_eq_some, Option.some.injEq] at step
      obtain ⟨turn, rfl⟩ := step
      simp only [event, pc]
      refine .enter turn (by rw [src, pc]; rfl) ?_ rfl rfl
      cases next <;> rfl
  | inner p =>
      simp only [pc] at step
      simp only [event, pc]
      split at step
      · rename_i early
        cases step
        rw [if_pos early]
        refine .leave (by rw [src, pc]; rfl) rfl rfl ?_
        intro i same
        cases same
      · rename_i due
        cases step
        rw [if_neg due]
        exact .work (by rw [src, pc]; rfl) rfl rfl fun other => absurd rfl other
  | addSignal =>
      simp only [pc, Option.some.injEq] at step
      subst step
      simp only [event, pc]
      refine .leave (by rw [src, pc]; rfl) rfl rfl ?_
      intro i same
      cases same
  | setDone =>
      simp only [pc, Option.some.injEq] at step
      subst step
      simp only [event, pc]
      refine .quit (by rw [src, pc]; rfl) rfl rfl ?_
      intro i same
      cases same
  | slotDone next =>
      simp only [pc, Option.some.injEq] at step
      subst step
      simp only [event, pc]
      exact .post (by rw [src, pc]; rfl) rfl rfl rfl
  | slotWait next =>
      simp only [pc] at step
      split at step
      · cases step
      · rename_i released
        cases step
        simp only [event, pc]
        exact .wake (by rw [src, pc]; rfl) rfl (Bool.not_eq_true _ ▸ released) rfl rfl
  | detach =>
      simp only [pc, Option.some.injEq] at step
      subst step
      simp only [event, pc]
      exact .finish (by rw [src, pc]; rfl) rfl rfl rfl
  | exited => simp [pc] at step
  | loopHead =>
      simp only [pc] at step
      simp only [event, pc]
      split at step <;> cases step <;>
        exact .work (by rw [src, pc]; rfl) rfl rfl fun other => absurd rfl other
  | _ =>
      simp only [pc, Option.some.injEq] at step
      subst step
      simp only [event, pc]
      exact .work (by rw [src, pc]; rfl) rfl rfl fun other => absurd rfl other

end Os
end SimpleOs
