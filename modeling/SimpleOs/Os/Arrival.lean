import SimpleOs.Os.Determinism
import SimpleOs.Os.Simulation
import SimpleOs.Os.SlotWork

/-!
# Processes arrive in list order

The loader calls `add_proc` in its body, which comes last in a slot, and at most
once in each. `earliest` is the first slot in which it may do so again. What is
added arrived before that slot, what is not yet added arrives no earlier, and that
decides the slot of every call.

That a call is made at all does not depend on the schedule: within a slot every
step brings some thread nearer to the point where it waits for the timer.
-/

namespace SimpleOs

open Rounds (Event)

/-- The slot in which process `i` arrives: its start time, but not before the slot
after the arrival of the process before it. -/
def Config.arrivalAt (cfg : Config) : (i : Nat) → i < cfg.numProcesses → Nat
  | 0, first => cfg.startTime ⟨0, first⟩
  | i + 1, more =>
    max (cfg.startTime ⟨i + 1, more⟩) (cfg.arrivalAt i (Nat.lt_of_succ_lt more) + 1)

namespace Config

variable (cfg : Config)

def arrival (p : cfg.Proc) : Nat := cfg.arrivalAt p.val p.isLt

/-- All arrivals, in the order of the configuration. -/
def arrivals : List (Nat × cfg.Proc) :=
  (List.finRange cfg.numProcesses).map fun p => (cfg.arrival p, p)

/-- A slot by which all processes have arrived. -/
def lastSlot : Nat := Finset.univ.sup fun p => cfg.arrival p + 1

theorem startTime_le_arrival (p : cfg.Proc) : cfg.startTime p ≤ cfg.arrival p := by
  obtain ⟨i, bound⟩ := p
  cases i with
  | zero => exact Nat.le_refl _
  | succ i => exact Nat.le_max_left _ _

theorem arrivalAt_lt {i j : Nat} (before : i < j) (bound : j < cfg.numProcesses) :
    cfg.arrivalAt i (Nat.lt_trans before bound) < cfg.arrivalAt j bound := by
  induction j with
  | zero => exact absurd before (Nat.not_lt_zero i)
  | succ j ih =>
      have next : cfg.arrivalAt j (Nat.lt_of_succ_lt bound) < cfg.arrivalAt (j + 1) bound :=
        Nat.lt_of_succ_le (Nat.le_max_right _ _)
      obtain earlier | rfl := Nat.lt_succ_iff_lt_or_eq.mp before
      · exact (ih earlier (Nat.lt_of_succ_lt bound)).trans next
      · exact next

/-- Processes arrive in different slots, in the order of the configuration. -/
theorem arrival_strictMono : StrictMono cfg.arrival :=
  fun _ q before => cfg.arrivalAt_lt before q.isLt

/-- A process arrives once its start time is reached and those before it have arrived. -/
theorem arrival_le {p : cfg.Proc} {t : Nat} (due : cfg.startTime p ≤ t)
    (earlier : ∀ q < p, cfg.arrival q < t) : cfg.arrival p ≤ t := by
  obtain ⟨i, bound⟩ := p
  cases i with
  | zero => exact due
  | succ i =>
      have last := earlier ⟨i, Nat.lt_of_succ_lt bound⟩ (Nat.lt_succ_self i)
      exact Nat.max_le.mpr ⟨due, last⟩

theorem arrival_lt_lastSlot (p : cfg.Proc) : cfg.arrival p < cfg.lastSlot :=
  Finset.le_sup (f := fun p => cfg.arrival p + 1) (Finset.mem_univ p)

end Config

/-- The `add_proc` calls of a log, with their slots. -/
def addCalls {P : Type*} {n : Nat} (log : List (Nat × SchedEvent P n)) : List (Nat × P) :=
  log.filterMap fun
    | (t, .addProc p) => some (t, p)
    | _ => none

theorem addCalls_append {P : Type*} {n : Nat} (log log' : List (Nat × SchedEvent P n)) :
    addCalls (log ++ log') = addCalls log ++ addCalls log' :=
  List.filterMap_append

theorem mem_addCalls {P : Type*} {n : Nat} {log : List (Nat × SchedEvent P n)} {t : Nat} {p : P} :
    (t, p) ∈ addCalls log ↔ (t, .addProc p) ∈ log := by
  constructor
  · intro member
    obtain ⟨⟨u, e⟩, logged, call⟩ := List.mem_filterMap.mp member
    cases e with
    | addProc q =>
        cases call
        exact logged
    | _ => cases call
  · exact fun logged => List.mem_filterMap.mpr ⟨_, logged, rfl⟩

/-- Neither about to add a process nor out of the loop. -/
def LdPc.calm {P : Type*} : LdPc P → Bool
  | .addProc _ => false
  | .detach => false
  | .exited => false
  | _ => true

namespace Os

variable {cfg : Config}

/-! ## The slot of a call -/

/-- The first slot in which the loader may call `add_proc` from now on. -/
def earliest (s : Os cfg) : Nat :=
  match s.ld with
  | .addSignal => s.time + 1
  | .slotDone _ => s.time + 1
  | .slotWait _ => if s.stage .ld = .after then s.time + 1 else s.time
  | _ => s.time

/-- The processes added are those that arrived before `earliest`. -/
structure Due (s : Os cfg) : Prop where
  added : ∀ p : cfg.Proc, p.val < s.dispatch.kernel.loaded → cfg.arrival p < s.earliest
  coming : ∀ p : cfg.Proc, s.dispatch.kernel.loaded ≤ p.val → s.earliest ≤ cfg.arrival p
  now : ∀ p, s.ld = .addProc p → s.time = cfg.arrival p
  ended : s.place .ld = .detach ∨ s.place .ld = .exited →
    cfg.numProcesses ≤ s.dispatch.kernel.loaded

theorem due_start : Due (start cfg) where
  added := by
    intro p loaded
    exact absurd loaded (Nat.not_lt_zero _)
  coming := fun p _ => Nat.zero_le _
  now := by
    intro p at_add
    cases at_add
  ended := by
    rintro (at_end | at_end) <;> cases at_end

theorem time_le_earliest (s : Os cfg) : s.time ≤ s.earliest := by
  unfold earliest
  split <;> (try split) <;> omega

/-- The loader stays where it is, in a slot where nothing changes for it. -/
theorem Due.congr {s t : Os cfg} (due : Due s) (ld : t.ld = s.ld)
    (loaded : t.dispatch.kernel.loaded = s.dispatch.kernel.loaded) (time : t.time = s.time)
    (stage : t.stage .ld = s.stage .ld) : Due t := by
  have same : t.earliest = s.earliest := by
    unfold earliest
    rw [ld, time, stage]
  refine ⟨?_, ?_, ?_, ?_⟩
  · rw [same, loaded]
    exact due.added
  · rw [same, loaded]
    exact due.coming
  · rw [ld, time]
    exact due.now
  · simp only [place, ld, loaded]
    exact due.ended

/-- The loader goes on without an `add_proc`, and may call it in the same slots. -/
theorem Due.goOn {s t : Os cfg} (due : Due s)
    (loaded : t.dispatch.kernel.loaded = s.dispatch.kernel.loaded)
    (same : t.earliest = s.earliest) (later : ∀ p, t.ld ≠ .addProc p)
    (ended : t.place .ld = .detach ∨ t.place .ld = .exited →
      cfg.numProcesses ≤ s.dispatch.kernel.loaded) : Due t := by
  refine ⟨?_, ?_, fun p at_add => absurd at_add (later p), ?_⟩
  · rw [same, loaded]
    exact due.added
  · rw [same, loaded]
    exact due.coming
  · rw [loaded]
    exact ended

/-- The loader goes on within its loop. -/
theorem Due.calm {s t : Os cfg} (due : Due s)
    (loaded : t.dispatch.kernel.loaded = s.dispatch.kernel.loaded)
    (same : t.earliest = s.earliest) (calm : t.ld.calm = true) : Due t := by
  refine due.goOn loaded same ?_ ?_
  · intro p at_add
    simp [LdPc.calm, at_add] at calm
  · intro at_end
    simp only [place] at at_end
    cases pc : t.ld <;> simp_all [LdPc.calm, LdPc.place]

/-- The start time is still to come, and no process arrives in this slot. -/
theorem Due.early {s : Os cfg} (loading : Loading s) (due : Due s) {p : cfg.Proc}
    (pc : s.ld = .inner p) (early : s.time < cfg.startTime p) :
    Due (s.goLd (.slotDone (some p))) := by
  have next : p.val = s.dispatch.kernel.loaded := loading.proc p (by rw [pc]; rfl)
  have here : s.earliest = s.time := by rw [earliest, pc]
  have later : (s.goLd (.slotDone (some p))).earliest = s.time + 1 := rfl
  refine ⟨?_, ?_, ?_, ?_⟩
  · intro q loaded
    have arrived := due.added q loaded
    rw [here] at arrived
    rw [later]
    exact Nat.lt_succ_of_lt arrived
  · intro q unloaded
    have first : p ≤ q := by
      rw [Fin.le_def, next]
      exact unloaded
    have waits := (cfg.startTime_le_arrival p).trans (cfg.arrival_strictMono.monotone first)
    rw [later]
    exact Nat.lt_of_lt_of_le early waits
  · intro q at_add
    cases at_add
  · rintro (at_end | at_end) <;> cases at_end

/-- The start time is reached, and the process arrives in this slot. -/
theorem Due.reached {s : Os cfg} (loading : Loading s) (due : Due s) {p : cfg.Proc}
    (pc : s.ld = .inner p) (reached : cfg.startTime p ≤ s.time) : Due (s.goLd (.addProc p)) := by
  have next : p.val = s.dispatch.kernel.loaded := loading.proc p (by rw [pc]; rfl)
  have here : s.earliest = s.time := by rw [earliest, pc]
  have added := due.added
  have coming := due.coming
  rw [here] at added coming
  refine ⟨added, coming, ?_, ?_⟩
  · intro q at_add
    cases at_add
    have arrived : cfg.arrival p ≤ s.time := by
      refine cfg.arrival_le reached fun q before => added q ?_
      rw [← next]
      exact before
    exact Nat.le_antisymm (coming p (Nat.le_of_eq next.symm)) arrived
  · rintro (at_end | at_end) <;> cases at_end

/-- The process is added, and the next one comes in a later slot. -/
theorem Due.addProc {s : Os cfg} (loading : Loading s) (due : Due s) {p : cfg.Proc}
    (pc : s.ld = .addProc p) :
    Due ((s.setKernel (s.dispatch.kernel.addProc p)).goLd .addSignal) := by
  have next : p.val = s.dispatch.kernel.loaded := loading.proc p (by rw [pc]; rfl)
  have now := due.now p pc
  have later : ((s.setKernel (s.dispatch.kernel.addProc p)).goLd .addSignal).earliest =
      s.time + 1 := rfl
  refine ⟨?_, ?_, ?_, ?_⟩
  · intro q loaded
    have upto : q ≤ p := by
      rw [Fin.le_def, next]
      exact Nat.le_of_lt_succ loaded
    have arrived := cfg.arrival_strictMono.monotone upto
    omega
  · intro q unloaded
    have after : p < q := by
      rw [Fin.lt_def, next]
      exact unloaded
    have arrives := cfg.arrival_strictMono after
    omega
  · intro q at_add
    cases at_add
  · rintro (at_end | at_end) <;> cases at_end

/-- In `next_slot` the slot is over for the loader, until the timer opens the next one. -/
theorem Due.slotDone {s : Os cfg} (inv : s.Inv) (due : Due s) {next : Option cfg.Proc}
    (pc : s.ld = .slotDone next) : Due ((s.slotDone .ld).goLd (.slotWait next)) := by
  have src : s.place .ld = .slotDone := by rw [place, pc]; rfl
  have there : ((s.slotDone .ld).goLd (.slotWait next)).place .ld = .slotWait := rfl
  have done : (((s.slotDone .ld).goLd (.slotWait next)).dev .ld).done = true := by
    simp [goLd, Os.slotDone]
  have waits : ((s.slotDone .ld).goLd (.slotWait next)).pending .ld = false :=
    inv.flags.not_pending (by simp [src]) (by simp [src])
  have stays : ((s.slotDone .ld).goLd (.slotWait next)).stage .ld = .after := by
    simp [Os.stage, there, done, waits]
  refine due.calm rfl ?_ rfl
  rw [earliest, earliest, pc]
  exact if_pos stays

theorem Due.slotWait {s : Os cfg} (due : Due s) {next : Option cfg.Proc}
    (pc : s.ld = .slotWait next) (released : (s.dev .ld).done = false) :
    Due (s.goLd (.waitTurn next)) := by
  have src : s.place .ld = .slotWait := by rw [place, pc]; rfl
  have early : s.stage .ld = .before := by simp [Os.stage, src, released]
  refine due.calm rfl ?_ rfl
  rw [earliest, earliest, pc, early]
  rfl

theorem Due.stepLd {s t : Os cfg} (inv : s.Inv) (loading : Loading s) (due : Due s)
    (step : s.stepLd = some t) : Due t := by
  unfold Os.stepLd at step
  cases pc : s.ld with
  | inner p =>
      simp only [pc] at step
      split at step
      · rename_i early
        cases step
        exact due.early loading pc early
      · rename_i reached
        cases step
        exact due.reached loading pc (Nat.le_of_not_lt reached)
  | addProc p =>
      simp only [pc, Option.some.injEq] at step
      exact step ▸ due.addProc loading pc
  | slotDone next =>
      simp only [pc, Option.some.injEq] at step
      exact step ▸ due.slotDone inv pc
  | slotWait next =>
      simp only [pc, Option.ite_none_left_eq_some, Option.some.injEq] at step
      obtain ⟨released, rfl⟩ := step
      exact due.slotWait pc (Bool.not_eq_true _ ▸ released)
  | setDone =>
      have all := loading.last (.inr pc)
      simp only [pc, Option.some.injEq] at step
      subst step
      exact due.goOn rfl (by rw [earliest, earliest, pc]; rfl) (by rintro p at_add; cases at_add)
        fun _ => all
  | detach =>
      have all := due.ended (.inl (by rw [place, pc]; rfl))
      simp only [pc, Option.some.injEq] at step
      subst step
      exact due.goOn rfl (by rw [earliest, earliest, pc]; rfl) (by rintro p at_add; cases at_add)
        fun _ => all
  | exited => simp [pc] at step
  | loopHead =>
      simp only [pc] at step
      split at step <;> cases step <;>
        exact due.calm rfl (by rw [earliest, earliest, pc]; rfl) rfl
  | waitTurn next =>
      simp only [pc, Option.ite_none_right_eq_some, Option.some.injEq] at step
      obtain ⟨_, rfl⟩ := step
      cases next <;> exact due.calm rfl (by rw [earliest, earliest, pc]; rfl) rfl
  | startWait =>
      simp only [pc, Option.ite_none_right_eq_some, Option.some.injEq] at step
      obtain ⟨_, rfl⟩ := step
      exact due.calm rfl (by rw [earliest, earliest, pc]; rfl) rfl
  | _ =>
      simp only [pc, Option.some.injEq] at step
      subst step
      exact due.calm rfl (by rw [earliest, earliest, pc]; rfl) rfl

/-- The timer opens the next slot; the loader waits for it, or is gone. -/
theorem Due.tick {s : Os cfg} {fsh : Nat} (inv : s.Inv) (due : Due s)
    (timer : s.timer = .check [] fsh) : Due (s.openSlot.goTimer (.reset fsh)) := by
  let t : Os cfg := s.openSlot.goTimer (.reset fsh)
  have after : t.Inv := inv.openSlot timer
  have counted := inv.counted
  rw [Counted, timer] at counted
  obtain ⟨checked, split, ready, _⟩ := counted
  rw [List.append_nil] at split
  have seen := ready .ld (split ▸ mem_devList .ld)
  have through := stage_of_ready inv.flags seen (by simp [pending, timer])
  have next := after.flags.stage_of_pending (d := .ld) rfl
  obtain ⟨waits, _⟩ | exited := inv.flags.place_of_ready seen
  · obtain ⟨next', pc⟩ : ∃ next, s.ld = .slotWait next := by
      simp only [place] at waits
      cases pc : s.ld <;> simp_all [LdPc.place]
    have old : s.stage .ld = .after := by
      refine through.resolve_right fun gone => ?_
      rw [stage_gone_iff, waits] at gone
      cases gone
    have new : t.stage .ld = .before := by
      refine next.resolve_right fun gone => ?_
      rw [stage_gone_iff] at gone
      exact absurd (waits.symm.trans gone) (by simp)
    have later : t.earliest = s.time + 1 := by
      have here : t.ld = .slotWait next' := pc
      rw [earliest, here, new]
      rfl
    have before : s.earliest = s.time + 1 := by
      rw [earliest, pc, old]
      rfl
    refine due.goOn rfl (later.trans before.symm) ?_ ?_
    · intro p at_add
      exact absurd (pc.symm.trans at_add) (by simp)
    · intro at_end
      exact due.ended at_end
  · have all := due.ended (.inr exited)
    have pc : s.ld = .exited := by
      simp only [place] at exited
      cases pc : s.ld <;> simp_all [LdPc.place]
    have here : t.ld = .exited := pc
    refine ⟨?_, ?_, ?_, fun _ => all⟩
    · intro p loaded
      have arrived := due.added p loaded
      change cfg.arrival p < t.earliest
      rw [earliest, pc] at arrived
      rw [earliest, here]
      exact Nat.lt_succ_of_lt arrived
    · intro p unloaded
      exact absurd (Nat.lt_of_lt_of_le p.isLt all) (Nat.not_lt.mpr unloaded)
    · intro p at_add
      exact absurd (pc.symm.trans at_add) (by simp)

/-- Only an `add_proc` counts a process as loaded. -/
theorem loaded_of_step {s t : Os cfg} {a : Action cfg} (step : (system cfg).step s a = some t)
    (noCall : ∀ p, ¬(a = .ld ∧ s.ld = .addProc p)) :
    t.dispatch.kernel.loaded = s.dispatch.kernel.loaded := by
  cases a with
  | cpu i =>
      obtain ⟨_, k, c, ran, rfl⟩ := stepCpu_eq_some.mp step
      exact (cpuStep_loader ran).1
  | ld =>
      change s.stepLd = some t at step
      unfold stepLd at step
      split at step <;> (try split at step) <;> cases step <;> try rfl
      exact absurd ⟨rfl, ‹_›⟩ (noCall _)
  | timer =>
      obtain ⟨dispatch, -⟩ := stepTimer_frame step
      rw [dispatch]
  | main =>
      obtain ⟨pc, stop, rfl⟩ := stepMain_frame step
      rfl

/-- Every step of every thread keeps what was and what is still to be added. -/
theorem Due.step {s t : Os cfg} {a : Action cfg} (inv : s.Inv) (loading : Loading s) (due : Due s)
    (step : (system cfg).step s a = some t) : Due t := by
  cases a with
  | cpu i =>
      have frame := stepCpu_frame step
      exact due.congr (ld_stepCpu step) (loaded_of_step step (by simp)) frame.time
        (frame.stage (by simp))
  | ld => exact due.stepLd inv loading step
  | timer =>
      cases event : s.event .timer with
      | none =>
          obtain ⟨-, ld, -⟩ := stepTimer_frame step
          obtain ⟨time, stages⟩ := (inv.stage_stepTimer step).2 event
          exact due.congr ld (loaded_of_step step (by simp)) time (stages .ld)
      | some e =>
          obtain ⟨fsh, timer, -⟩ := event_timer event
          change s.stepTimer = some t at step
          simp only [stepTimer, timer, Option.some.injEq] at step
          exact step ▸ due.tick inv timer
  | main =>
      obtain ⟨pc, stop, rfl⟩ := stepMain_frame step
      exact due.congr rfl rfl rfl (stage_congr (congrFun (place_congr rfl rfl) _) rfl rfl)

theorem due_of_reachable (few : cfg.numCpus ≤ 64) {s : Os cfg}
    (reachable : (system cfg).Reachable s) : Due s := by
  refine reachable.invariant ?_ fun s a t before due step =>
    due.step (inv_of_reachable few before) (dispatch_reachable before).2 step
  rintro s rfl
  exact due_start

/-! ## The log of a run -/

/-- A CPU is only handed a process that waits in a ready queue. -/
theorem waiting_of_getProc {i j : Fin cfg.numCpus} {k : Kernel cfg} {c : Cpu cfg.Proc} {p : cfg.Proc}
    (event : cpuSchedEvent i k c = some (.getProc j (some p))) :
    c.pc.place = .body ∧ ∃ l, p ∈ k.sched.levels l := by
  unfold cpuSchedEvent at event
  split at event
  · (try split at event) <;> (try split at event) <;> (try split at event) <;> cases event
  · rename_i site pc
    refine ⟨by rw [pc]; rfl, ?_⟩
    obtain ⟨s, ret, _⟩ | ⟨l, q, rest, s, ret, _, head, _⟩ | ⟨s, again, _⟩ :=
      k.sched.getMlqSection_cases
    · simp [ret] at event
    · simp only [ret, Option.some.injEq, SchedEvent.getProc.injEq] at event
      obtain ⟨_, rfl⟩ := event
      exact ⟨l, by simp [head]⟩
    · simp [again] at event
  · cases event
  · cases event
  · cases event

/-- While a CPU is in its body, the loader has the slot before it or is gone. -/
theorem earliest_of_inside {s : Os cfg} (inv : s.Inv) {i : Fin cfg.numCpus}
    (inside : s.stage (.cpu i) = .inside) : s.earliest = s.time := by
  obtain ⟨τ, cursor⟩ := inv.cursor
  have here : ((i : Nat) : Int) = τ := cursor.rank_of_inside inside
  have below := cursor.below .ld (by simp only [Dev.rank]; omega)
  have src : s.place .ld = s.ld.place := rfl
  unfold earliest
  cases pc : s.ld with
  | addSignal => simp [stage, src, pc, LdPc.place] at below
  | slotDone next => simp [stage, src, pc, LdPc.place] at below
  | slotWait next =>
      obtain early | gone := below
      · simp [early]
      · simp [gone]
  | _ => rfl

/-- A process is handed out in a slot after the one it arrived in. -/
theorem Due.arrived_of_getProc {s : Os cfg} {i j : Fin cfg.numCpus} {t : Nat} {p : cfg.Proc}
    (due : Due s) (inv : s.Inv) (owned : s.dispatch.Owned)
    (event : s.schedEvent (.cpu i) = some (t, .getProc j (some p))) : cfg.arrival p < t := by
  obtain ⟨e, call, same⟩ := Option.map_eq_some_iff.mp event
  obtain ⟨rfl, rfl⟩ := Prod.mk.inj same
  obtain ⟨body, l, waits⟩ := waiting_of_getProc call
  have loaded : p.val < s.dispatch.kernel.loaded := by
    by_contra unloaded
    have none := Custody.occurrences_eq_zero.mp (owned.fresh p (Nat.le_of_not_lt unloaded)) (.inl l)
    exact none waits
  have added := due.added p loaded
  rwa [earliest_of_inside inv ((s.stage_inside_iff _).mpr body)] at added

/-- What the log says about the processes added so far. -/
structure Logged (log : List (Nat × SchedEvent cfg.Proc cfg.numCpus)) (s : Os cfg) : Prop where
  calls : addCalls log = cfg.arrivals.take s.dispatch.kernel.loaded
  obtained : ∀ t i p, (t, .getProc i (some p)) ∈ log → cfg.arrival p < t

theorem logged_start : Logged [] (start cfg) where
  calls := rfl
  obtained := by
    intro t i p member
    cases member

/-- A step that is no `add_proc`. -/
theorem Logged.other {log : List (Nat × SchedEvent cfg.Proc cfg.numCpus)} {s t : Os cfg}
    {e : Option (Nat × SchedEvent cfg.Proc cfg.numCpus)} (logged : Logged log s)
    (loaded : t.dispatch.kernel.loaded = s.dispatch.kernel.loaded)
    (noCall : addCalls e.toList = [])
    (obtained : ∀ t i p, e = some (t, .getProc i (some p)) → cfg.arrival p < t) :
    Logged (log ++ e.toList) t := by
  refine ⟨?_, ?_⟩
  · rw [addCalls_append, noCall, List.append_nil, loaded]
    exact logged.calls
  · intro t i p member
    obtain old | new := List.mem_append.mp member
    · exact logged.obtained t i p old
    · exact obtained t i p (Option.mem_toList.mp new)

/-- An `add_proc` adds the next arrival to the log. -/
theorem Logged.add {log : List (Nat × SchedEvent cfg.Proc cfg.numCpus)} {s t : Os cfg} {p : cfg.Proc}
    (logged : Logged log s) (next : p.val = s.dispatch.kernel.loaded)
    (loaded : t.dispatch.kernel.loaded = s.dispatch.kernel.loaded + 1) :
    Logged (log ++ [(cfg.arrival p, .addProc p)]) t := by
  refine ⟨?_, ?_⟩
  · have bound : p.val < cfg.arrivals.length := by simp [Config.arrivals]
    have here : cfg.arrivals[p.val] = (cfg.arrival p, p) := by simp [Config.arrivals]
    rw [addCalls_append, logged.calls, loaded, ← next, List.take_succ_eq_append_getElem bound, here]
    rfl
  · intro t i q member
    obtain old | new := List.mem_append.mp member
    · exact logged.obtained t i q old
    · simp at new

/-- Only the loader makes `add_proc` calls. -/
theorem addProc_of_schedEvent {s : Os cfg} {a : Action cfg} {t : Nat} {p : cfg.Proc}
    (event : s.schedEvent a = some (t, .addProc p)) : a = .ld ∧ s.ld = .addProc p := by
  cases a with
  | cpu i =>
      obtain ⟨e, call, same⟩ := Option.map_eq_some_iff.mp event
      obtain ⟨_, rfl⟩ := Prod.mk.inj same
      simp only [cpuSchedEvent] at call
      (repeat' split at call) <;> cases call
  | ld =>
      simp only [schedEvent] at event
      split at event
      · cases event
        exact ⟨rfl, ‹_›⟩
      · cases event
  | timer => cases event
  | main => cases event

theorem Logged.step {log : List (Nat × SchedEvent cfg.Proc cfg.numCpus)} {s t : Os cfg}
    {a : Action cfg} (few : cfg.numCpus ≤ 64) (reachable : (system cfg).Reachable s)
    (logged : Logged log s) (step : (system cfg).step s a = some t) :
    Logged (log ++ (s.schedEvent a).toList) t := by
  have due := due_of_reachable few reachable
  by_cases call : ∃ p, a = .ld ∧ s.ld = .addProc p
  · obtain ⟨p, rfl, pc⟩ := call
    have next := (dispatch_reachable reachable).2.proc p (by rw [pc]; rfl)
    have now := due.now p pc
    change s.stepLd = some t at step
    simp only [stepLd, pc, Option.some.injEq] at step
    subst step
    simp only [schedEvent, pc, now]
    exact logged.add next rfl
  · have noCall := not_exists.mp call
    refine logged.other (loaded_of_step step noCall) ?_ ?_
    · refine List.eq_nil_iff_forall_not_mem.mpr ?_
      rintro ⟨u, p⟩ member
      exact noCall p (addProc_of_schedEvent (Option.mem_toList.mp (mem_addCalls.mp member)))
    · intro u j p event
      cases a with
      | cpu i =>
          exact due.arrived_of_getProc (inv_of_reachable few reachable)
            (owned_of_reachable reachable).1 event
      | ld =>
          simp only [schedEvent] at event
          split at event <;> cases event
      | timer => cases event
      | main => cases event

theorem logged_of_run (few : cfg.numCpus ≤ 64) {s : Os cfg} {as : List (Action cfg)}
    (run : (system cfg).run (start cfg) as = some s) :
    Logged ((system cfg).trace schedEvent (start cfg) as) s := by
  refine (TransitionSystem.trace_invariant (M := system cfg)
    (R := fun log s => (system cfg).Reachable s ∧ Logged log s)
    ?_ ⟨.init rfl, logged_start⟩ run).2
  rintro log s a t ⟨reachable, logged⟩ step
  exact ⟨reachable.step step, logged.step few reachable step⟩

/-- When the loader adds a process, all others that take part in the slot have had
their turn. -/
theorem ended_of_addProc {s : Os cfg} {as : List (Action cfg)} {p : cfg.Proc}
    (few : cfg.numCpus ≤ 64) (run : (system cfg).run (start cfg) as = some s)
    (at_add : s.ld = .addProc p) :
    Rounds.ended s.time ((system cfg).trace entry (start cfg) as) ++ [.ld] =
      Rounds.survivors (slotOrder cfg.numCpus) s.time
        ((system cfg).trace entry (start cfg) as) := by
  obtain ⟨r, shows, complete⟩ := history_complete few run
  have inv := inv_of_reachable few ((TransitionSystem.Reachable.init rfl).run run)
  obtain ⟨τ, cursor⟩ := inv.cursor
  have inside : s.stage .ld = .inside := by
    rw [stage_inside_iff, place, at_add]
    rfl
  have here : (-1 : Int) = τ := cursor.rank_of_inside inside
  have busy : r.busy = some .ld := (shows.busy .ld).mpr inside
  have todo : r.todo = [] := by
    rw [shows.todo]
    refine List.filter_eq_nil_iff.mpr fun d _ early => ?_
    have early : s.stage d = .before := of_decide_eq_true early
    cases d with
    | ld => simp [inside] at early
    | cpu i =>
        have through := cursor.above (.cpu i) (by simp only [Dev.rank]; omega)
        simp [early] at through
  have present := complete.present
  rw [todo, List.append_nil, ← complete.inside, busy] at present
  exact shows.time ▸ present

/-! ## Every process arrives -/

/-- After so many steps all processes have arrived, whatever the schedule. -/
def arrivalSteps (cfg : Config) : Nat := cfg.lastSlot * (slotWork cfg + 1)

theorem all_loaded (few : cfg.numCpus ≤ 64) {s : Os cfg} {as : List (Action cfg)}
    (run : (system cfg).run (start cfg) as = some s)
    (last : arrivalSteps cfg ≤ as.length ∨ ∀ a, (system cfg).step s a = none) :
    cfg.numProcesses ≤ s.dispatch.kernel.loaded := by
  have reachable : (system cfg).Reachable s := (TransitionSystem.Reachable.init rfl).run run
  have due := due_of_reachable few reachable
  obtain long | stuck := last
  · have first : (start cfg).time + cfg.lastSlot = cfg.lastSlot := Nat.zero_add _
    have rounds := (spends few).rounds_le (inv_start few) run (by rw [first]; exact long)
    rw [first] at rounds
    by_contra more
    let p : cfg.Proc := ⟨s.dispatch.kernel.loaded, Nat.lt_of_not_le more⟩
    have coming := due.coming p (Nat.le_refl _)
    have arrives := cfg.arrival_lt_lastSlot p
    have now := s.time_le_earliest
    omega
  · by_contra more
    have running : ¬ s.Finished := fun finished => more (due.ended (.inr (by
      simp only [place, finished.ld]
      rfl)))
    obtain ⟨a, t, step⟩ := progress (inv_of_reachable few reachable) running
    rw [stuck a] at step
    cases step

/-- The loader adds the processes in list order, each in the slot `max(s_i, t_{i-1} + 1)`
that its start time and the arrival before it allow, after all turns of the CPUs; no CPU
obtains a process in that slot or earlier. A slot that is over has seen its arrivals, and
so has a run of `arrivalSteps` steps or one that can go no further. -/
theorem arrivals_in_order (cfg : Config) (few : cfg.numCpus ≤ 64) (as : List (Action cfg))
    (s : Os cfg) (run : (system cfg).run (start cfg) as = some s) :
    addCalls ((system cfg).trace schedEvent (start cfg) as) <+: cfg.arrivals ∧
      (∀ p, cfg.arrival p < s.time →
        (cfg.arrival p, p) ∈ addCalls ((system cfg).trace schedEvent (start cfg) as)) ∧
      (∀ p, s.ld = .addProc p → s.time = cfg.arrival p ∧
        Rounds.ended s.time ((system cfg).trace entry (start cfg) as) ++ [.ld] =
          Rounds.survivors (slotOrder cfg.numCpus) s.time
            ((system cfg).trace entry (start cfg) as)) ∧
      (∀ t i p, (t, .getProc i (some p)) ∈ (system cfg).trace schedEvent (start cfg) as →
        cfg.arrival p < t) ∧
      (arrivalSteps cfg ≤ as.length ∨ (∀ a, (system cfg).step s a = none) →
        addCalls ((system cfg).trace schedEvent (start cfg) as) = cfg.arrivals) := by
  have reachable : (system cfg).Reachable s := (TransitionSystem.Reachable.init rfl).run run
  have due := due_of_reachable few reachable
  have logged := logged_of_run few run
  refine ⟨?_, ?_, ?_, logged.obtained, ?_⟩
  · rw [logged.calls]
    exact List.take_prefix _ _
  · intro p past
    have loaded : p.val < s.dispatch.kernel.loaded := by
      by_contra unloaded
      have coming := due.coming p (Nat.le_of_not_lt unloaded)
      have now := s.time_le_earliest
      omega
    have bound : p.val < cfg.arrivals.length := by simp [Config.arrivals]
    have here : cfg.arrivals[p.val] = (cfg.arrival p, p) := by simp [Config.arrivals]
    rw [logged.calls, ← here]
    exact List.mem_take_iff_getElem.mpr ⟨p.val, by omega, rfl⟩
  · exact fun p at_add => ⟨due.now p at_add, ended_of_addProc few run at_add⟩
  · intro last
    have all := all_loaded few run last
    rw [logged.calls]
    exact List.take_of_length_le (by simpa [Config.arrivals] using all)

/-- One CPU, and a process that starts later than the one listed after it. -/
def lateFirst : Config where
  timeSlot := 1
  numCpus := 1
  numProcesses := 2
  startTime := fun p => 1 - p.val
  prio := fun _ => 0
  size := fun _ => 1

def lateCpu : Fin lateFirst.numCpus := ⟨0, by decide⟩

/-- Three time slots: the loader waits in the first, and adds the processes in the
second and the third. -/
def threeSlots : List (Action lateFirst) :=
  [List.replicate 5 (.cpu lateCpu), List.replicate 5 .ld, List.replicate 8 .timer,
    List.replicate 6 (.cpu lateCpu), List.replicate 7 .ld, List.replicate 8 .timer,
    List.replicate 9 (.cpu lateCpu), List.replicate 5 .ld].flatten

example : lateFirst.arrivals = [(1, ⟨0, by decide⟩), (2, ⟨1, by decide⟩)] := by decide

theorem arrivals_in_order_lateFirst : ∃ s,
    (system lateFirst).run (start lateFirst) threeSlots = some s ∧ s.time = 2 ∧
      addCalls ((system lateFirst).trace schedEvent (start lateFirst) threeSlots) <+:
        lateFirst.arrivals ∧
      (1, ⟨0, by decide⟩) ∈ addCalls ((system lateFirst).trace schedEvent (start lateFirst) threeSlots) := by
  have runs : ((system lateFirst).run (start lateFirst) threeSlots).any
      (fun s => s.time = 2) = true := by
    decide +kernel
  obtain ⟨s, run, time⟩ := (Option.any_eq_true _ _).mp runs
  have time : s.time = 2 := of_decide_eq_true time
  let first : lateFirst.Proc := ⟨0, by decide⟩
  have arrives : lateFirst.arrival first = 1 := rfl
  obtain ⟨order, past, _⟩ := arrivals_in_order lateFirst (by decide) threeSlots s run
  exact ⟨s, run, time, order, past first (by rw [time, arrives]; decide)⟩

end Os
end SimpleOs
