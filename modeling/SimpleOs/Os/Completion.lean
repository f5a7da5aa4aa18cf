import SimpleOs.Os.Arrival
import SimpleOs.Os.Idle
import SimpleOs.Os.Population

/-!
# What is done when the CPUs have stopped

A queue that has room for every process of its priority never drops one, so a process
that was added is in custody until it has finished. The CPUs leave their loop only when
the queues are empty and the loader is done, and while a process is ready one of them has
not left. So once all of them have, all processes have finished.

A CPU leaves right after it has freed a process. There are never more CPUs out of the
loop than processes that have finished.
-/

namespace SimpleOs

open Custody (occurrences)

/-- No priority has more processes than its queue has room for. -/
def Config.Fits (cfg : Config) : Prop :=
  ∀ l, (Finset.univ.filter fun p => cfg.prio p = l).card ≤ maxQueueSize

instance (cfg : Config) : Decidable cfg.Fits :=
  inferInstanceAs (Decidable (∀ l, (Finset.univ.filter fun p => cfg.prio p = l).card ≤ maxQueueSize))

namespace Dispatch

variable {cfg : Config} {s t : Dispatch cfg}

/-! ## No insertion is dropped -/

theorem occurrences_of_waits {l : Prio} {p : cfg.Proc} (waits : p ∈ s.kernel.sched.levels l) :
    occurrences s.places p ≠ 0 := by
  have here : p ∈ s.places (.inl l) := waits
  exact Custody.occurrences_ne_zero here

theorem occurrences_of_held {i : Fin cfg.numCpus} {p : cfg.Proc} (held : (s.cpu i).held = some p) :
    occurrences s.places p ≠ 0 := by
  refine Custody.occurrences_ne_zero (i := .inr i) ?_
  rw [places_inr, held]
  exact List.mem_singleton_self p

/-- A CPU does not hold a process that has been freed. -/
theorem Owned.alive (owned : Owned s) {i : Fin cfg.numCpus} {p : cfg.Proc}
    (held : (s.cpu i).held = some p) : s.kernel.freed p = false :=
  eq_false_of_ne_true fun dead => occurrences_of_held held (owned.gone p dead).2

/-- The queue of a process that is not in it has room. -/
theorem Owned.length_lt (owned : Owned s) (fits : cfg.Fits) {p : cfg.Proc}
    (away : p ∉ s.kernel.sched.levels (cfg.prio p)) :
    (s.kernel.sched.levels (cfg.prio p)).length < maxQueueSize := by
  have once : (s.kernel.sched.levels (cfg.prio p)).Nodup := by
    refine List.nodup_iff_count_le_one.mpr fun q => ?_
    exact (Custody.count_le_occurrences s.places (.inl (cfg.prio p)) q).trans (owned.exclusive q)
  have others : (s.kernel.sched.levels (cfg.prio p)).toFinset ⊂
      Finset.univ.filter fun q => cfg.prio q = cfg.prio p := by
    refine Finset.ssubset_iff_of_subset ?_ |>.mpr ⟨p, by simp, by simpa using away⟩
    intro q waits
    simpa using owned.filed _ q (List.mem_toFinset.mp waits)
  have fewer := Finset.card_lt_card others
  rw [List.toFinset_card_of_nodup once] at fewer
  exact Nat.lt_of_lt_of_le fewer (fits (cfg.prio p))

theorem Owned.room (owned : Owned s) (fits : cfg.Fits) : ∀ a, s.Room a := by
  intro a
  cases a with
  | ld =>
      intro more
      refine owned.length_lt fits fun waits => ?_
      exact occurrences_of_waits waits (owned.fresh _ (Nat.le_refl _))
  | cpu i =>
      intro p dropped
      refine absurd dropped.full (Nat.not_le.mpr (owned.length_lt fits fun waits => ?_))
      have here : p ∈ s.places (.inr i) := by
        rw [places_inr, dropped.current]
        exact List.mem_singleton_self p
      exact absurd (owned.exclusive.unique (i := .inl _) waits here) Sum.inl_ne_inr

/-- What has been added and has not finished is in custody. -/
def Present (s : Dispatch cfg) : Prop :=
  ∀ p : cfg.Proc, p.val < s.kernel.loaded → s.kernel.freed p = false → occurrences s.places p ≠ 0

/-- What has been freed has executed all its instructions. -/
def Spent (s : Dispatch cfg) : Prop :=
  ∀ p, s.kernel.freed p = true → s.kernel.pcOf p = cfg.size p

theorem Spent.step (owned : Owned s) (fetched : Fetched s) (spent : s.Spent) {a : Action cfg}
    (step : (system cfg).step s a = some t) : t.Spent := by
  cases a with
  | ld => obtain ⟨more, rfl⟩ | rfl := step_ld step <;> exact spent
  | cpu i =>
      obtain ⟨k, c, ran, rfl⟩ := step_cpu.mp step
      -- the process that a CPU advances is in custody, so it is not freed
      have kept : ∀ p, s.kernel.freed p = true → k.pcOf p = s.kernel.pcOf p := by
        intro p dead
        obtain same | ⟨q, n, executes, advanced⟩ := cpuStep_pcOf ran
        · rw [same]
        · have apart : p ≠ q := by
            rintro rfl
            rw [owned.alive (fetched.fetched i p n executes).1] at dead
            cases dead
          rw [advanced, Function.update_of_ne apart]
      intro p dead
      rw [setCpu_kernel] at dead ⊢
      have before : s.kernel.freed p = true → k.pcOf p = cfg.size p :=
        fun freed => (kept p freed).trans (spent p freed)
      cases cpuStep_effect ran with
      | keep _ _ freed => exact before (freed ▸ dead)
      | put _ _ _ _ _ _ _ freed => exact before (freed ▸ dead)
      | dispatch _ _ _ _ _ _ _ freed => exact before (freed ▸ dead)
      | free q check _ finished _ _ freed =>
          rw [freed] at dead
          by_cases same : p = q
          · subst same
            obtain same | ⟨_, _, executes, _⟩ := cpuStep_pcOf ran
            · rw [same, finished]
            · rw [check] at executes
              cases executes
          · rw [Function.update_of_ne same] at dead
            exact before dead

theorem present_of_reachable (fits : cfg.Fits) (reachable : (system cfg).Reachable s) :
    s.Present ∧ s.Spent := by
  suffices all : s.Owned ∧ s.Fetched ∧ s.Present ∧ s.Spent from all.2.2
  refine reachable.invariant (P := fun s => s.Owned ∧ s.Fetched ∧ s.Present ∧ s.Spent) ?_ ?_
  · rintro s rfl
    refine ⟨owned_start, fetched_start, fun p none => absurd none (Nat.not_lt_zero _), ?_⟩
    intro p dead
    cases dead
  · rintro s a t - ⟨owned, fetched, present, spent⟩ step
    exact ⟨owned_step owned step, fetched_step owned fetched step,
      kept_step present (owned.room fits a) step, spent.step owned fetched step⟩

/-- With at most as many processes of a priority as its queue holds, every insertion of
every run finds room, and no process is lost. -/
theorem noneLost_of_fits (cfg : Config) (fits : cfg.Fits) (as : List (Action cfg))
    (s : Dispatch cfg) (run : (system cfg).run (start cfg) as = some s) :
    (system cfg).StepsMeet Room (start cfg) as ∧ s.NoneLost := by
  refine ⟨?_, ?_⟩
  · suffices from_owned : ∀ as (s : Dispatch cfg), s.Owned → (system cfg).StepsMeet Room s as from
      from_owned as _ owned_start
    intro as
    induction as with
    | nil => exact fun _ _ => trivial
    | cons a as ih => exact fun s owned => ⟨owned.room fits a, fun t step => ih t (owned_step owned step)⟩
  · have reachable : (system cfg).Reachable s := (TransitionSystem.Reachable.init rfl).run run
    intro p added alive
    exact (run_invariant run).1.scheduled ((present_of_reachable fits reachable).1 p added alive)

/-- Two CPUs, and two processes of different priorities and sizes. -/
def twoProcesses : Config where
  timeSlot := 1
  numCpus := 2
  numProcesses := 2
  startTime := fun _ => 0
  prio := ![0, 1]
  size := fun p => 2 - p

def firstCpu : Fin twoProcesses.numCpus := ⟨0, by decide⟩

def secondCpu : Fin twoProcesses.numCpus := ⟨1, by decide⟩

/-- The loader adds both processes, and the CPUs execute them in turns. -/
def alternating : List (Action twoProcesses) :=
  [.ld, .ld] ++ (List.replicate 12 [.cpu firstCpu, .cpu secondCpu]).flatten

theorem noneLost_of_fits_two : ∃ s, (system twoProcesses).run (start twoProcesses) alternating =
    some s ∧ s.NoneLost := by
  have runs : ((system twoProcesses).run (start twoProcesses) alternating).isSome = true := by
    decide +kernel
  obtain ⟨s, run⟩ := Option.isSome_iff_exists.mp runs
  exact ⟨s, run, (noneLost_of_fits twoProcesses (by decide) alternating s run).2⟩

end Dispatch

/-- Out of the loop of `cpu_routine`, or about to leave it. -/
def CpuPc.leaving {P : Type*} : CpuPc P → Bool
  | .markInactive => true
  | .signalStop => true
  | .detach => true
  | .exited => true
  | _ => false

/-- `get_proc` has returned NULL to a CPU that had a process. -/
def Cpu.vacant {P : Type*} (c : Cpu P) : Prop := c.pc = .recheck ∧ c.proc = none

section Steps

variable {cfg : Config} {k k' : Kernel cfg} {c c' : Cpu cfg.Proc}

/-- A CPU leaves with no process, and when `done` is set. -/
theorem cpuStep_leaving (step : cpuStep k c = some (k', c')) (leaving : c'.pc.leaving = true) :
    (c.pc.leaving = true ∧ c'.proc = c.proc) ∨
      (c.vacant ∧ k.done = true ∧ c'.proc = none) := by
  obtain ⟨pc, proc, timeLeft⟩ := c
  cases pc with
  | recheck =>
      cases proc with
      | none =>
          cases step
          cases done : k.done with
          | true => exact .inr ⟨⟨rfl, rfl⟩, rfl, rfl⟩
          | false => simp [done, CpuPc.leaving] at leaving
      | some p =>
          cases step
          cases leaving
  | check =>
      simp only [cpuStep] at step
      (try split at step) <;> (try split at step) <;> (try split at step) <;> cases step <;>
        cases leaving
  | get site =>
      simp only [cpuStep] at step
      split at step
      · cases step
        cases leaving
      · cases step
        dsimp only at leaving
        split at leaving <;> cases leaving
  | run p =>
      cases step
      dsimp only at leaving
      split at leaving <;> cases leaving
  | exited => cases step
  | markInactive =>
      cases step
      exact .inl ⟨rfl, rfl⟩
  | signalStop =>
      cases step
      exact .inl ⟨rfl, rfl⟩
  | detach =>
      cases step
      exact .inl ⟨rfl, rfl⟩
  | _ =>
      cases step
      cases leaving

/-- `get_proc` returns NULL when all queues are empty. -/
theorem cpuStep_vacant (step : cpuStep k c = some (k', c')) (vacant : c'.vacant) :
    (c.pc = .get .finished ∨ c.pc = .get .expired) ∧ (∀ l, k.sched.levels l = []) ∧
      ∀ l, k'.sched.levels l = [] := by
  obtain ⟨pc, proc, timeLeft⟩ := c
  obtain ⟨at_recheck, none⟩ := vacant
  cases pc with
  | get site =>
      obtain ⟨s, ret, empty, same, _⟩ | ⟨l, p, rest, s, ret, _⟩ | ⟨s, again, _⟩ :=
        k.sched.getMlqSection_cases
      · simp only [cpuStep, ret, Option.some.injEq, Prod.mk.injEq] at step
        obtain ⟨rfl, rfl⟩ := step
        refine ⟨?_, empty, fun l => by rw [same]; exact empty l⟩
        cases site with
        | load => simp at at_recheck
        | finished => exact .inl rfl
        | expired => exact .inr rfl
      · simp only [cpuStep, ret, Option.some.injEq, Prod.mk.injEq] at step
        obtain ⟨rfl, rfl⟩ := step
        cases none
      · simp only [cpuStep, again, Option.some.injEq, Prod.mk.injEq] at step
        obtain ⟨rfl, rfl⟩ := step
        cases at_recheck
  | check =>
      cases proc with
      | none =>
          cases step
          cases at_recheck
      | some p =>
          simp only [cpuStep] at step
          split at step
          · cases step
            cases at_recheck
          · split at step <;> cases step
            · cases at_recheck
            · cases none
  | recheck =>
      cases proc with
      | none =>
          cases step
          cases done : k.done <;> simp [done] at at_recheck
      | some p =>
          cases step
          cases at_recheck
  | run p =>
      cases step
      dsimp only at at_recheck
      split at at_recheck <;> cases at_recheck
  | exited => cases step
  | _ =>
      cases step
      cases at_recheck

/-- Before it asks for another process, a CPU has put its own one back. -/
theorem cpuStep_expired (step : cpuStep k c = some (k', c')) (expired : c'.pc = .get .expired) :
    (c.pc = .get .expired ∧ k'.sched.levels = k.sched.levels) ∨
      ∃ l, k'.sched.levels l ≠ [] := by
  obtain ⟨pc, proc, timeLeft⟩ := c
  cases pc with
  | get site =>
      simp only [cpuStep] at step
      split at step
      · rename_i s again
        cases step
        obtain ⟨u, ret, _⟩ | ⟨l, p, rest, u, ret, _⟩ | ⟨u, again', _, _, same, _⟩ :=
          k.sched.getMlqSection_cases
        · rw [ret] at again
          cases again
        · rw [ret] at again
          cases again
        · rw [again'] at again
          cases again
          exact .inl ⟨expired, same⟩
      · cases step
        dsimp only at expired
        split at expired <;> cases expired
  | check =>
      cases proc with
      | none =>
          cases step
          cases expired
      | some p =>
          simp only [cpuStep] at step
          split at step
          · cases step
            cases expired
          · split at step <;> cases step
            · refine .inr ⟨cfg.prio p, ?_⟩
              rw [Sched.levels_putMlqProc]
              by_cases room : (k.sched.levels (cfg.prio p)).length < maxQueueSize
              · rw [StrictPriority.insert_of_room room, Function.update_self]
                simp
              · rw [StrictPriority.insert_of_full room]
                intro empty
                rw [empty] at room
                exact room (show 0 < maxQueueSize by decide)
            · cases expired
  | recheck =>
      cases proc with
      | none =>
          cases step
          cases done : k.done <;> simp [done] at expired
      | some p =>
          cases step
          cases expired
  | run p =>
      cases step
      dsimp only at expired
      split at expired <;> cases expired
  | exited => cases step
  | _ =>
      cases step
      cases expired

end Steps

namespace Os

variable {cfg : Config}

/-- The loader changes the kernel in its body only. -/
theorem stepLd_kernel {s t : Os cfg} (step : s.stepLd = some t) :
    t.dispatch.cpu = s.dispatch.cpu ∧ (t.dispatch.kernel = s.dispatch.kernel ∨
      s.place .ld = .body ∧ ((∃ p, s.ld = .addProc p ∧
        t.dispatch.kernel = s.dispatch.kernel.addProc p) ∨
          t.dispatch.kernel = s.dispatch.kernel.setDone)) := by
  unfold stepLd at step
  cases pc : s.ld with
  | addProc p =>
      simp only [pc, Option.some.injEq] at step
      subst step
      exact ⟨rfl, .inr ⟨by rw [place, pc]; rfl, .inl ⟨p, rfl, rfl⟩⟩⟩
  | setDone =>
      simp only [pc, Option.some.injEq] at step
      subst step
      exact ⟨rfl, .inr ⟨by rw [place, pc]; rfl, .inr rfl⟩⟩
  | _ =>
      simp only [pc] at step
      (try split at step) <;> cases step <;> exact ⟨rfl, .inl rfl⟩

/-- While a CPU is in its body, the others leave it and the kernel alone. -/
theorem kernel_of_inside {s t : Os cfg} {a : Action cfg} {i : Fin cfg.numCpus} (inv : s.Inv)
    (inside : s.place (.cpu i) = .body) (other : a ≠ .cpu i)
    (step : (system cfg).step s a = some t) :
    t.dispatch.kernel = s.dispatch.kernel ∧ t.dispatch.cpu i = s.dispatch.cpu i := by
  cases a with
  | cpu j =>
      obtain ⟨_, k, c, ran, rfl⟩ := stepCpu_eq_some.mp step
      have apart : j ≠ i := by
        rintro rfl
        exact other rfl
      have outside : (s.dispatch.cpu j).pc.place ≠ .body := by
        intro body
        have same := inv.inside_unique (d := .cpu j) (e := .cpu i)
          ((s.stage_inside_iff _).mpr body) ((s.stage_inside_iff _).mpr inside)
        cases same
        exact apart rfl
      exact ⟨cpuStep_outside outside ran, s.dispatch.setCpu_cpu_of_ne k c apart.symm⟩
  | ld =>
      obtain ⟨cpus, same | ⟨body, -⟩⟩ := stepLd_kernel step
      · exact ⟨same, congrFun cpus i⟩
      · have clash := inv.inside_unique (d := .ld) (e := .cpu i)
          ((s.stage_inside_iff _).mpr body) ((s.stage_inside_iff _).mpr inside)
        cases clash
  | timer =>
      obtain ⟨dispatch, -⟩ := stepTimer_frame step
      rw [dispatch]
      exact ⟨rfl, rfl⟩
  | main =>
      obtain ⟨pc, stop, rfl⟩ := stepMain_frame step
      exact ⟨rfl, rfl⟩

/-- Every CPU is left alone by the threads that are no CPU. -/
theorem cpu_of_noCpu {s t : Os cfg} {a : Action cfg} (noCpu : ∀ i, a ≠ .cpu i)
    (step : (system cfg).step s a = some t) : t.dispatch.cpu = s.dispatch.cpu := by
  cases a with
  | cpu i => exact absurd rfl (noCpu i)
  | ld => exact (stepLd_kernel step).1
  | timer => rw [(stepTimer_frame step).1]
  | main =>
      obtain ⟨pc, stop, rfl⟩ := stepMain_frame step
      rfl

/-! ## The CPUs that have left -/

/-- Who has left, or is about to, did so with nothing left to run. -/
structure Staffed (s : Os cfg) : Prop where
  left : ∀ i, (s.dispatch.cpu i).pc.leaving = true →
    s.dispatch.kernel.done = true ∧ (s.dispatch.cpu i).proc = none
  vacant : ∀ i, (s.dispatch.cpu i).vacant → ∀ l, s.dispatch.kernel.sched.levels l = []
  expired : ∀ i, (s.dispatch.cpu i).pc = .get .expired →
    ∃ l, s.dispatch.kernel.sched.levels l ≠ []
  staffed : (∃ l, s.dispatch.kernel.sched.levels l ≠ []) →
    ∃ i, (s.dispatch.cpu i).pc.leaving = false

theorem staffed_start : Staffed (start cfg) where
  left := by intro i leaving; cases leaving
  vacant := by
    rintro i ⟨at_recheck, -⟩
    cases at_recheck
  expired := by intro i expired; cases expired
  staffed := by
    rintro ⟨l, waits⟩
    exact absurd rfl waits

/-- A CPU that is about to receive a process, or has received none, is in its body. -/
theorem place_of_vacant {s : Os cfg} {i : Fin cfg.numCpus} (vacant : (s.dispatch.cpu i).vacant) :
    s.place (.cpu i) = .body := by
  rw [place, vacant.1]
  rfl

theorem place_of_get {s : Os cfg} {i : Fin cfg.numCpus} {site : GetSite}
    (getting : (s.dispatch.cpu i).pc = .get site) : s.place (.cpu i) = .body := by
  rw [place, getting]
  rfl

theorem Staffed.stepCpu {s t : Os cfg} {i : Fin cfg.numCpus} (inv : s.Inv) (staffed : Staffed s)
    (step : (system cfg).step s (.cpu i) = some t) : Staffed t := by
  have frame : ∀ j, j ≠ i → s.place (.cpu j) = .body →
      t.dispatch.kernel = s.dispatch.kernel ∧ t.dispatch.cpu j = s.dispatch.cpu j := by
    intro j apart inside
    exact kernel_of_inside inv inside (fun same => apart (Action.cpu.inj same).symm) step
  obtain ⟨_, k, c, ran, rfl⟩ := stepCpu_eq_some.mp step
  simp only [Dispatch.setCpu_kernel] at frame
  have done := (cpuStep_loader ran).2
  refine ⟨?_, ?_, ?_, ?_⟩
  · intro j leaving
    simp only [Dispatch.setCpu_kernel, done]
    by_cases here : j = i
    · subst here
      rw [Dispatch.setCpu_cpu_self] at leaving ⊢
      obtain ⟨before, same⟩ | ⟨-, now, none⟩ := cpuStep_leaving ran leaving
      · rw [same]
        exact staffed.left j before
      · exact ⟨now, none⟩
    · rw [Dispatch.setCpu_cpu_of_ne _ _ _ here] at leaving ⊢
      exact staffed.left j leaving
  · intro j vacant
    simp only [Dispatch.setCpu_kernel]
    by_cases here : j = i
    · subst here
      rw [Dispatch.setCpu_cpu_self] at vacant
      exact (cpuStep_vacant ran vacant).2.2
    · rw [Dispatch.setCpu_cpu_of_ne _ _ _ here] at vacant
      rw [(frame j here (place_of_vacant vacant)).1]
      exact staffed.vacant j vacant
  · intro j expired
    simp only [Dispatch.setCpu_kernel]
    by_cases here : j = i
    · subst here
      rw [Dispatch.setCpu_cpu_self] at expired
      obtain ⟨before, same⟩ | waits := cpuStep_expired ran expired
      · rw [same]
        exact staffed.expired j before
      · exact waits
    · rw [Dispatch.setCpu_cpu_of_ne _ _ _ here] at expired
      rw [(frame j here (place_of_get expired)).1]
      exact staffed.expired j expired
  · rintro ⟨l, waits⟩
    simp only [Dispatch.setCpu_kernel] at waits
    by_cases gone : c.pc.leaving = true
    · -- nothing waits where a CPU has just found nothing
      have levels : s.dispatch.kernel.sched.levels l ≠ [] := by
        cases cpuStep_effect ran with
        | keep levels _ _ => rwa [levels] at waits
        | free _ _ _ _ sched _ _ => rwa [sched] at waits
        | put _ check _ _ _ _ _ _ =>
            obtain ⟨before, -⟩ | ⟨vacant, -⟩ := cpuStep_leaving ran gone
            · rw [check] at before
              cases before
            · rw [vacant.1] at check
              cases check
        | dispatch l' p rest _ head levels _ _ =>
            rw [levels] at waits
            by_cases same : l = l'
            · subst same
              rw [head]
              exact List.cons_ne_nil _ _
            · rwa [Function.update_of_ne same] at waits
      obtain ⟨j, stays⟩ := staffed.staffed ⟨l, levels⟩
      refine ⟨j, ?_⟩
      have apart : j ≠ i := by
        rintro rfl
        obtain ⟨before, -⟩ | ⟨vacant, -⟩ := cpuStep_leaving ran gone
        · rw [before] at stays
          cases stays
        · exact levels (staffed.vacant j vacant l)
      rwa [Dispatch.setCpu_cpu_of_ne _ _ _ apart]
    · refine ⟨i, ?_⟩
      rw [Dispatch.setCpu_cpu_self]
      exact eq_false_of_ne_true gone

theorem Staffed.step {s t : Os cfg} {a : Action cfg} (cpus : 1 ≤ cfg.numCpus) (inv : s.Inv)
    (loading : Loading s) (staffed : Staffed s) (step : (system cfg).step s a = some t) :
    Staffed t := by
  by_cases own : ∃ i, a = .cpu i
  · obtain ⟨i, rfl⟩ := own
    exact staffed.stepCpu inv step
  have noCpu := not_exists.mp own
  have same := cpu_of_noCpu noCpu step
  have inside : ∀ i, s.place (.cpu i) = .body → t.dispatch.kernel = s.dispatch.kernel :=
    fun i body => (kernel_of_inside inv body (noCpu i) step).1
  have quiet : t.dispatch.kernel = s.dispatch.kernel → Staffed t := by
    intro kernel
    refine ⟨?_, ?_, ?_, ?_⟩ <;> rw [same, kernel]
    · exact staffed.left
    · exact staffed.vacant
    · exact staffed.expired
    · exact staffed.staffed
  cases a with
  | cpu i => exact absurd rfl (noCpu i)
  | timer => exact quiet (by rw [(stepTimer_frame step).1])
  | main =>
      obtain ⟨pc, stop, rfl⟩ := stepMain_frame step
      exact quiet rfl
  | ld =>
      obtain ⟨-, kernel | ⟨body, kernel⟩⟩ := stepLd_kernel step
      · exact quiet kernel
      have running : s.dispatch.kernel.done = false := by
        by_contra ended
        obtain late | late := loading.done (Bool.not_eq_false _ ▸ ended) <;>
          · rw [body] at late
            cases late
      have nobody : ∀ i, (s.dispatch.cpu i).pc.leaving = false := by
        intro i
        by_contra leaving
        have ended := (staffed.left i (Bool.not_eq_false _ ▸ leaving)).1
        rw [running] at ended
        cases ended
      refine ⟨?_, ?_, ?_, ?_⟩ <;> rw [same]
      · intro i leaving
        rw [nobody i] at leaving
        cases leaving
      · intro i vacant
        rw [inside i (place_of_vacant vacant)]
        exact staffed.vacant i vacant
      · intro i expired
        rw [inside i (place_of_get expired)]
        exact staffed.expired i expired
      · exact fun _ => ⟨⟨0, cpus⟩, nobody _⟩

theorem staffed_of_reachable (cpus : 1 ≤ cfg.numCpus) (few : cfg.numCpus ≤ 64) {s : Os cfg}
    (reachable : (system cfg).Reachable s) : Staffed s := by
  refine reachable.invariant ?_ fun s a t before staffed step =>
    staffed.step cpus (inv_of_reachable few before) (dispatch_reachable before).2 step
  rintro s rfl
  exact staffed_start

/-- `main` goes on to the timer when all other threads have ended. -/
theorem ended_of_joined {s : Os cfg} (few : cfg.numCpus ≤ 64) (reachable : (system cfg).Reachable s)
    (joined : ∀ rest, s.main ≠ .join rest) : Over s := by
  refine reachable.invariant (P := fun s => (∀ rest, s.main ≠ .join rest) → Over s) ?_ ?_ joined
  · rintro s rfl joined
    exact absurd rfl (joined _)
  · intro s a t before ih step joined
    by_cases already : ∀ rest, s.main ≠ .join rest
    · exact (ih already).step step
    · push Not at already
      obtain ⟨rest, joining⟩ := already
      cases a with
      | main =>
          change s.stepMain = some t at step
          simp only [stepMain, joining] at step
          cases rest with
          | cons d rest =>
              simp only [Option.ite_none_right_eq_some, Option.some.injEq] at step
              obtain ⟨-, rfl⟩ := step
              exact absurd rfl (joined rest)
          | nil =>
              cases step
              obtain ⟨all, split, ended⟩ := (inv_of_reachable few before).joined.joined [] joining
              rw [List.append_nil] at split
              subst split
              exact fun d => ended d (mem_joinList d)
      | cpu i => exact absurd ((stepCpu_frame step).main.trans joining) (joined rest)
      | ld => exact absurd ((stepLd_frame step).main.trans joining) (joined rest)
      | timer => exact absurd ((stepTimer_frame step).2.2.trans joining) (joined rest)

theorem over_of_returned {s : Os cfg} (few : cfg.numCpus ≤ 64) (reachable : (system cfg).Reachable s)
    (returned : s.main = .exited) : Over s := by
  refine ended_of_joined few reachable fun rest joining => ?_
  rw [returned] at joining
  cases joining

/-- Where all CPUs have left, nothing is in custody and the loader is done. -/
theorem finished_of_left {s : Os cfg} (cpus : 1 ≤ cfg.numCpus) (few : cfg.numCpus ≤ 64)
    (fits : cfg.Fits) (reachable : (system cfg).Reachable s)
    (left : ∀ i, (s.dispatch.cpu i).pc.leaving = true) (p : cfg.Proc) :
    s.dispatch.kernel.freed p = true ∧ s.dispatch.kernel.pcOf p = cfg.size p := by
  have staffed := staffed_of_reachable cpus few reachable
  obtain ⟨interleaving, loading⟩ := dispatch_reachable reachable
  obtain ⟨present, spent⟩ := Dispatch.present_of_reachable fits interleaving
  have done := (staffed.left ⟨0, cpus⟩ (left _)).1
  have loaded := (due_of_reachable few reachable).ended (loading.done done)
  have nothing : occurrences s.dispatch.places p = 0 := by
    refine Custody.occurrences_eq_zero.mpr ?_
    rintro (l | i) here
    · obtain ⟨i, stays⟩ := staffed.staffed ⟨l, List.ne_nil_of_mem here⟩
      rw [left i] at stays
      cases stays
    · have empty := (staffed.left i (left i)).2
      rw [Dispatch.places_inr, Cpu.held, empty] at here
      split at here <;> cases here
  have freed : s.dispatch.kernel.freed p = true := by
    by_contra alive
    exact present p (Nat.lt_of_lt_of_le p.isLt loaded) (eq_false_of_ne_true alive) nothing
  exact ⟨freed, spent p freed⟩

theorem CpuPc.leaving_of_stopping {P : Type*} {pc : CpuPc P} (stopping : pc.stopping = true) :
    pc.leaving = true := by
  cases pc <;> first | rfl | cases stopping

/-- In no run does the work stop early: when no CPU is active any more, and so when `main`
returns, the loader has added every process and each has executed all its instructions. -/
theorem finished_of_stopped (cfg : Config) (cpus : 1 ≤ cfg.numCpus) (few : cfg.numCpus ≤ 64)
    (fits : cfg.Fits) (as : List (Action cfg)) (s : Os cfg)
    (run : (system cfg).run (start cfg) as = some s)
    (stopped : (∀ i : Fin cfg.numCpus, s.cpuActive i = false) ∨ s.main = .exited) (p : cfg.Proc) :
    s.dispatch.kernel.freed p = true ∧ s.dispatch.kernel.pcOf p = cfg.size p := by
  have reachable : (system cfg).Reachable s := (TransitionSystem.Reachable.init rfl).run run
  refine finished_of_left cpus few fits reachable (fun i => CpuPc.leaving_of_stopping ?_) p
  obtain inactive | returned := stopped
  · exact ((inv_of_reachable few reachable).active i).mp (inactive i)
  · have ended := over_of_returned few reachable returned
    have exited := ended (.cpu i)
    simp only [place] at exited
    cases pc : (s.dispatch.cpu i).pc <;> simp_all [CpuPc.place, CpuPc.stopping]

/-- All slots of the program with two CPUs: each of them runs a process in the second slot. -/
def bothRun : List (Action Dispatch.twoProcesses) :=
  let first : Action Dispatch.twoProcesses := .cpu Dispatch.firstCpu
  let second : Action Dispatch.twoProcesses := .cpu Dispatch.secondCpu
  [List.replicate 5 second, List.replicate 5 first, List.replicate 7 .ld, List.replicate 11 .timer,
    List.replicate 9 second, List.replicate 7 first, List.replicate 7 .ld, List.replicate 10 .timer,
    List.replicate 9 second, List.replicate 10 first, List.replicate 6 .ld,
    List.replicate 11 .timer, List.replicate 9 second, List.replicate 8 first,
    List.replicate 8 .timer, List.replicate 5 .main].flatten

theorem finished_of_stopped_two : ∃ s, (system Dispatch.twoProcesses).run
    (start Dispatch.twoProcesses) bothRun = some s ∧ s.main = .exited ∧
      ∀ p, s.dispatch.kernel.freed p = true ∧ s.dispatch.kernel.pcOf p = 2 - p := by
  have runs : ((system Dispatch.twoProcesses).run (start Dispatch.twoProcesses) bothRun).any
      (fun s => s.main matches .exited) = true := by
    decide +kernel
  obtain ⟨s, run, exited⟩ := (Option.any_eq_true _ _).mp runs
  have returned : s.main = .exited := by
    cases main : s.main <;> simp_all
  exact ⟨s, run, returned, finished_of_stopped Dispatch.twoProcesses (by decide) (by decide)
    (by decide) bothRun s run (.inr returned)⟩

end Os

/-! ## A CPU leaves with a process that has finished -/

/-- The CPU has freed its process, and has not received another one since. -/
def Cpu.parted {P : Type*} (c : Cpu P) : Bool :=
  match c.pc, c.proc with
  | .get .finished, _ => true
  | .recheck, none => true
  | pc, _ => pc.leaving

section Parted

variable {cfg : Config} {k k' : Kernel cfg} {c c' : Cpu cfg.Proc}

theorem Cpu.parted_iff {P : Type*} (c : Cpu P) :
    c.parted = true ↔ c.pc.leaving = true ∨ c.vacant ∨ c.pc = .get .finished := by
  obtain ⟨pc, proc, timeLeft⟩ := c
  cases pc with
  | get site => cases site <;> simp [parted, vacant, CpuPc.leaving]
  | recheck => cases proc <;> simp [parted, vacant, CpuPc.leaving]
  | _ => simp [parted, vacant, CpuPc.leaving]

/-- A CPU parts with a process by freeing it. -/
theorem cpuStep_finished (step : cpuStep k c = some (k', c')) (finished : c'.pc = .get .finished) :
    c.pc = .get .finished ∨
      ∃ p, c.held = some p ∧ k'.freed = Function.update k.freed p true := by
  obtain ⟨pc, proc, timeLeft⟩ := c
  cases pc with
  | get site =>
      simp only [cpuStep] at step
      split at step
      · cases step
        exact .inl finished
      · cases step
        dsimp only at finished
        split at finished <;> cases finished
  | check =>
      cases proc with
      | none =>
          cases step
          cases finished
      | some p =>
          simp only [cpuStep] at step
          split at step
          · cases step
            exact .inr ⟨p, rfl, rfl⟩
          · split at step <;> cases step <;> cases finished
  | recheck =>
      cases proc with
      | none =>
          cases step
          cases done : k.done <;> simp [done] at finished
      | some p =>
          cases step
          cases finished
  | run p =>
      cases step
      dsimp only at finished
      split at finished <;> cases finished
  | exited => cases step
  | _ =>
      cases step
      cases finished

theorem cpuStep_parted (step : cpuStep k c = some (k', c')) (parted : c'.parted = true)
    (waits : c.pc = .get .expired → ∃ l, k.sched.levels l ≠ []) :
    c.parted = true ∨ ∃ p, c.held = some p ∧ k'.freed = Function.update k.freed p true := by
  rw [Cpu.parted_iff] at parted ⊢
  obtain leaving | vacant | finished := parted
  · obtain ⟨before, -⟩ | ⟨vacant, -⟩ := cpuStep_leaving step leaving
    · exact .inl (.inl before)
    · exact .inl (.inr (.inl vacant))
  · obtain ⟨finished | expired, empty, -⟩ := cpuStep_vacant step vacant
    · exact .inl (.inr (.inr finished))
    · obtain ⟨l, some⟩ := waits expired
      exact absurd (empty l) some
  · exact (cpuStep_finished step finished).imp_left fun before => .inr (.inr before)

theorem cpuStep_freed (step : cpuStep k c = some (k', c')) {p : cfg.Proc}
    (freed : k.freed p = true) : k'.freed p = true := by
  cases cpuStep_effect step with
  | keep _ _ same => rw [same, freed]
  | put _ _ _ _ _ _ _ same => rw [same, freed]
  | dispatch _ _ _ _ _ _ _ same => rw [same, freed]
  | free q _ _ _ _ _ after =>
      rw [after]
      by_cases same : p = q
      · rw [same, Function.update_self]
      · rw [Function.update_of_ne same, freed]

end Parted

namespace Os

variable {cfg : Config}

/-- The CPUs that have parted with a process for good, or for now. -/
def parted (s : Os cfg) : Finset (Fin cfg.numCpus) :=
  Finset.univ.filter fun i => (s.dispatch.cpu i).parted = true

def finished (s : Os cfg) : Finset cfg.Proc :=
  Finset.univ.filter fun p => s.dispatch.kernel.freed p = true

theorem card_parted_step {s t : Os cfg} {a : Action cfg} (owned : s.dispatch.Owned)
    (staffed : Staffed s) (step : (system cfg).step s a = some t)
    (fewer : s.parted.card ≤ s.finished.card) : t.parted.card ≤ t.finished.card := by
  by_cases own : ∃ i, a = .cpu i
  · obtain ⟨i, rfl⟩ := own
    obtain ⟨_, k, c, ran, rfl⟩ := stepCpu_eq_some.mp step
    have kept : s.finished ⊆ Finset.univ.filter fun p => k.freed p = true := by
      intro p freed
      simpa [finished] using cpuStep_freed ran (by simpa [finished] using freed)
    by_cases old : (s.dispatch.cpu i).parted = true ∨ c.parted = false
    · refine le_trans (Finset.card_le_card ?_) (fewer.trans (Finset.card_le_card kept))
      intro j parted
      simp only [Os.parted, Finset.mem_filter, Finset.mem_univ, true_and] at parted ⊢
      by_cases here : j = i
      · subst here
        rw [Dispatch.setCpu_cpu_self] at parted
        exact old.resolve_right (by simp [parted])
      · rwa [Dispatch.setCpu_cpu_of_ne _ _ _ here] at parted
    · push Not at old
      obtain ⟨p, held, freed⟩ := (cpuStep_parted ran (eq_true_of_ne_false old.2)
        (staffed.expired i)).resolve_left old.1
      have alive : p ∉ s.finished := by
        simp [finished, owned.alive held]
      have more : insert p s.finished ⊆ Finset.univ.filter fun p => k.freed p = true := by
        refine Finset.insert_subset ?_ kept
        simp [freed]
      have grown := Finset.card_le_card more
      rw [Finset.card_insert_of_notMem alive] at grown
      refine le_trans (Finset.card_le_card (t := insert i s.parted) ?_)
        ((Finset.card_insert_le _ _).trans ((Nat.succ_le_succ fewer).trans grown))
      intro j parted
      simp only [Os.parted, Finset.mem_filter, Finset.mem_univ, true_and, Finset.mem_insert]
        at parted ⊢
      by_cases here : j = i
      · exact .inl here
      · rw [Dispatch.setCpu_cpu_of_ne _ _ _ here] at parted
        exact .inr parted
  · have noCpu := not_exists.mp own
    have freed : t.dispatch.kernel.freed = s.dispatch.kernel.freed := by
      cases a with
      | cpu i => exact absurd rfl (noCpu i)
      | timer => rw [(stepTimer_frame step).1]
      | main =>
          obtain ⟨pc, stop, rfl⟩ := stepMain_frame step
          rfl
      | ld =>
          obtain ⟨-, same | ⟨-, ⟨p, -, same⟩ | same⟩⟩ := stepLd_kernel step <;> rw [same] <;> rfl
    rwa [parted, finished, cpu_of_noCpu noCpu step, freed]

/-- There are never more CPUs that have stopped than processes that have finished, so a
program with more CPUs than processes does not come to its end. -/
theorem stopped_le_finished (cfg : Config) (few : cfg.numCpus ≤ 64) (as : List (Action cfg))
    (s : Os cfg) (run : (system cfg).run (start cfg) as = some s) :
    (Finset.univ.filter fun i : Fin cfg.numCpus => s.cpuActive i = false).card ≤
        (Finset.univ.filter fun p => s.dispatch.kernel.freed p = true).card ∧
      (s.main = .exited → cfg.numCpus ≤ cfg.numProcesses) := by
  obtain none | cpus := Nat.eq_zero_or_pos cfg.numCpus
  · have nobody : (Finset.univ.filter fun i : Fin cfg.numCpus => s.cpuActive i = false) = ∅ :=
      Finset.eq_empty_of_forall_notMem fun i _ => absurd i.isLt (by omega)
    exact ⟨by simp [nobody], fun _ => by omega⟩
  have reachable : (system cfg).Reachable s := (TransitionSystem.Reachable.init rfl).run run
  have counted : s.parted.card ≤ s.finished.card := by
    refine reachable.invariant (P := fun s => s.parted.card ≤ s.finished.card) ?_ ?_
    · rintro s rfl
      simp [parted, start, Dispatch.start, Cpu.start, Cpu.parted, CpuPc.leaving]
    · intro s a t before fewer step
      exact card_parted_step (owned_of_reachable before).1 (staffed_of_reachable cpus few before)
        step fewer
  have inactive : (Finset.univ.filter fun i : Fin cfg.numCpus => s.cpuActive i = false) ⊆
      s.parted := by
    intro i off
    simp only [parted, Finset.mem_filter, Finset.mem_univ, true_and] at off ⊢
    have stopping := ((inv_of_reachable few reachable).active i).mp off
    exact (Cpu.parted_iff _).mpr (.inl (CpuPc.leaving_of_stopping stopping))
  refine ⟨(Finset.card_le_card inactive).trans counted, ?_⟩
  intro returned
  have ended := over_of_returned few reachable returned
  have all : s.parted = Finset.univ := by
    refine Finset.eq_univ_of_forall fun i => ?_
    simp only [parted, Finset.mem_filter, Finset.mem_univ, true_and]
    have exited := ended (.cpu i)
    simp only [place] at exited
    refine (Cpu.parted_iff _).mpr (.inl ?_)
    cases pc : (s.dispatch.cpu i).pc <;> simp_all [CpuPc.place, CpuPc.leaving]
  rw [all, Finset.card_fin] at counted
  exact counted.trans ((Finset.card_le_univ _).trans_eq (Fintype.card_fin _))

theorem stopped_le_finished_two : ∃ s, (system Dispatch.twoProcesses).run
    (start Dispatch.twoProcesses) bothRun = some s ∧
      (Finset.univ.filter fun i : Fin Dispatch.twoProcesses.numCpus =>
          s.cpuActive i = false).card ≤
        (Finset.univ.filter fun p => s.dispatch.kernel.freed p = true).card := by
  have runs : ((system Dispatch.twoProcesses).run (start Dispatch.twoProcesses)
      bothRun).isSome = true := by
    decide +kernel
  obtain ⟨s, run⟩ := Option.isSome_iff_exists.mp runs
  exact ⟨s, run, (stopped_le_finished Dispatch.twoProcesses (by decide) bothRun s run).1⟩

end Os

end SimpleOs
