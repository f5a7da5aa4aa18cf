import SimpleOs.Os.Completion

/-!
# Every process finishes

After the last arrival each slot brings the work on, as long as there is some: a CPU that
has a process executes an instruction of it or frees it, and a CPU without one takes a
process that waits. `left` counts what is still to be done. It never grows, and `Pending`
says why it gets smaller before the slot is over: some CPU stands where it cannot but do
the next piece of work.

So the number of slots that a program needs is bounded, and so is the number of steps,
whatever the schedule.
-/

namespace SimpleOs

/-- What there is to do for all processes together. -/
def Config.burden (cfg : Config) : Nat := ∑ p, (cfg.size p + 2)

/-- A slot by which all processes have finished. -/
def Config.finishSlot (cfg : Config) : Nat := cfg.lastSlot + cfg.burden + 1

/-- Some process waits in a ready queue. -/
def Kernel.Waiting {cfg : Config} (k : Kernel cfg) : Prop := ∃ l, k.sched.levels l ≠ []

/-! ## Where the next piece of work is done -/

section Steps

variable {cfg : Config} {k k' : Kernel cfg} {c c' : Cpu cfg.Proc} {early later : Bool}

/-- A CPU that is on its way to the next piece of work, in its present turn or in the one it
has in this slot. -/
def Eager (k : Kernel cfg) (c : Cpu cfg.Proc) (early : Bool) : Prop :=
  match c.pc with
  | .slotWait => early = true ∧ (c.proc ≠ none ∨ k.Waiting)
  | .waitTurn => c.proc ≠ none ∨ k.Waiting
  | .check => c.proc ≠ none ∨ k.Waiting
  | .get _ => k.Waiting
  | .recheck => ∃ p, c.proc = some p ∧ k.pcOf p < cfg.size p
  | .run p => k.pcOf p < cfg.size p
  | .execute _ _ => True
  | _ => False

/-- A step that does a piece of work. The last one is to dispatch a process that has no
instruction: its first turn executes nothing. -/
inductive Advance (k : Kernel cfg) (c : Cpu cfg.Proc) (k' : Kernel cfg) (c' : Cpu cfg.Proc) :
    Prop where
  | execute (p : cfg.Proc) (n : Nat) (executes : c.pc = .execute p n)
      (pcOf : k'.pcOf = Function.update k.pcOf p (k.pcOf p + 1))
  | free (p : cfg.Proc) (held : c.held = some p) (freed : k'.freed = Function.update k.freed p true)
  | take (l : Prio) (p : cfg.Proc) (waits : p ∈ k.sched.levels l) (taken : c'.held = some p)
      (spent : cfg.size p ≤ k.pcOf p)

/-- In its body a CPU comes closer to the next piece of work, or does it. -/
theorem Eager.step (eager : Eager k c early) (bound : ∀ p, k.pcOf p ≤ cfg.size p)
    (step : cpuStep k c = some (k', c')) : Eager k' c' later ∨ Advance k c k' c' := by
  obtain ⟨pc, proc, timeLeft⟩ := c
  cases pc with
  | slotWait =>
      cases step
      exact .inl eager.2
  | waitTurn =>
      cases step
      exact .inl eager
  | check =>
      cases proc with
      | none =>
          cases step
          exact .inl (eager.resolve_left fun some => some rfl)
      | some p =>
          by_cases finished : k.pcOf p = cfg.size p
          · simp only [cpuStep, if_pos finished, Option.some.injEq, Prod.mk.injEq] at step
            obtain ⟨rfl, rfl⟩ := step
            exact .inr (.free p rfl rfl)
          by_cases expired : timeLeft = 0
          · have asks : c'.pc = .get .expired := by
              simp only [cpuStep, if_neg finished, if_pos expired, Option.some.injEq,
                Prod.mk.injEq] at step
              rw [← step.2]
            obtain ⟨already, -⟩ | waiting := cpuStep_expired step asks
            · cases already
            · refine .inl ?_
              simp only [Eager, asks]
              exact waiting
          · simp only [cpuStep, if_neg finished, if_neg expired, Option.some.injEq,
              Prod.mk.injEq] at step
            obtain ⟨rfl, rfl⟩ := step
            exact .inl ⟨p, rfl, Nat.lt_of_le_of_ne (bound p) finished⟩
  | get site =>
      obtain ⟨s, ret, empty, _⟩ | ⟨l, p, rest, s, ret, _, head, _⟩ | ⟨s, again, _, _, same, _⟩ :=
        k.sched.getMlqSection_cases
      · obtain ⟨l, some⟩ := eager
        exact absurd (empty l) some
      · simp only [cpuStep, ret, Option.some.injEq, Prod.mk.injEq] at step
        obtain ⟨rfl, rfl⟩ := step
        by_cases more : k.pcOf p < cfg.size p
        · exact .inl (by simpa [Eager] using more)
        · refine .inr (.take l p (head ▸ List.mem_cons_self) ?_ (Nat.le_of_not_lt more))
          simp [Cpu.held]
      · simp only [cpuStep, again, Option.some.injEq, Prod.mk.injEq] at step
        obtain ⟨rfl, rfl⟩ := step
        refine .inl ?_
        simpa only [Eager, Kernel.Waiting, same] using eager
  | recheck =>
      obtain ⟨p, rfl, more⟩ := eager
      cases step
      exact .inl more
  | run p =>
      have more : ¬ k.pcOf p ≥ cfg.size p := Nat.not_le.mpr eager
      simp only [cpuStep, if_neg more, Option.some.injEq, Prod.mk.injEq] at step
      obtain ⟨rfl, rfl⟩ := step
      exact .inl trivial
  | execute p n =>
      cases step
      exact .inr (.execute p n rfl rfl)
  | _ => cases eager

/-- A CPU is on its way as before, where processes still wait and, in its body, nothing has
changed. -/
theorem Eager.congr (eager : Eager k c early) (waiting : k.Waiting → k'.Waiting)
    (inside : c.pc.place = .body → k' = k) : Eager k' c early := by
  obtain ⟨pc, proc, timeLeft⟩ := c
  cases pc with
  | slotWait => exact ⟨eager.1, eager.2.imp_right waiting⟩
  | waitTurn => exact Or.imp_right waiting eager
  | check => exact Or.imp_right waiting eager
  | get site => exact waiting eager
  | recheck => rwa [inside rfl]
  | run p => rwa [inside rfl]
  | execute p n => trivial
  | _ => cases eager

/-- What waits keeps waiting, unless a CPU takes it and is on its way then. -/
theorem cpuStep_waiting (bound : ∀ p, k.pcOf p ≤ cfg.size p) (step : cpuStep k c = some (k', c'))
    (waiting : k.Waiting) : k'.Waiting ∨ Eager k' c' later ∨ Advance k c k' c' := by
  by_cases getting : ∃ site, c.pc = .get site
  · obtain ⟨site, pc⟩ := getting
    have eager : Eager k c later := by
      simp only [Eager, pc]
      exact waiting
    exact .inr (eager.step bound step)
  · refine .inl ?_
    have kept : k'.sched = k.sched ∨ ∃ p, k'.sched = k.sched.putMlqProc cfg.prio p := by
      obtain ⟨pc, proc, timeLeft⟩ := c
      cases pc with
      | get site => exact absurd ⟨site, rfl⟩ getting
      | check =>
          simp only [cpuStep] at step
          split at step
          · cases step
            exact .inl rfl
          · split at step
            · cases step
              exact .inl rfl
            · split at step <;> cases step
              · exact .inr ⟨_, rfl⟩
              · exact .inl rfl
      | recheck =>
          simp only [cpuStep] at step
          split at step <;> cases step <;> exact .inl rfl
      | exited => cases step
      | _ =>
          cases step
          exact .inl rfl
    obtain ⟨l, some⟩ := waiting
    obtain same | ⟨p, put⟩ := kept
    · exact ⟨l, by rwa [same]⟩
    · refine ⟨l, ?_⟩
      rw [put, Sched.levels_putMlqProc]
      exact StrictPriority.insert_ne_nil some

end Steps

namespace Dispatch

variable {cfg : Config} {s t : Dispatch cfg}

/-! ## What is left to do -/

/-- A CPU has the process. -/
def Taken (s : Dispatch cfg) (p : cfg.Proc) : Prop := ∃ i, (s.cpu i).held = some p

instance (s : Dispatch cfg) (p : cfg.Proc) : Decidable (s.Taken p) :=
  inferInstanceAs (Decidable (∃ i, (s.cpu i).held = some p))

/-- What is left to do for a process: its instructions, and to free it. One that has no
instruction left and is with no CPU has to be dispatched for that. -/
def leftOf (s : Dispatch cfg) (p : cfg.Proc) : Nat :=
  if s.kernel.freed p then 0
  else 1 + (cfg.size p - s.kernel.pcOf p) +
    if cfg.size p ≤ s.kernel.pcOf p ∧ ¬ s.Taken p then 1 else 0

def left (s : Dispatch cfg) : Nat := ∑ p, s.leftOf p

theorem left_le (s : Dispatch cfg) : s.left ≤ cfg.burden := by
  refine Finset.sum_le_sum fun p _ => ?_
  unfold leftOf
  split
  · exact Nat.zero_le _
  · split <;> omega

theorem left_eq_zero (s : Dispatch cfg) : s.left = 0 ↔ ∀ p, s.kernel.freed p = true := by
  rw [left, Finset.sum_eq_zero_iff]
  refine forall_congr' fun p => ?_
  unfold leftOf
  cases s.kernel.freed p <;> simp

theorem le_leftOf {p : cfg.Proc} (alive : s.kernel.freed p = false) :
    1 + (cfg.size p - s.kernel.pcOf p) ≤ s.leftOf p := by
  unfold leftOf
  rw [if_neg (by simp [alive])]
  omega

theorem leftOf_le_of_taken {p : cfg.Proc} (taken : s.Taken p) :
    s.leftOf p ≤ 1 + (cfg.size p - s.kernel.pcOf p) := by
  unfold leftOf
  split
  · exact Nat.zero_le _
  · rw [if_neg fun last => last.2 taken]
    omega

/-- For a process that was not freed anew, that was not put back after its last instruction,
nothing is added. -/
theorem leftOf_le {p : cfg.Proc} (freed : s.kernel.freed p = true → t.kernel.freed p = true)
    (pcOf : s.kernel.pcOf p ≤ t.kernel.pcOf p)
    (spent : cfg.size p ≤ t.kernel.pcOf p → ¬ t.Taken p →
      t.kernel.freed p = true ∨ cfg.size p ≤ s.kernel.pcOf p ∧ ¬ s.Taken p) :
    t.leftOf p ≤ s.leftOf p := by
  unfold leftOf
  split
  · exact Nat.zero_le _
  · rename_i alive
    have before : ¬ s.kernel.freed p = true := fun dead => alive (freed dead)
    rw [if_neg before]
    by_cases last : cfg.size p ≤ t.kernel.pcOf p ∧ ¬ t.Taken p
    · rw [if_pos last, if_pos ((spent last.1 last.2).resolve_left alive)]
      omega
    · rw [if_neg last]
      omega

section Cpu

variable {i : Fin cfg.numCpus} {k : Kernel cfg} {c : Cpu cfg.Proc}

/-- A process that a CPU has stays with it, or is parted with. -/
theorem Taken.setCpu {p : cfg.Proc} (taken : s.Taken p) :
    (s.setCpu i k c).Taken p ∨ (s.cpu i).held = some p ∧ c.held ≠ some p := by
  obtain ⟨j, held⟩ := taken
  by_cases here : j = i
  · subst here
    by_cases keeps : c.held = some p
    · exact .inl ⟨j, by rwa [setCpu_cpu_self]⟩
    · exact .inr ⟨held, keeps⟩
  · exact .inl ⟨j, by rwa [setCpu_cpu_of_ne _ _ _ here]⟩

/-- A CPU keeps the process of which it executes an instruction. -/
theorem held_of_executes (fetched : Fetched s) (ran : cpuStep s.kernel (s.cpu i) = some (k, c))
    {p : cfg.Proc} {n : Nat} (executes : (s.cpu i).pc = .execute p n) : c.held = some p := by
  have held := (fetched.fetched i p n executes).1
  cases cpuStep_effect ran with
  | keep _ same _ => rw [same, held]
  | free _ check => rw [check] at executes; cases executes
  | put _ check => rw [check] at executes; cases executes
  | dispatch _ _ _ idle => rw [idle] at held; cases held

/-- No step of a CPU adds to what is left of any process. -/
theorem leftOf_setCpu_le (fetched : Fetched s) (ran : cpuStep s.kernel (s.cpu i) = some (k, c))
    (p : cfg.Proc) : (s.setCpu i k c).leftOf p ≤ s.leftOf p := by
  refine leftOf_le (cpuStep_freed ran) ?_ ?_
  · rw [setCpu_kernel]
    obtain same | ⟨q, n, -, advanced⟩ := cpuStep_pcOf ran
    · rw [same]
    · rw [advanced]
      by_cases same : p = q
      · subst same
        rw [Function.update_self]
        exact Nat.le_succ _
      · rw [Function.update_of_ne same]
  · intro spent loose
    rw [setCpu_kernel] at spent ⊢
    have before : cfg.size p ≤ s.kernel.pcOf p := by
      obtain same | ⟨q, n, executes, advanced⟩ := cpuStep_pcOf ran
      · rwa [same] at spent
      · have apart : p ≠ q := by
          rintro rfl
          refine loose ⟨i, ?_⟩
          rw [setCpu_cpu_self]
          exact held_of_executes fetched ran executes
        rwa [advanced, Function.update_of_ne apart] at spent
    by_cases taken : s.Taken p
    · -- the CPU has parted with the process, which it puts back only with instructions left
      obtain ⟨held, parts⟩ := (taken.setCpu (i := i) (k := k) (c := c)).resolve_left loose
      refine .inl ?_
      cases cpuStep_effect ran with
      | keep _ same _ => exact absurd (same.trans held) parts
      | free q _ held' _ _ _ freed =>
          cases held.symm.trans held'
          rw [freed, Function.update_self]
      | put q _ held' unfinished =>
          cases held.symm.trans held'
          exact absurd (Nat.le_antisymm (fetched.bound p) before) unfinished
      | dispatch _ _ _ idle =>
          rw [idle] at held
          cases held
    · exact .inr ⟨before, taken⟩

/-- A piece of work done is one less to do. -/
theorem leftOf_lt_of_advance (owned : Owned s) (fetched : Fetched s)
    (ran : cpuStep s.kernel (s.cpu i) = some (k, c)) (advance : Advance s.kernel (s.cpu i) k c) :
    ∃ p, (s.setCpu i k c).leftOf p < s.leftOf p := by
  cases advance with
  | execute p n executes pcOf =>
      obtain ⟨held, -, more⟩ := fetched.fetched i p n executes
      obtain ⟨-, rfl, -⟩ := fetched.fetched i p n executes
      have taken : (s.setCpu i k c).Taken p :=
        ⟨i, by rw [setCpu_cpu_self]; exact held_of_executes fetched ran executes⟩
      have after := leftOf_le_of_taken taken
      have before := le_leftOf (owned.alive held)
      rw [setCpu_kernel, pcOf, Function.update_self] at after
      exact ⟨p, by omega⟩
  | free p held freed =>
      have before := le_leftOf (owned.alive held)
      have after : (s.setCpu i k c).leftOf p = 0 := by
        unfold leftOf
        rw [setCpu_kernel, freed, Function.update_self, if_pos rfl]
      exact ⟨p, by omega⟩
  | take l p waits held spent =>
      have loose : ¬ s.Taken p := by
        rintro ⟨j, there⟩
        have here : p ∈ s.places (.inl l) := waits
        have also : p ∈ s.places (.inr j) := by simp [there]
        exact absurd (owned.exclusive.unique here also) Sum.inl_ne_inr
      have alive : ¬ s.kernel.freed p = true := fun dead =>
        occurrences_of_waits waits (owned.gone p dead).2
      have taken : (s.setCpu i k c).Taken p := ⟨i, by rwa [setCpu_cpu_self]⟩
      have after := leftOf_le_of_taken taken
      have before : s.leftOf p = 1 + (cfg.size p - s.kernel.pcOf p) + 1 := by
        unfold leftOf
        rw [if_neg alive, if_pos ⟨spent, loose⟩]
      have kept : k.pcOf p = s.kernel.pcOf p := by
        obtain same | ⟨q, n, executes, -⟩ := cpuStep_pcOf ran
        · rw [same]
        · -- what a CPU executes an instruction of was with it before
          have same := (held_of_executes fetched ran executes).symm.trans held
          cases same
          exact absurd ⟨i, (fetched.fetched i p n executes).1⟩ loose
      rw [setCpu_kernel, kept] at after
      exact ⟨p, by omega⟩

theorem left_setCpu_le (fetched : Fetched s) (ran : cpuStep s.kernel (s.cpu i) = some (k, c)) :
    (s.setCpu i k c).left ≤ s.left :=
  Finset.sum_le_sum fun p _ => leftOf_setCpu_le fetched ran p

theorem left_lt_of_advance (owned : Owned s) (fetched : Fetched s)
    (ran : cpuStep s.kernel (s.cpu i) = some (k, c)) (advance : Advance s.kernel (s.cpu i) k c) :
    (s.setCpu i k c).left < s.left := by
  obtain ⟨p, less⟩ := leftOf_lt_of_advance owned fetched ran advance
  exact Finset.sum_lt_sum (fun p _ => leftOf_setCpu_le fetched ran p) ⟨p, Finset.mem_univ p, less⟩

end Cpu

end Dispatch

namespace Os

variable {cfg : Config} {s t : Os cfg} {a : Action cfg}

/-! ## Each slot brings the work on -/

/-- Some CPU is on its way to the next piece of work, and does it in this slot. -/
def Pending (s : Os cfg) : Prop :=
  ∃ j, Eager s.dispatch.kernel (s.dispatch.cpu j) (s.early (.cpu j))

/-- The steps that are no step of a CPU leave everything to be done. -/
theorem left_of_noCpu (noCpu : ∀ i, a ≠ .cpu i) (step : (system cfg).step s a = some t) :
    t.dispatch.left = s.dispatch.left := by
  have cpus := cpu_of_noCpu noCpu step
  have kernel : t.dispatch.kernel.freed = s.dispatch.kernel.freed ∧
      t.dispatch.kernel.pcOf = s.dispatch.kernel.pcOf := by
    cases a with
    | cpu i => exact absurd rfl (noCpu i)
    | ld =>
        obtain ⟨-, same | ⟨-, ⟨p, -, same⟩ | same⟩⟩ := stepLd_kernel step <;> rw [same] <;>
          exact ⟨rfl, rfl⟩
    | timer =>
        rw [(stepTimer_frame step).1]
        exact ⟨rfl, rfl⟩
    | main =>
        obtain ⟨pc, stop, rfl⟩ := stepMain_frame step
        exact ⟨rfl, rfl⟩
  have taken : ∀ p, t.dispatch.Taken p ↔ s.dispatch.Taken p := by
    intro p
    rw [Dispatch.Taken, Dispatch.Taken, cpus]
  unfold Dispatch.left Dispatch.leftOf
  simp only [kernel.1, kernel.2, taken]

theorem left_step_le (reachable : (system cfg).Reachable s)
    (step : (system cfg).step s a = some t) : t.dispatch.left ≤ s.dispatch.left := by
  by_cases own : ∃ i, a = .cpu i
  · obtain ⟨i, rfl⟩ := own
    obtain ⟨_, k, c, ran, rfl⟩ := stepCpu_eq_some.mp step
    exact Dispatch.left_setCpu_le (owned_of_reachable reachable).2 ran
  · exact (left_of_noCpu (not_exists.mp own) step).le

/-- The threads that are no CPU take nothing out of the ready queues. -/
theorem waiting_of_noCpu (noCpu : ∀ i, a ≠ .cpu i) (step : (system cfg).step s a = some t)
    (waiting : s.dispatch.kernel.Waiting) : t.dispatch.kernel.Waiting := by
  cases a with
  | cpu i => exact absurd rfl (noCpu i)
  | ld =>
      obtain ⟨l, some⟩ := waiting
      obtain ⟨-, same | ⟨-, ⟨p, -, same⟩ | same⟩⟩ := stepLd_kernel step
      · exact ⟨l, by rwa [same]⟩
      · refine ⟨l, ?_⟩
        rw [same]
        simpa [Kernel.addProc] using StrictPriority.insert_ne_nil some
      · exact ⟨l, by rwa [same]⟩
  | timer => rwa [(stepTimer_frame step).1]
  | main =>
      obtain ⟨pc, stop, rfl⟩ := stepMain_frame step
      exact waiting

/-- Within a slot the work stays pending until a piece of it is done. -/
theorem Pending.step (few : cfg.numCpus ≤ 64) (reachable : (system cfg).Reachable s)
    (pending : s.Pending) (step : (system cfg).step s a = some t)
    (quiet : a = .timer → s.event .timer = none) :
    t.Pending ∨ t.dispatch.left < s.dispatch.left := by
  have inv := inv_of_reachable few reachable
  obtain ⟨owned, fetched⟩ := owned_of_reachable reachable
  obtain ⟨j, eager⟩ := pending
  by_cases own : ∃ i, a = .cpu i
  · obtain ⟨i, rfl⟩ := own
    have frame := stepCpu_frame step
    have kept : ∀ j, j ≠ i → s.place (.cpu j) = .body →
        t.dispatch.kernel = s.dispatch.kernel := fun j apart inside =>
      (kernel_of_inside inv inside (fun same => apart (Action.cpu.inj same).symm) step).1
    have stages : ∀ j, j ≠ i → t.early (.cpu j) = s.early (.cpu j) := fun j apart =>
      early_congr (frame.stage fun same => apart (Dev.cpu.inj same))
    obtain ⟨_, k, c, ran, after⟩ := stepCpu_eq_some.mp step
    have dispatch : t.dispatch = s.dispatch.setCpu i k c := by rw [after]
    -- what the step of the CPU brings about itself
    have won : Eager k c (t.early (.cpu i)) ∨ Advance s.dispatch.kernel (s.dispatch.cpu i) k c →
        t.Pending ∨ t.dispatch.left < s.dispatch.left := by
      rintro (goes | advance)
      · refine .inl ⟨i, ?_⟩
        rwa [dispatch, Dispatch.setCpu_cpu_self]
      · refine .inr ?_
        rw [dispatch]
        exact Dispatch.left_lt_of_advance owned fetched ran advance
    by_cases here : j = i
    · subst here
      exact won (eager.step fetched.bound ran)
    · by_cases waiting : s.dispatch.kernel.Waiting → k.Waiting
      · refine .inl ⟨j, ?_⟩
        rw [stages j here]
        have kernel : t.dispatch.kernel = k := by rw [dispatch, Dispatch.setCpu_kernel]
        rw [dispatch, Dispatch.setCpu_cpu_of_ne _ _ _ here, ← dispatch, kernel]
        exact eager.congr waiting fun inside => kernel ▸ kept j here inside
      · push Not at waiting
        exact won ((cpuStep_waiting fetched.bound ran waiting.1).resolve_left waiting.2)
  · have noCpu := not_exists.mp own
    refine .inl ⟨j, ?_⟩
    have early : t.early (.cpu j) = s.early (.cpu j) := by
      cases a with
      | cpu i => exact absurd rfl (noCpu i)
      | ld => exact early_congr ((stepLd_frame step).stage (by simp))
      | timer => exact early_congr (((inv.stage_stepTimer step).2 (quiet rfl)).2 _)
      | main =>
          obtain ⟨pc, stop, rfl⟩ := stepMain_frame step
          exact early_congr (stage_congr (congrFun (place_congr rfl rfl) _) rfl rfl)
    rw [early, cpu_of_noCpu noCpu step]
    refine eager.congr (waiting_of_noCpu noCpu step) fun inside => ?_
    exact (kernel_of_inside inv inside (noCpu j) step).1

/-- Nothing is pending when all devices are through with the slot. -/
theorem not_pending_of_through (through : ∀ d, s.stage d = .after ∨ s.stage d = .gone) :
    ¬ s.Pending := by
  rintro ⟨j, eager⟩
  have stage := through (.cpu j)
  have src : s.place (.cpu j) = (s.dispatch.cpu j).pc.place := rfl
  have late : s.early (.cpu j) = false := by
    obtain after | gone := stage <;> simp [early, *]
  unfold Eager at eager
  cases pc : (s.dispatch.cpu j).pc with
  | slotWait => simp [pc, late] at eager
  | slotDone => simp [pc] at eager
  | signal ran => simp [pc] at eager
  | markInactive => simp [pc] at eager
  | signalStop => simp [pc] at eager
  | detach => simp [pc] at eager
  | exited => simp [pc] at eager
  | _ => simp [Os.stage, src, pc, CpuPc.place] at stage

/-- A slot that opens after the last arrival has work pending, or there is none left. -/
theorem pending_of_tick (cpus : 1 ≤ cfg.numCpus) (few : cfg.numCpus ≤ 64) (fits : cfg.Fits)
    (reachable : (system cfg).Reachable s) {fsh : Nat} (timer : s.timer = .check [] fsh)
    (loaded : cfg.numProcesses ≤ s.dispatch.kernel.loaded) (more : s.dispatch.left ≠ 0) :
    (s.openSlot.goTimer (.reset fsh)).Pending := by
  have inv := inv_of_reachable few reachable
  have after : (s.openSlot.goTimer (.reset fsh)).Inv := inv.openSlot timer
  have counted := inv.counted
  rw [Counted, timer] at counted
  obtain ⟨checked, split, ready, _⟩ := counted
  rw [List.append_nil] at split
  -- a CPU that has not left is asleep, and has its turn of the new slot before it
  have asleep : ∀ j, (s.dispatch.cpu j).pc.leaving = false →
      (s.dispatch.cpu j).pc = .slotWait ∧
        (s.openSlot.goTimer (.reset fsh)).early (.cpu j) = true := by
    intro j stays
    obtain ⟨waits, -⟩ | exited := inv.flags.place_of_ready (ready (.cpu j) (split ▸ mem_devList _))
    · refine ⟨?_, ?_⟩
      · simp only [place] at waits
        cases pc : (s.dispatch.cpu j).pc <;> simp_all [CpuPc.place]
      · obtain early | gone := after.flags.stage_of_pending (d := .cpu j) rfl
        · simp [early, Os.early]
        · rw [stage_gone_iff] at gone
          exact absurd (waits.symm.trans gone) (by simp)
    · simp only [place] at exited
      cases pc : (s.dispatch.cpu j).pc <;> simp_all [CpuPc.place, CpuPc.leaving]
  have eager : ∀ j, (s.dispatch.cpu j).pc.leaving = false →
      ((s.dispatch.cpu j).proc ≠ none ∨ s.dispatch.kernel.Waiting) →
        (s.openSlot.goTimer (.reset fsh)).Pending := by
    intro j stays work
    obtain ⟨pc, early⟩ := asleep j stays
    refine ⟨j, ?_⟩
    have same : (s.openSlot.goTimer (.reset fsh)).dispatch = s.dispatch := rfl
    rw [same, early]
    simp only [Eager, pc]
    exact ⟨trivial, work⟩
  have staffed := staffed_of_reachable cpus few reachable
  obtain ⟨interleaving, -⟩ := dispatch_reachable reachable
  have unfinished : ∃ p, s.dispatch.kernel.freed p = false := by
    by_contra none
    push Not at none
    exact more ((s.dispatch.left_eq_zero).mpr fun p => eq_true_of_ne_false (none p))
  obtain ⟨p, alive⟩ := unfinished
  have present := (Dispatch.present_of_reachable fits interleaving).1 p
    (Nat.lt_of_lt_of_le p.isLt loaded) alive
  obtain ⟨l | j, here⟩ := Custody.exists_of_occurrences present
  · have waiting : s.dispatch.kernel.Waiting := ⟨l, List.ne_nil_of_mem here⟩
    obtain ⟨j, stays⟩ := staffed.staffed waiting
    exact eager j stays (.inr waiting)
  · have held : (s.dispatch.cpu j).held = some p := by
      simpa using here
    have has : (s.dispatch.cpu j).proc ≠ none := by
      intro none
      rw [Cpu.held, none] at held
      split at held <;> cases held
    refine eager j ?_ (.inl has)
    by_contra leaving
    exact has (staffed.left j (Bool.not_eq_false _ ▸ leaving)).2

/-- After the last arrival every slot has its piece of work done, or done before it is over. -/
def OnTime (s : Os cfg) : Prop :=
  cfg.lastSlot ≤ s.time → s.dispatch.left = 0 ∨
    s.dispatch.left + (s.time - cfg.lastSlot) ≤ cfg.burden ∨
    s.dispatch.left + (s.time - cfg.lastSlot) ≤ cfg.burden + 1 ∧ s.Pending

theorem loaded_of_lastSlot (few : cfg.numCpus ≤ 64) (reachable : (system cfg).Reachable s)
    (last : cfg.lastSlot ≤ s.time) : cfg.numProcesses ≤ s.dispatch.kernel.loaded := by
  by_contra more
  let p : cfg.Proc := ⟨s.dispatch.kernel.loaded, Nat.lt_of_not_le more⟩
  have coming := (due_of_reachable few reachable).coming p (Nat.le_refl _)
  have arrives := cfg.arrival_lt_lastSlot p
  have now := s.time_le_earliest
  omega

theorem OnTime.step (cpus : 1 ≤ cfg.numCpus) (few : cfg.numCpus ≤ 64) (fits : cfg.Fits)
    (reachable : (system cfg).Reachable s) (onTime : s.OnTime)
    (step : (system cfg).step s a = some t) : t.OnTime := by
  have inv := inv_of_reachable few reachable
  have fewer := left_step_le reachable step
  by_cases tick : a = .timer ∧ ∃ fsh, s.timer = .check [] fsh
  · obtain ⟨rfl, fsh, timer⟩ := tick
    have through : ∀ d, s.stage d = .after ∨ s.stage d = .gone := by
      have counted := inv.counted
      rw [Counted, timer] at counted
      obtain ⟨checked, split, ready, _⟩ := counted
      rw [List.append_nil] at split
      exact fun d => stage_of_ready inv.flags (ready d (split ▸ mem_devList d))
        (by simp [pending, timer])
    change s.stepTimer = some t at step
    simp only [stepTimer, timer, Option.some.injEq] at step
    subst step
    have time : (s.openSlot.goTimer (.reset fsh)).time = s.time + 1 := rfl
    have total := s.dispatch.left_le
    intro last
    rw [time] at last ⊢
    by_cases first : cfg.lastSlot = s.time + 1
    · exact .inr (.inl (by omega))
    have past : cfg.lastSlot ≤ s.time := by omega
    by_cases done : s.dispatch.left = 0
    · exact .inl (by omega)
    obtain done' | onTime | ⟨-, pending⟩ := onTime past
    · exact absurd done' done
    · have opens := pending_of_tick cpus few fits reachable timer
        (loaded_of_lastSlot few reachable past) done
      exact .inr (.inr ⟨by omega, opens⟩)
    · exact absurd pending (not_pending_of_through through)
  · have quiet : a = .timer → s.event .timer = none := by
      rintro rfl
      by_contra some
      obtain ⟨e, event⟩ := Option.ne_none_iff_exists'.mp some
      obtain ⟨fsh, timer, -⟩ := event_timer event
      exact tick ⟨rfl, fsh, timer⟩
    have time : t.time = s.time := by
      cases a with
      | cpu i => exact (stepCpu_frame step).time
      | ld => exact (stepLd_frame step).time
      | timer => exact ((inv.stage_stepTimer step).2 (quiet rfl)).1
      | main =>
          obtain ⟨pc, stop, rfl⟩ := stepMain_frame step
          rfl
    intro last
    rw [time] at last ⊢
    obtain done' | onTime | ⟨late, pending⟩ := onTime last
    · exact .inl (by omega)
    · exact .inr (.inl (by omega))
    · obtain still | less := pending.step few reachable step quiet
      · exact .inr (.inr ⟨by omega, still⟩)
      · exact .inr (.inl (by omega))

theorem onTime_of_reachable (cpus : 1 ≤ cfg.numCpus) (few : cfg.numCpus ≤ 64) (fits : cfg.Fits)
    (reachable : (system cfg).Reachable s) : s.OnTime := by
  refine reachable.invariant ?_ fun s a t before onTime step =>
    onTime.step cpus few fits before step
  rintro s rfl
  exact fun _ => .inr (.inl (by
    have total := (start cfg).dispatch.left_le
    have zero : (start cfg).time = 0 := rfl
    omega))

/-! ## The end -/

/-- After so many steps that slot has come. -/
def finishSteps (cfg : Config) : Nat := cfg.finishSlot * (slotWork cfg + 1)

theorem finishSlot_le_time (few : cfg.numCpus ≤ 64) {as : List (Action cfg)}
    (run : (system cfg).run (start cfg) as = some s) (long : finishSteps cfg ≤ as.length) :
    cfg.finishSlot ≤ s.time := by
  have first : (start cfg).time + cfg.finishSlot = cfg.finishSlot := Nat.zero_add _
  have rounds := (spends few).rounds_le (inv_start few) run (by rw [first]; exact long)
  rwa [first] at rounds

theorem freed_of_finishSlot (cpus : 1 ≤ cfg.numCpus) (few : cfg.numCpus ≤ 64) (fits : cfg.Fits)
    (reachable : (system cfg).Reachable s) (slot : cfg.finishSlot ≤ s.time) (p : cfg.Proc) :
    s.dispatch.kernel.freed p = true ∧ s.dispatch.kernel.pcOf p = cfg.size p := by
  have onTime := onTime_of_reachable cpus few fits reachable
  unfold Config.finishSlot at slot
  have nothing : s.dispatch.left = 0 := by
    obtain nothing | ahead | ⟨ahead, -⟩ := onTime (by omega) <;> omega
  have freed := (s.dispatch.left_eq_zero).mp nothing p
  exact ⟨freed, (Dispatch.present_of_reachable fits (dispatch_reachable reachable).1).2 p freed⟩

theorem freed_of_stuck (cpus : 1 ≤ cfg.numCpus) (few : cfg.numCpus ≤ 64) (fits : cfg.Fits)
    (reachable : (system cfg).Reachable s) (stuck : ∀ a, (system cfg).step s a = none)
    (p : cfg.Proc) :
    s.dispatch.kernel.freed p = true ∧ s.dispatch.kernel.pcOf p = cfg.size p := by
  have finished : s.Finished := by
    by_contra running
    obtain ⟨a, t, step⟩ := progress (inv_of_reachable few reachable) running
    rw [stuck a] at step
    cases step
  refine finished_of_left cpus few fits reachable (fun i => ?_) p
  rw [finished.cpus i]
  rfl

/-- No thread can go on. -/
def still (s : Os cfg) : Bool :=
  decide (∀ i, (s.stepCpu i).isNone = true) && s.stepLd.isNone && s.stepTimer.isNone &&
    s.stepMain.isNone

theorem stuck_of_still {s : Os cfg} (still : s.still = true) (a : Action cfg) :
    (system cfg).step s a = none := by
  simp only [Os.still, Bool.and_eq_true, decide_eq_true_eq, Option.isNone_iff_eq_none] at still
  obtain ⟨⟨⟨cpu, ld⟩, timer⟩, main⟩ := still
  cases a with
  | cpu i => exact cpu i
  | ld => exact ld
  | timer => exact timer
  | main => exact main

end Os

end SimpleOs
