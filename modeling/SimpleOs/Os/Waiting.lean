import SimpleOs.Os.Slice

/-!
# How long a process waits

A process in a ready queue is overtaken by processes of higher levels only. Those in front of it in
its own level come first, in their order; whoever is put behind it stays behind. A process is
dispatched once for each slice that its code fills. So the dispatches that a process waits for are
bounded by its place in its queue and the code of the processes of higher levels, whatever the order
of the threads.
-/

namespace SimpleOs

open StrictPriority (Levels IsLowest Filed Waited)
open Custody (occurrences Exclusive)

variable {cfg : Config}

/-- The process that `get_proc` hands out in the next step of a CPU. -/
def handedOut (k : Kernel cfg) (c : Cpu cfg.Proc) : Option cfg.Proc :=
  match c.pc with
  | .get _ =>
    match k.sched.getMlqSection with
    | .ret proc _ => proc
    | .again _ => none
  | _ => none

/-- What a step does to the ready queues. -/
inductive QueueEffect (cfg : Config) (q q' : Levels maxPrio cfg.Proc) : Option cfg.Proc → Prop
  | keep (same : q' = q) : QueueEffect cfg q q' none
  | insert (p : cfg.Proc) (levels : q' = StrictPriority.insert maxQueueSize (cfg.prio p) p q) :
      QueueEffect cfg q q' none
  | serve (l : Prio) (p : cfg.Proc) (rest : List cfg.Proc) (low : IsLowest q l)
      (head : q l = p :: rest) (levels : q' = Function.update q l rest) :
      QueueEffect cfg q q' (some p)

theorem cpuStep_queues {k k' : Kernel cfg} {c c' : Cpu cfg.Proc}
    (step : cpuStep k c = some (k', c')) :
    QueueEffect cfg k.sched.levels k'.sched.levels (handedOut k c) := by
  obtain ⟨pc, proc, timeLeft⟩ := c
  cases pc with
  | get site =>
      obtain ⟨s, ret, _, same, _⟩ | ⟨l, p, rest, s, ret, low, head, after, _⟩ |
        ⟨s, again, _, _, same, _⟩ := k.sched.getMlqSection_cases
      · simp only [cpuStep, ret, Option.some.injEq, Prod.mk.injEq] at step
        obtain ⟨rfl, rfl⟩ := step
        simp only [handedOut, ret]
        exact .keep same
      · simp only [cpuStep, ret, Option.some.injEq, Prod.mk.injEq] at step
        obtain ⟨rfl, rfl⟩ := step
        simp only [handedOut, ret]
        exact .serve l p rest low head after
      · simp only [cpuStep, again, Option.some.injEq, Prod.mk.injEq] at step
        obtain ⟨rfl, rfl⟩ := step
        simp only [handedOut, again]
        exact .keep same
  | check =>
      simp only [cpuStep] at step
      split at step
      · cases step
        exact .keep rfl
      · split at step
        · cases step
          exact .keep rfl
        · split at step
          · cases step
            exact .insert _ (Sched.levels_putMlqProc ..)
          · cases step
            exact .keep rfl
  | exited => cases step
  | recheck =>
      simp only [cpuStep] at step
      split at step
      · cases step
        exact .keep rfl
      · cases step
        exact .keep rfl
  | _ =>
      cases step
      exact .keep rfl

namespace Dispatch

/-- The process that a step hands out. -/
def dispatched (s : Dispatch cfg) : Action cfg → Option cfg.Proc
  | .cpu i => handedOut s.kernel (s.cpu i)
  | .ld => none

theorem queueEffect {s t : Dispatch cfg} {a : Action cfg}
    (step : (system cfg).step s a = some t) :
    QueueEffect cfg s.kernel.sched.levels t.kernel.sched.levels (dispatched s a) := by
  cases a with
  | ld =>
      obtain ⟨more, rfl⟩ | rfl := step_ld step
      · exact .insert _ (Sched.levels_addMlqProc ..)
      · exact .keep rfl
  | cpu i =>
      obtain ⟨k, c, ran, rfl⟩ := step_cpu.mp step
      exact cpuStep_queues ran

/-- As long as `x` is not dispatched, those ahead of it in its level are, in their order, and
processes of higher levels. -/
theorem waited_run {s t : Dispatch cfg} {bs : List (Action cfg)} (owned : Owned s)
    (run : (system cfg).run s bs = some t) {x : cfg.Proc} {ahead behind : List cfg.Proc}
    (waits : s.kernel.sched.levels (cfg.prio x) = ahead ++ x :: behind)
    (missed : x ∉ (system cfg).trace dispatched s bs) :
    Waited cfg.prio x ahead ((system cfg).trace dispatched s bs) t.kernel.sched.levels := by
  refine (TransitionSystem.trace_invariant (M := system cfg) (R := fun es t => Owned t ∧
    (x ∉ es → Waited cfg.prio x ahead es t.kernel.sched.levels)) ?_ ⟨owned, fun _ => .start waits⟩
    run).2 missed
  rintro es s a t ⟨owned, waited⟩ step
  refine ⟨owned_step owned step, fun missed => ?_⟩
  have before := waited fun member => missed (List.mem_append_left _ member)
  have effect := queueEffect step
  generalize dispatched s a = out at effect missed
  cases effect with
  | keep same =>
      rw [Option.toList_none, List.append_nil, same]
      exact before
  | insert p levels =>
      rw [Option.toList_none, List.append_nil, levels]
      exact before.insert _ _ p
  | serve l p rest low head levels =>
      rw [Option.toList_some, levels]
      refine before.serve owned.filed low head ?_
      rintro rfl
      exact missed (by simp)

end Dispatch

/-! ## The slices of a process -/

/-- How many slices the code of a process fills. A process without code has one, too. -/
def slices (cfg : Config) (p : cfg.Proc) : Nat :=
  max 1 ((cfg.size p + (cfg.timeSlot.toNat - 1)) / cfg.timeSlot.toNat)

/-- A process that has had `n` full slices and is not at its end has one more. -/
theorem lt_slices {p : cfg.Proc} {n : Nat} (positive : 1 ≤ cfg.timeSlot)
    (more : (n : Int) * cfg.timeSlot < cfg.size p) : n < slices cfg p := by
  obtain ⟨slot, same⟩ := Int.eq_ofNat_of_zero_le (zero_le_one.trans positive)
  have some : 0 < slot := by omega
  rw [same] at more
  have fits : (n + 1) * slot ≤ cfg.size p + (slot - 1) := by
    have more : n * slot < cfg.size p := by exact_mod_cast more
    rw [Nat.add_mul, Nat.one_mul]
    omega
  refine lt_max_of_lt_right ?_
  rw [same, Int.toNat_natCast]
  exact (Nat.le_div_iff_mul_le some).mpr fits

/-- What a CPU has left of a slice before it executes the next instruction. -/
def Cpu.left (c : Cpu cfg.Proc) : Int :=
  match c.pc with
  | .recheck => if c.timeLeft = 0 then cfg.timeSlot else c.timeLeft
  | .signal true => c.timeLeft - 1
  | _ => c.timeLeft

/-- On a CPU an instruction costs one unit of the slice, and nothing else does before the code
ends. -/
theorem cpuStep_left {k k' : Kernel cfg} {c c' : Cpu cfg.Proc} {p : cfg.Proc}
    (running : ∀ q, c.pc = .run q → q = p) (executing : ∀ q n, c.pc = .execute q n → q = p)
    (bound : k.pcOf p ≤ cfg.size p) (step : cpuStep k c = some (k', c')) (held : c.held = some p)
    (kept : c'.held = some p) :
    (k'.pcOf p : Int) + c'.left = k.pcOf p + c.left ∨ k.pcOf p = cfg.size p := by
  obtain ⟨pc, proc, timeLeft⟩ := c
  cases pc with
  | get site => cases held
  | check =>
      obtain rfl : proc = some p := held
      simp only [cpuStep] at step
      split at step
      · cases step
        cases kept
      · split at step
        · cases step
          cases kept
        · rename_i unexpired
          cases step
          simp [Cpu.left, unexpired]
  | recheck =>
      obtain rfl : proc = some p := held
      cases step
      exact .inl rfl
  | run q =>
      obtain rfl := running q rfl
      cases step
      by_cases ended : k.pcOf q ≥ cfg.size q
      · exact .inr (Nat.le_antisymm bound ended)
      · rw [if_neg ended]
        exact .inl rfl
  | execute q n =>
      obtain rfl := executing q n rfl
      cases step
      left
      simp only [Cpu.left, Function.update_self]
      omega
  | signal ran =>
      cases step
      cases ran <;> exact .inl rfl
  | exited => cases step
  | _ =>
      cases step
      exact .inl rfl

namespace Dispatch

/-- `p` has been dispatched `n` times. In its queue it has used up `n` slices, and on a CPU it is
in the last one of them or at its end. -/
structure Paid (s : Dispatch cfg) (p : cfg.Proc) (n : Nat) : Prop where
  bound : n ≤ slices cfg p
  fresh : s.kernel.loaded ≤ p.val → n = 0
  waiting : p ∈ s.kernel.sched.levels (cfg.prio p) →
    n = 0 ∨ (n : Int) * cfg.timeSlot ≤ s.kernel.pcOf p ∧ s.kernel.pcOf p < cfg.size p
  held : ∀ i, (s.cpu i).held = some p →
    (n : Int) * cfg.timeSlot ≤ s.kernel.pcOf p + (s.cpu i).left ∨ s.kernel.pcOf p = cfg.size p

theorem paid_start (p : cfg.Proc) : Paid (start cfg) p 0 where
  bound := Nat.zero_le _
  fresh _ := rfl
  waiting _ := .inl rfl
  held i held := by cases held

/-- Two places for one process are one. -/
theorem Owned.not_queued {s : Dispatch cfg} (owned : Owned s) {i : Fin cfg.numCpus} {l : Prio}
    {p : cfg.Proc} (held : (s.cpu i).held = some p) : p ∉ s.kernel.sched.levels l := by
  intro queued
  have same := owned.exclusive.unique (i := .inl l) (j := .inr i) (t := p) queued (by simp [held])
  cases same

theorem Paid.stepLd {s t : Dispatch cfg} {p : cfg.Proc} {n : Nat} (paid : Paid s p n)
    (step : (system cfg).step s .ld = some t) : Paid t p n := by
  obtain ⟨more, rfl⟩ | rfl := step_ld step
  · refine ⟨paid.bound, fun unloaded => paid.fresh (Nat.le_of_succ_le unloaded), fun queued => ?_,
      paid.held⟩
    change p ∈ (s.kernel.sched.addMlqProc cfg.prio _).levels _ at queued
    rw [Sched.levels_addMlqProc] at queued
    obtain old | rfl := StrictPriority.mem_of_mem_insert queued
    · exact paid.waiting old
    · exact .inl (paid.fresh (Nat.le_refl _))
  · exact ⟨paid.bound, paid.fresh, paid.waiting, paid.held⟩

/-- A process that stays in a queue has not moved. -/
theorem pcOf_of_queued {s : Dispatch cfg} (owned : Owned s) (fetched : Fetched s)
    {i : Fin cfg.numCpus} {k : Kernel cfg} {c : Cpu cfg.Proc}
    (ran : cpuStep s.kernel (s.cpu i) = some (k, c)) {l : Prio} {p : cfg.Proc}
    (queued : p ∈ s.kernel.sched.levels l) : k.pcOf p = s.kernel.pcOf p := by
  obtain same | ⟨q, n, executes, advanced⟩ := cpuStep_pcOf ran
  · rw [same]
  · rw [advanced, Function.update_of_ne]
    rintro rfl
    exact owned.not_queued (fetched.fetched i p n executes).1 queued

/-- A process at its end stays there. -/
theorem pcOf_of_ended {s : Dispatch cfg} (fetched : Fetched s) {i : Fin cfg.numCpus}
    {k : Kernel cfg} {c : Cpu cfg.Proc} (ran : cpuStep s.kernel (s.cpu i) = some (k, c))
    {p : cfg.Proc} (ended : s.kernel.pcOf p = cfg.size p) : k.pcOf p = cfg.size p := by
  obtain same | ⟨q, n, executes, advanced⟩ := cpuStep_pcOf ran
  · rw [same, ended]
  · rw [advanced, Function.update_of_ne, ended]
    rintro rfl
    have below := (fetched.fetched i p n executes).2
    omega

/-- A CPU that gets a process has a whole slice for it. -/
theorem handedOut_cpu {k k' : Kernel cfg} {c c' : Cpu cfg.Proc} {p : cfg.Proc} (rested : Rested c)
    (step : cpuStep k c = some (k', c')) (out : handedOut k c = some p) :
    c' = ⟨.recheck, some p, 0⟩ ∧ k'.pcOf = k.pcOf := by
  obtain ⟨pc, proc, timeLeft⟩ := c
  cases pc with
  | get site =>
      obtain ⟨s, ret, _⟩ | ⟨l, q, rest, s, ret, _⟩ | ⟨s, again, _⟩ := k.sched.getMlqSection_cases
      · simp [handedOut, ret] at out
      · simp only [handedOut, ret, Option.some.injEq] at out
        simp only [cpuStep, ret, Option.some.injEq, Prod.mk.injEq] at step
        obtain ⟨rfl, rfl⟩ := step
        have fresh : (if site = .finished then 0 else timeLeft) = 0 := by
          cases site <;> simp_all [Rested]
        rw [fresh, out]
        exact ⟨by simp, rfl⟩
      · simp [handedOut, again] at out
  | _ => cases out

/-- A CPU gets its process from `get_proc`. -/
theorem handedOut_of_taken {k k' : Kernel cfg} {c c' : Cpu cfg.Proc} {p : cfg.Proc}
    (step : cpuStep k c = some (k', c')) (none : c.held = none) (taken : c'.held = some p) :
    handedOut k c = some p := by
  obtain ⟨pc, proc, timeLeft⟩ := c
  cases pc with
  | get site =>
      obtain ⟨s, ret, _⟩ | ⟨l, q, rest, s, ret, _⟩ | ⟨s, again, _⟩ := k.sched.getMlqSection_cases
      · simp only [cpuStep, ret, Option.some.injEq, Prod.mk.injEq] at step
        obtain ⟨rfl, rfl⟩ := step
        cases site <;> cases taken
      · simp only [cpuStep, ret, Option.some.injEq, Prod.mk.injEq] at step
        obtain ⟨rfl, rfl⟩ := step
        simpa [handedOut, ret, Cpu.held] using taken
      · simp only [cpuStep, again, Option.some.injEq, Prod.mk.injEq] at step
        obtain ⟨rfl, rfl⟩ := step
        cases taken
  | check =>
      obtain rfl : proc = Option.none := none
      cases step
      cases taken
  | recheck =>
      obtain rfl : proc = Option.none := none
      cases step
      cases done : k.done <;> simp [Cpu.held, done] at taken
  | run q =>
      obtain rfl : proc = Option.none := none
      cases step
      by_cases ended : k.pcOf q ≥ cfg.size q <;> simp [Cpu.held, ended] at taken
  | exited => cases step
  | _ =>
      obtain rfl : proc = Option.none := none
      cases step
      cases taken

/-- A CPU that has a process and has just been handed none had it before. -/
theorem held_before {k k' : Kernel cfg} {c c' : Cpu cfg.Proc} {p : cfg.Proc}
    (step : cpuStep k c = some (k', c')) (out : handedOut k c = none) (held : c'.held = some p) :
    c.held = some p := by
  cases cpuStep_effect step with
  | keep levels same freed => rw [← same, held]
  | free q check before finished sched gone freed =>
      rw [gone] at held
      cases held
  | put q check before unfinished expired sched gone freed =>
      rw [gone] at held
      cases held
  | dispatch l q rest before head levels taken freed =>
      rw [handedOut_of_taken step before taken] at out
      cases out

/-- A process in its queue was there before, or has been put back with its slice used up. -/
theorem queued_before {k k' : Kernel cfg} {c c' : Cpu cfg.Proc} {p : cfg.Proc}
    (step : cpuStep k c = some (k', c')) (out : handedOut k c = none)
    (queued : p ∈ k'.sched.levels (cfg.prio p)) :
    p ∈ k.sched.levels (cfg.prio p) ∨
      c.held = some p ∧ c.left = 0 ∧ k'.pcOf p = k.pcOf p ∧ k.pcOf p ≠ cfg.size p := by
  cases cpuStep_effect step with
  | keep levels held freed => exact .inl (levels ▸ queued)
  | free q check held finished sched gone freed => exact .inl (sched ▸ queued)
  | put q check held unfinished expired sched gone freed =>
      rw [sched, Sched.levels_putMlqProc] at queued
      obtain before | rfl := StrictPriority.mem_of_mem_insert queued
      · exact .inl before
      · have used : c.left = 0 := by
          rw [Cpu.left, check]
          exact expired
        obtain same | ⟨q, m, executes, -⟩ := cpuStep_pcOf step
        · exact .inr ⟨held, used, congrFun same p, unfinished⟩
        · rw [check] at executes
          cases executes
  | dispatch l q rest before head levels taken freed =>
      rw [handedOut_of_taken step before taken] at out
      cases out

section Paid

variable {s : Dispatch cfg} {p q : cfg.Proc} {n : Nat} {i : Fin cfg.numCpus} {k : Kernel cfg}
  {c : Cpu cfg.Proc}

/-- The process that is handed out pays for one slice more. -/
theorem Paid.got (positive : 1 ≤ cfg.timeSlot) (paid : Paid s p n) (owned : Owned s)
    (owned' : Owned (s.setCpu i k ⟨.recheck, some p, 0⟩)) (loaded : k.loaded = s.kernel.loaded)
    (counters : k.pcOf = s.kernel.pcOf) (queued : p ∈ s.kernel.sched.levels (cfg.prio p)) :
    Paid (s.setCpu i k ⟨.recheck, some p, 0⟩) p (n + 1) := by
  have here : (s.setCpu i k ⟨.recheck, some p, 0⟩).cpu i = ⟨.recheck, some p, 0⟩ :=
    setCpu_cpu_self ..
  have taken : ((s.setCpu i k ⟨.recheck, some p, 0⟩).cpu i).held = some p := by
    rw [here]
    rfl
  have before := paid.waiting queued
  refine ⟨?_, fun unloaded => ?_, fun still => ?_, fun j held => ?_⟩
  · obtain rfl | ⟨spent, more⟩ := before
    · exact le_max_left _ _
    · exact lt_slices positive (by omega)
  · rw [setCpu_kernel, loaded] at unloaded
    have nowhere := Custody.occurrences_eq_zero.mp (owned.fresh p unloaded)
    exact absurd queued (nowhere (.inl (cfg.prio p)))
  · exact absurd still (owned'.not_queued taken)
  · obtain rfl := owned'.holder_unique held taken
    left
    rw [here, setCpu_kernel, counters]
    simp only [Cpu.left, if_true, Nat.cast_add, Nat.cast_one, add_mul, one_mul]
    obtain rfl | ⟨spent, -⟩ := before
    · simp
    · omega

/-- The others pay nothing. -/
theorem Paid.passedOver (paid : Paid s p n) (differ : p ≠ q) (taken : c.held = some q)
    (loaded : k.loaded = s.kernel.loaded) (counters : k.pcOf = s.kernel.pcOf)
    (stayed : p ∈ k.sched.levels (cfg.prio p) → p ∈ s.kernel.sched.levels (cfg.prio p)) :
    Paid (s.setCpu i k c) p n := by
  refine ⟨paid.bound, ?_, fun queued => ?_, fun j held => ?_⟩
  · rw [setCpu_kernel, loaded]
    exact paid.fresh
  · rw [setCpu_kernel, counters]
    exact paid.waiting (stayed queued)
  · have other : j ≠ i := by
      rintro rfl
      rw [setCpu_cpu_self] at held
      exact differ (Option.some.inj (held.symm.trans taken))
    rw [setCpu_cpu_of_ne _ _ _ other] at held ⊢
    rw [setCpu_kernel, counters]
    exact paid.held j held

/-- A step of a CPU that hands out a process. -/
theorem Paid.stepGet (positive : 1 ≤ cfg.timeSlot) (paid : Paid s p n) (owned : Owned s)
    (owned' : Owned (s.setCpu i k c)) (rested : Rested (s.cpu i))
    (ran : cpuStep s.kernel (s.cpu i) = some (k, c))
    (out : handedOut s.kernel (s.cpu i) = some q) :
    Paid (s.setCpu i k c) p (n + if p = q then 1 else 0) := by
  obtain ⟨rfl, counters⟩ := handedOut_cpu rested ran out
  obtain ⟨loaded, -⟩ := cpuStep_loader ran
  have effect := cpuStep_queues ran
  rw [out] at effect
  cases effect with
  | serve l _ rest low head levels =>
      by_cases same : p = q
      · subst same
        have queued : p ∈ s.kernel.sched.levels l := by simp [head]
        rw [if_pos rfl]
        refine paid.got positive owned owned' loaded counters ?_
        rwa [owned.filed l p queued]
      · rw [if_neg same, Nat.add_zero]
        refine paid.passedOver same rfl loaded counters fun queued => ?_
        rw [levels] at queued
        by_cases level : cfg.prio p = l
        · rw [level, Function.update_self] at queued
          rw [level, head]
          exact List.mem_cons_of_mem q queued
        · rwa [Function.update_of_ne level] at queued

/-- The CPU that keeps a process still owes it what is left of its slice. -/
theorem Paid.held_step (paid : Paid s p n) (fetched : Fetched s)
    (ran : cpuStep s.kernel (s.cpu i) = some (k, c)) (kept : (s.cpu i).held = some p)
    (held : c.held = some p) :
    (n : Int) * cfg.timeSlot ≤ k.pcOf p + c.left ∨ k.pcOf p = cfg.size p := by
  have running : ∀ q, (s.cpu i).pc = .run q → q = p := fun q at_run =>
    Option.some.inj ((fetched.running i q at_run).symm.trans kept)
  have executing : ∀ q m, (s.cpu i).pc = .execute q m → q = p := fun q m at_execute =>
    Option.some.inj ((fetched.fetched i q m at_execute).1.symm.trans kept)
  obtain moved | ended := cpuStep_left running executing (fetched.bound p) ran kept held
  · obtain spent | ended := paid.held i kept
    · exact .inl (by omega)
    · exact .inr (pcOf_of_ended fetched ran ended)
  · exact .inr (pcOf_of_ended fetched ran ended)

/-- Any other step of a CPU. -/
theorem Paid.stepOther (paid : Paid s p n) (owned : Owned s) (fetched : Fetched s)
    (ran : cpuStep s.kernel (s.cpu i) = some (k, c))
    (out : handedOut s.kernel (s.cpu i) = none) : Paid (s.setCpu i k c) p n := by
  obtain ⟨loaded, -⟩ := cpuStep_loader ran
  refine ⟨paid.bound, ?_, fun queued => ?_, fun j held => ?_⟩
  · rw [setCpu_kernel, loaded]
    exact paid.fresh
  · rw [setCpu_kernel] at queued ⊢
    obtain before | ⟨held, used, still, unfinished⟩ := queued_before ran out queued
    · rw [pcOf_of_queued owned fetched ran before]
      exact paid.waiting before
    · rw [still]
      have bound := fetched.bound p
      obtain spent | ended := paid.held i held
      · rw [used, add_zero] at spent
        exact .inr ⟨spent, by omega⟩
      · exact absurd ended unfinished
  · by_cases own : j = i
    · subst own
      rw [setCpu_cpu_self] at held ⊢
      exact paid.held_step fetched ran (held_before ran out held) held
    · have other : Action.cpu i ≠ .cpu j := fun same => own (Action.cpu.inj same).symm
      rw [setCpu_cpu_of_ne _ _ _ own] at held ⊢
      rw [pcOf_of_other owned fetched other (step_cpu.mpr ⟨k, c, ran, rfl⟩) held]
      exact paid.held j held

end Paid

/-- What a run has counted of a process. -/
structure Counted (s : Dispatch cfg) (p : cfg.Proc) (n : Nat) : Prop where
  owned : Owned s
  fetched : Fetched s
  rested : ∀ i, Rested (s.cpu i)
  paid : Paid s p n

theorem Counted.step {s t : Dispatch cfg} {p : cfg.Proc} {n : Nat} {a : Action cfg}
    (positive : 1 ≤ cfg.timeSlot) (counted : Counted s p n)
    (step : (system cfg).step s a = some t) :
    Counted t p (n + (dispatched s a).toList.count p) := by
  have owned := owned_step counted.owned step
  have fetched := fetched_step counted.owned counted.fetched step
  cases a with
  | ld =>
      refine ⟨owned, fetched, fun i => ?_, counted.paid.stepLd step⟩
      rw [cpu_of_other (by simp) step]
      exact counted.rested i
  | cpu i =>
      obtain ⟨k, c, ran, rfl⟩ := step_cpu.mp step
      refine ⟨owned, fetched, fun j => ?_, ?_⟩
      · by_cases own : j = i
        · rw [own, setCpu_cpu_self]
          exact cpuStep_rested (counted.rested i) ran
        · rw [setCpu_cpu_of_ne _ _ _ own]
          exact counted.rested j
      · cases out : handedOut s.kernel (s.cpu i) with
        | none =>
            rw [dispatched, out]
            exact counted.paid.stepOther counted.owned counted.fetched ran out
        | some q =>
            rw [dispatched, out, Option.toList_some, List.count_singleton]
            have paid := counted.paid.stepGet positive counted.owned owned (counted.rested i) ran out
            simpa only [beq_iff_eq, eq_comm (a := q)] using paid

theorem counted_start (p : cfg.Proc) : Counted (start cfg) p 0 :=
  ⟨owned_start, fetched_start, fun _ _ => rfl, paid_start p⟩

theorem Counted.run {s t : Dispatch cfg} {p : cfg.Proc} {n : Nat} {as : List (Action cfg)}
    (positive : 1 ≤ cfg.timeSlot) (counted : Counted s p n)
    (run : (system cfg).run s as = some t) :
    Counted t p (n + ((system cfg).trace dispatched s as).count p) := by
  refine TransitionSystem.trace_invariant (M := system cfg)
    (R := fun es t => Counted t p (n + es.count p)) ?_ counted run
  intro es s a t before step
  rw [List.count_append, ← Nat.add_assoc]
  exact before.step positive step

/-- No process is dispatched more often than its code has slices. -/
theorem count_dispatched {s t : Dispatch cfg} {as bs : List (Action cfg)}
    (positive : 1 ≤ cfg.timeSlot) (before : (system cfg).run (start cfg) as = some s)
    (run : (system cfg).run s bs = some t) (p : cfg.Proc) :
    ((system cfg).trace dispatched (start cfg) as).count p +
      ((system cfg).trace dispatched s bs).count p ≤ slices cfg p := by
  have whole := ((counted_start p).run positive before).run positive run
  have bound := whole.paid.bound
  omega

/-- The dispatches of the processes of higher levels. -/
theorem length_higher_le {es : List cfg.Proc} {few : cfg.Proc → Nat}
    (bound : ∀ p, es.count p ≤ few p) (x : cfg.Proc) :
    (es.filter fun p => cfg.prio p < cfg.prio x).length ≤
      ∑ p with cfg.prio p < cfg.prio x, few p := by
  rw [← List.sum_toFinset_count_eq_length]
  calc ∑ p ∈ (es.filter fun p => cfg.prio p < cfg.prio x).toFinset,
        (es.filter fun p => cfg.prio p < cfg.prio x).count p
      ≤ ∑ p ∈ (es.filter fun p => cfg.prio p < cfg.prio x).toFinset, few p :=
        Finset.sum_le_sum fun p _ => (List.filter_sublist.count_le p).trans (bound p)
    _ ≤ ∑ p with cfg.prio p < cfg.prio x, few p := by
        refine Finset.sum_le_sum_of_subset fun p member => ?_
        simpa using (List.mem_filter.mp (List.mem_toFinset.mp member)).2

end Dispatch

namespace Os

/-- The process that a step hands out. -/
def dispatched (s : Os cfg) : Action cfg → Option cfg.Proc
  | .cpu i => handedOut s.dispatch.kernel (s.dispatch.cpu i)
  | _ => none

/-- A run of the threads dispatches as a run of the dispatch system does. -/
theorem run_dispatched {s t : Os cfg} {as : List (Action cfg)} (loading : Loading s)
    (run : (system cfg).run s as = some t) :
    ∃ bs, (Dispatch.system cfg).run s.dispatch bs = some t.dispatch ∧ Loading t ∧
      (Dispatch.system cfg).trace Dispatch.dispatched s.dispatch bs =
        (system cfg).trace dispatched s as := by
  have answer : ∀ s a t d, (s.dispatch = d ∧ Loading s) → (system cfg).step s a = some t →
      ((t.dispatch = d ∧ Loading t) ∧ dispatched s a = none) ∨
        ∃ b d', (Dispatch.system cfg).step d b = some d' ∧ (t.dispatch = d' ∧ Loading t) ∧
          Dispatch.dispatched d b = dispatched s a := by
    rintro s a t d ⟨rfl, loading⟩ step
    obtain ⟨after, ⟨same, other⟩ | ⟨b, thread, ran⟩⟩ := loading.step step
    · refine .inl ⟨⟨same, after⟩, ?_⟩
      cases a with
      | cpu j => exact absurd rfl (other j)
      | _ => rfl
    · refine .inr ⟨b, _, ran, ⟨rfl, after⟩, ?_⟩
      cases a <;> cases thread <;> rfl
  obtain ⟨bs, d, follows, ⟨rfl, after⟩, shown⟩ :=
    TransitionSystem.trace_simulation answer ⟨rfl, loading⟩ run
  exact ⟨bs, follows, after, shown⟩

section Waiting

variable {s t : Os cfg} {as bs : List (Action cfg)} {x : cfg.Proc} {ahead behind : List cfg.Proc}

/-- A process that waits is overtaken by processes of higher levels only: of the others, those that
are ahead of it are dispatched, each once and in their order, and nobody else. -/
theorem overtaken_by_higher (before : (system cfg).run (start cfg) as = some s)
    (run : (system cfg).run s bs = some t)
    (waits : s.dispatch.kernel.sched.levels (cfg.prio x) = ahead ++ x :: behind)
    (missed : x ∉ (system cfg).trace dispatched s bs) :
    ∃ passed left behind', ahead = passed ++ left ∧
      t.dispatch.kernel.sched.levels (cfg.prio x) = left ++ x :: behind' ∧
      ((system cfg).trace dispatched s bs).filter (fun p => cfg.prio x ≤ cfg.prio p) = passed := by
  obtain ⟨cs, reached, loading, -⟩ := run_dispatched loading_start before
  obtain ⟨ds, follows, -, shown⟩ := run_dispatched loading run
  have owned := (Dispatch.run_invariant reached).1
  rw [← shown] at missed ⊢
  obtain ⟨left, behind', still, passed⟩ := Dispatch.waited_run owned follows waits missed
  exact ⟨_, left, behind', passed.symm, still, rfl⟩

/-- One CPU, with slots of one instruction, a process of level 0 with two instructions and one of
level 1. -/
def urgentFirst : Config where
  timeSlot := 1
  numCpus := 1
  numProcesses := 2
  startTime := fun _ => 0
  prio := fun p => p.castLE (by decide)
  size := fun p => 2 - p

def second : urgentFirst.Proc := ⟨1, by decide⟩

/-- The CPU has executed one instruction of the first process, and the second one has been added. -/
def secondAdded : List (Action urgentFirst) :=
  List.replicate 5 (.cpu ⟨0, by decide⟩) ++ List.replicate 7 .ld ++ List.replicate 6 .timer ++
    [.ld, .timer] ++ List.replicate 9 (.cpu ⟨0, by decide⟩) ++ List.replicate 4 .ld

/-- The first process gets its second slice. -/
def firstAgain : List (Action urgentFirst) :=
  List.replicate 2 .ld ++ List.replicate 7 .timer ++ [.ld, .timer] ++
    List.replicate 9 (.cpu ⟨0, by decide⟩)

theorem overtaken_by_higher_urgent : ∃ s t : Os urgentFirst,
    (system urgentFirst).run (start urgentFirst) secondAdded = some s ∧
      (system urgentFirst).run s firstAgain = some t ∧
        ∃ behind, t.dispatch.kernel.sched.levels 1 = second :: behind := by
  have replay : ((system urgentFirst).run (start urgentFirst) secondAdded).any (fun s =>
      decide (s.dispatch.kernel.sched.levels 1 = [second]) &&
        (((system urgentFirst).run s firstAgain).isSome &&
          decide (second ∉
            (system urgentFirst).trace dispatched s firstAgain))) = true := by
    decide +kernel
  obtain ⟨s, before, facts⟩ := (Option.any_eq_true _ _).mp replay
  simp only [Bool.and_eq_true, decide_eq_true_eq] at facts
  obtain ⟨waits, runs, missed⟩ := facts
  obtain ⟨t, run⟩ := Option.isSome_iff_exists.mp runs
  have waits : s.dispatch.kernel.sched.levels (urgentFirst.prio second) = [] ++ second :: [] := waits
  obtain ⟨passed, left, behind, none, still, -⟩ := overtaken_by_higher before run waits missed
  obtain ⟨-, rfl⟩ := List.append_eq_nil_iff.mp none.symm
  exact ⟨s, t, before, run, behind, still⟩

/-- A process that waits is dispatched as soon as there are more dispatches than processes ahead of
it and slices that the processes of higher levels have not had yet. -/
theorem dispatched_in_time (positive : 1 ≤ cfg.timeSlot)
    (before : (system cfg).run (start cfg) as = some s) (run : (system cfg).run s bs = some t)
    (waits : s.dispatch.kernel.sched.levels (cfg.prio x) = ahead ++ x :: behind)
    (many : ahead.length + ∑ p with cfg.prio p < cfg.prio x,
        (slices cfg p - ((system cfg).trace dispatched (start cfg) as).count p) <
      ((system cfg).trace dispatched s bs).length) :
    x ∈ (system cfg).trace dispatched s bs := by
  by_contra missed
  obtain ⟨cs, reached, loading, shown⟩ := run_dispatched loading_start before
  obtain ⟨ds, follows, -, shown'⟩ := run_dispatched loading run
  have owned := (Dispatch.run_invariant reached).1
  rw [← shown, ← shown'] at many
  rw [← shown'] at missed
  have waited := (Dispatch.waited_run owned follows waits missed).length_le
  have higher := Dispatch.length_higher_le (fun p =>
    Nat.le_sub_of_add_le' (Dispatch.count_dispatched positive reached follows p)) x
  exact absurd (waited.trans (Nat.add_le_add_left higher _)) (not_le.mpr many)

/-- Then the first process ends, and the second one gets the CPU. -/
def secondNext : List (Action urgentFirst) :=
  firstAgain ++ List.replicate 5 .ld ++ List.replicate 8 .timer ++
    List.replicate 5 (.cpu ⟨0, by decide⟩)

theorem dispatched_in_time_urgent : ∃ s t : Os urgentFirst,
    (system urgentFirst).run (start urgentFirst) secondAdded = some s ∧
      (system urgentFirst).run s secondNext = some t ∧
        second ∈ (system urgentFirst).trace dispatched s secondNext := by
  have replay : ((system urgentFirst).run (start urgentFirst) secondAdded).any (fun s =>
      decide (s.dispatch.kernel.sched.levels 1 = [second]) &&
        (((system urgentFirst).run s secondNext).isSome &&
          decide (1 < ((system urgentFirst).trace dispatched s secondNext).length))) = true := by
    decide +kernel
  have owed : ∑ p with urgentFirst.prio p < urgentFirst.prio second, (slices urgentFirst p -
      ((system urgentFirst).trace dispatched (start urgentFirst) secondAdded).count p) = 1 := by
    decide +kernel
  obtain ⟨s, before, facts⟩ := (Option.any_eq_true _ _).mp replay
  simp only [Bool.and_eq_true, decide_eq_true_eq] at facts
  obtain ⟨waits, runs, many⟩ := facts
  obtain ⟨t, run⟩ := Option.isSome_iff_exists.mp runs
  have waits : s.dispatch.kernel.sched.levels (urgentFirst.prio second) = [] ++ second :: [] := waits
  refine ⟨s, t, before, run, dispatched_in_time (by decide) before run waits ?_⟩
  rw [owed]
  exact many

end Waiting

end Os

end SimpleOs
