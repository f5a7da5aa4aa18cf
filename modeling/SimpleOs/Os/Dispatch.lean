import SimpleOs.Lib.Custody
import SimpleOs.Os.Cpu

/-!
# The custody of processes

Loader and CPU threads interleave freely here: nothing about the turn or the
timer is assumed, so what is proved holds under every order those may impose.

`places` lists who has which process: a place for each ready queue, and one for
each CPU. A CPU step moves a process between them or drops it, and never makes
a second copy. That gives exclusive custody, and with it that the instructions
of a program run once and in order.
-/

namespace SimpleOs

open StrictPriority (Filed)
open Custody (occurrences Exclusive)

/-- The scheduler with its callers. -/
structure Dispatch (cfg : Config) where
  kernel : Kernel cfg
  cpu : Fin cfg.numCpus → Cpu cfg.Proc

namespace Dispatch

variable {cfg : Config}

/-- Who takes the next step. -/
inductive Action (cfg : Config) where
  | cpu (i : Fin cfg.numCpus)
  | ld

/-- Before any thread has run. -/
def start (cfg : Config) : Dispatch cfg where
  kernel := Kernel.boot cfg
  cpu := fun _ => Cpu.start cfg.Proc

/-- The scheduler-level steps of `ld_routine`: the next `add_proc`, and at the
end `done = 1`. -/
def ldStep (k : Kernel cfg) : Option (Kernel cfg) :=
  if more : k.loaded < cfg.numProcesses then some (k.addProc ⟨k.loaded, more⟩)
  else if k.done then none
  else some k.setDone

/-- CPU `i` has moved to `c`, and left the kernel as `k`. -/
def setCpu (s : Dispatch cfg) (i : Fin cfg.numCpus) (k : Kernel cfg) (c : Cpu cfg.Proc) :
    Dispatch cfg where
  kernel := k
  cpu := Function.update s.cpu i c

@[simp] theorem setCpu_kernel (s : Dispatch cfg) (i : Fin cfg.numCpus) (k : Kernel cfg)
    (c : Cpu cfg.Proc) : (s.setCpu i k c).kernel = k := rfl

@[simp] theorem setCpu_cpu_self (s : Dispatch cfg) (i : Fin cfg.numCpus) (k : Kernel cfg)
    (c : Cpu cfg.Proc) : (s.setCpu i k c).cpu i = c := Function.update_self ..

theorem setCpu_cpu_of_ne (s : Dispatch cfg) {i j : Fin cfg.numCpus} (k : Kernel cfg)
    (c : Cpu cfg.Proc) (apart : j ≠ i) : (s.setCpu i k c).cpu j = s.cpu j :=
  Function.update_of_ne apart ..

/-- Any interleaving of the CPU threads and the loader. -/
def system (cfg : Config) : TransitionSystem (Dispatch cfg) (Action cfg) where
  init s := s = start cfg
  step s
    | .cpu i => (cpuStep s.kernel (s.cpu i)).map fun (k, c) => s.setCpu i k c
    | .ld => (ldStep s.kernel).map fun k => { s with kernel := k }

theorem step_cpu {s t : Dispatch cfg} {i : Fin cfg.numCpus} :
    (system cfg).step s (.cpu i) = some t ↔
      ∃ k c, cpuStep s.kernel (s.cpu i) = some (k, c) ∧ t = s.setCpu i k c := by
  simp [system, eq_comm]

/-- Everything the loader can do here. -/
theorem step_ld {s t : Dispatch cfg} (step : (system cfg).step s .ld = some t) :
    (∃ more : s.kernel.loaded < cfg.numProcesses,
        t = { s with kernel := s.kernel.addProc ⟨s.kernel.loaded, more⟩ }) ∨
      t = { s with kernel := s.kernel.setDone } := by
  obtain ⟨k, ran, rfl⟩ := Option.map_eq_some_iff.mp step
  rw [ldStep] at ran
  split at ran
  · rename_i more
    cases ran
    exact .inl ⟨more, rfl⟩
  · split at ran
    · cases ran
    · cases ran
      exact .inr rfl

/-- Who has which process: the ready queues and the CPUs. -/
def places (s : Dispatch cfg) : Prio ⊕ Fin cfg.numCpus → List cfg.Proc :=
  Sum.elim s.kernel.sched.levels fun i => (s.cpu i).held.toList

@[simp] theorem places_inl (s : Dispatch cfg) (l : Prio) :
    s.places (.inl l) = s.kernel.sched.levels l := rfl

@[simp] theorem places_inr (s : Dispatch cfg) (i : Fin cfg.numCpus) :
    s.places (.inr i) = (s.cpu i).held.toList := rfl

theorem places_congr {s t : Dispatch cfg}
    (levels : t.kernel.sched.levels = s.kernel.sched.levels)
    (held : ∀ i, (t.cpu i).held = (s.cpu i).held) : t.places = s.places := by
  unfold places
  simp only [levels, held]

/-- The accounts of a step that changes one queue and one CPU. -/
theorem occurrences_setCpu (s : Dispatch cfg) {l : Prio} {i : Fin cfg.numCpus}
    {ps : List cfg.Proc} {k : Kernel cfg} {c : Cpu cfg.Proc}
    (levels : k.sched.levels = Function.update s.kernel.sched.levels l ps) (p : cfg.Proc) :
    occurrences (s.setCpu i k c).places p + (s.kernel.sched.levels l).count p +
        (s.cpu i).held.toList.count p =
      occurrences s.places p + ps.count p + c.held.toList.count p := by
  have moved : (s.setCpu i k c).places =
      Function.update (Function.update s.places (.inl l) ps) (.inr i) c.held.toList := by
    unfold places
    rw [setCpu_kernel, levels, Sum.update_elim_inl, Sum.update_elim_inr]
    congr 1
    exact Function.comp_update (fun c : Cpu cfg.Proc => c.held.toList) s.cpu i c
  rw [moved]
  have queue := Custody.occurrences_update s.places (.inl l) ps p
  have holder := Custody.occurrences_update (Function.update s.places (.inl l) ps) (.inr i)
    c.held.toList p
  rw [Function.update_of_ne (by simp)] at holder
  simp only [places_inl, places_inr] at queue holder
  omega

theorem held_setCpu (s : Dispatch cfg) {i : Fin cfg.numCpus} (k : Kernel cfg) {c : Cpu cfg.Proc}
    (same : c.held = (s.cpu i).held) (j : Fin cfg.numCpus) :
    ((s.setCpu i k c).cpu j).held = (s.cpu j).held := by
  by_cases here : j = i
  · rw [here, setCpu_cpu_self, same]
  · rw [setCpu_cpu_of_ne _ _ _ here]

/-- An insertion adds one occurrence of the process inserted, or none when the
level is full. -/
theorem count_insert {cap : Nat} {l : Prio} {p : cfg.Proc}
    {q : StrictPriority.Levels maxPrio cfg.Proc} (r : cfg.Proc) :
    (StrictPriority.insert cap l p q l).count r =
      (q l).count r + if (q l).length < cap then [p].count r else 0 := by
  by_cases room : (q l).length < cap
  · rw [StrictPriority.insert_of_room room, Function.update_self, List.count_append, if_pos room]
  · rw [StrictPriority.insert_of_full room, if_neg room, Nat.add_zero]

theorem insert_eq_update {cap : Nat} {l : Prio} {p : cfg.Proc}
    {q : StrictPriority.Levels maxPrio cfg.Proc} :
    StrictPriority.insert cap l p q =
      Function.update q l (StrictPriority.insert cap l p q l) := by
  by_cases room : (q l).length < cap
  · rw [StrictPriority.insert_of_room room, Function.update_self]
  · rw [StrictPriority.insert_of_full room, Function.update_eq_self]

/-- The `put_proc` that CPU `i` is about to make finds the level of `p` full. -/
structure PutDropped (s : Dispatch cfg) (i : Fin cfg.numCpus) (p : cfg.Proc) : Prop where
  check : (s.cpu i).pc = .check
  current : (s.cpu i).held = some p
  unfinished : s.kernel.pcOf p ≠ cfg.size p
  expired : (s.cpu i).timeLeft = 0
  full : maxQueueSize ≤ (s.kernel.sched.levels (cfg.prio p)).length

/-- The account of a CPU step: no process gains an occurrence, and one is lost
only by freeing the process or by putting it into a full level. -/
theorem occurrences_cpu {s t : Dispatch cfg} {i : Fin cfg.numCpus} {k : Kernel cfg}
    {c : Cpu cfg.Proc} (effect : CpuEffect s.kernel (s.cpu i) k c)
    (after : t = s.setCpu i k c) (p : cfg.Proc) :
    ∃ lost, occurrences t.places p + lost = occurrences s.places p ∧
      (lost ≠ 0 → k.freed p = true ∨ s.PutDropped i p) ∧
      (k.freed p = true → s.kernel.freed p = true ∨ 0 < lost) := by
  subst after
  cases effect with
  | keep levels held freed =>
      refine ⟨0, ?_, by simp, by simp [freed]⟩
      rw [places_congr levels (held_setCpu s k held), Nat.add_zero]
  | free q _ held _ sched gone freed =>
      have same : k.sched.levels =
          Function.update s.kernel.sched.levels 0 (s.kernel.sched.levels 0) := by
        rw [Function.update_eq_self, sched]
      have account := s.occurrences_setCpu (i := i) (c := c) same p
      rw [held, gone, Option.toList_some, Option.toList_none, List.count_nil] at account
      refine ⟨[q].count p, by omega, ?_, ?_⟩
      · intro lost
        have same : p = q := by simpa using List.count_pos_iff.mp (Nat.pos_of_ne_zero lost)
        simp [freed, same]
      · intro gone
        by_cases same : p = q
        · exact .inr (by simp [same])
        · rw [freed, Function.update_of_ne same] at gone
          exact .inl gone
  | put q check held unfinished expired sched gone freed =>
      have inserted : k.sched.levels =
          StrictPriority.insert maxQueueSize (cfg.prio q) q s.kernel.sched.levels := by
        rw [sched, Sched.levels_putMlqProc]
      have account := s.occurrences_setCpu (i := i) (c := c) (inserted.trans insert_eq_update) p
      rw [held, gone, Option.toList_some, Option.toList_none, List.count_nil,
        count_insert] at account
      by_cases room : (s.kernel.sched.levels (cfg.prio q)).length < maxQueueSize
      · rw [if_pos room] at account
        exact ⟨0, by omega, by simp, by simp [freed]⟩
      · rw [if_neg room] at account
        refine ⟨[q].count p, by omega, ?_, fun dead => .inl (freed ▸ dead)⟩
        intro lost
        have same : p = q := by simpa using List.count_pos_iff.mp (Nat.pos_of_ne_zero lost)
        subst same
        exact .inr ⟨check, held, unfinished, expired, Nat.le_of_not_lt room⟩
  | dispatch l q rest held head levels taken freed =>
      have account := s.occurrences_setCpu (i := i) (c := c) levels p
      rw [held, taken, head, Option.toList_some, Option.toList_none, List.count_nil,
        List.count_cons, List.count_singleton] at account
      exact ⟨0, by omega, by simp, by simp [freed]⟩

/-- The account of an `add_proc`: the process loaded gains one occurrence, or
none when its level is full. -/
theorem occurrences_add (s : Dispatch cfg) (q p : cfg.Proc) :
    occurrences ({ s with kernel := s.kernel.addProc q } : Dispatch cfg).places p =
      occurrences s.places p +
        if (s.kernel.sched.levels (cfg.prio q)).length < maxQueueSize then [q].count p else 0 := by
  have queue := Custody.occurrences_update s.places (.inl (cfg.prio q))
    (StrictPriority.insert maxQueueSize (cfg.prio q) q s.kernel.sched.levels (cfg.prio q)) p
  have after : ({ s with kernel := s.kernel.addProc q } : Dispatch cfg).places =
      Function.update s.places (.inl (cfg.prio q))
        (StrictPriority.insert maxQueueSize (cfg.prio q) q s.kernel.sched.levels (cfg.prio q)) := by
    unfold places
    rw [Sum.update_elim_inl, ← insert_eq_update]
    simp [Kernel.addProc]
  rw [after]
  rw [places_inl, count_insert] at queue
  omega

end Dispatch
end SimpleOs
