import Mathlib.Data.Fintype.Card
import SimpleOs.Lib.Transition

/-!
# Waiting on condition variables

In a transition system a thread that has to wait is one whose action is not enabled. A
program has no such waits: the thread tests its condition and goes to sleep where it does
not hold, and it sleeps until another thread signals, or wakes up for no reason. `threads`
is that program, for a system that says which threads stand at a wait and whom a step wakes.

It does what the system does if no wake-up is lost: a step that lets a waiting thread go on
wakes it. Then a sleeping thread never has anything to do, and between two steps of the
system only so many threads can go to sleep. What the system can do at the end of a run the
program can do, and a run of the program is as long as one of the system, up to a factor and
the wake-ups without reason.
-/

/-- A system with an action for each thread, the threads that stand at a wait, and those that wait
for what a step signals. -/
structure Monitor (σ α : Type*) extends TransitionSystem σ α where
  waits : σ → α → Bool
  wakes : σ → α → α → Bool

namespace Monitor

variable {σ α : Type*}

/-- The data that the threads share, and who sleeps. -/
structure State (σ α : Type*) where
  shared : σ
  asleep : α → Bool

/-- A thread goes on, from its last wait or to sleep, or it wakes up without a signal. -/
inductive Action (α : Type*) where
  | go (a : α)
  | spurious (a : α)

def Action.isSpurious : Action α → Bool
  | go _ => false
  | spurious _ => true

section

variable [DecidableEq α] (m : Monitor σ α)

/-- The program. A thread that finds its condition false goes to sleep. -/
def threads : TransitionSystem (State σ α) (Action α) where
  init s := m.init s.shared ∧ ∀ a, s.asleep a = false
  step s
    | .go a =>
      if s.asleep a then none
      else
        match m.step s.shared a with
        | some t => some ⟨t, fun b => s.asleep b && !m.wakes s.shared a b⟩
        | none =>
          if m.waits s.shared a then some { s with asleep := Function.update s.asleep a true }
          else none
    | .spurious a =>
      if s.asleep a then some { s with asleep := Function.update s.asleep a false } else none

/-- The step of the system that a thread makes as it goes on. -/
def stepOf (s : State σ α) : Action α → Option α
  | .go a => if (m.step s.shared a).isSome then some a else none
  | .spurious _ => none

/-- No wake-up is lost: a thread at a wait that a step does not wake still has to wait. -/
def Signals : Prop :=
  ∀ s a t b, m.Reachable s → m.step s a = some t → m.step s b = none → m.waits s b = true →
    m.wakes s a b = false → m.step t b = none ∧ m.waits t b = true

end

variable [DecidableEq α] {m : Monitor σ α} {s t : State σ α} {a : α}

/-- What a thread does as it goes on: a step of the system, or it goes to sleep. -/
theorem go_cases (step : m.threads.step s (.go a) = some t) :
    s.asleep a = false ∧
      (m.step s.shared a = some t.shared ∧
          t.asleep = (fun b => s.asleep b && !m.wakes s.shared a b) ∨
        m.step s.shared a = none ∧ m.waits s.shared a = true ∧ t.shared = s.shared ∧
          t.asleep = Function.update s.asleep a true) := by
  simp only [threads] at step
  split at step
  · cases step
  rename_i awake
  refine ⟨by simpa using awake, ?_⟩
  split at step
  · rename_i u moved
    cases step
    exact .inl ⟨moved, rfl⟩
  · rename_i blocked
    split at step
    · rename_i waits
      cases step
      exact .inr ⟨blocked, waits, rfl, rfl⟩
    · cases step

theorem spurious_cases (step : m.threads.step s (.spurious a) = some t) :
    s.asleep a = true ∧ t.shared = s.shared ∧ t.asleep = Function.update s.asleep a false := by
  simp only [threads] at step
  split at step
  · rename_i asleep
    cases step
    exact ⟨asleep, rfl, rfl⟩
  · cases step

/-- What the program does the system does. -/
theorem run_shared {moves : List (Action α)} (run : m.threads.run s moves = some t) :
    m.run s.shared (m.threads.trace m.stepOf s moves) = some t.shared := by
  induction moves generalizing s with
  | nil =>
      cases run
      rfl
  | cons move moves ih =>
      obtain ⟨u, step, rest⟩ := TransitionSystem.run_cons_eq_some.mp run
      rw [TransitionSystem.trace_cons_of_step step]
      cases move with
      | go a =>
          obtain ⟨-, ⟨moved, -⟩ | ⟨blocked, -, same, -⟩⟩ := go_cases step
          · simpa [stepOf, moved] using ih rest
          · simpa [stepOf, blocked, same] using ih rest
      | spurious a =>
          obtain ⟨-, same, -⟩ := spurious_cases step
          simpa [stepOf, same] using ih rest

/-- A thread that sleeps stands at a wait and has to wait. -/
def Idle (m : Monitor σ α) (s : State σ α) : Prop :=
  ∀ a, s.asleep a = true → m.step s.shared a = none ∧ m.waits s.shared a = true

theorem Idle.step {move : Action α} (signals : m.Signals) (reachable : m.Reachable s.shared)
    (idle : m.Idle s) (step : m.threads.step s move = some t) :
    m.Reachable t.shared ∧ m.Idle t := by
  cases move with
  | go a =>
      obtain ⟨-, ⟨moved, asleep⟩ | ⟨blocked, waits, same, asleep⟩⟩ := go_cases step
      · refine ⟨reachable.step moved, fun b sleeps => ?_⟩
        rw [asleep, Bool.and_eq_true, Bool.not_eq_true'] at sleeps
        obtain ⟨before, unwoken⟩ := sleeps
        obtain ⟨waited, stood⟩ := idle b before
        exact signals _ _ _ b reachable moved waited stood unwoken
      · refine ⟨same ▸ reachable, fun b sleeps => ?_⟩
        rw [same]
        by_cases self : b = a
        · exact self ▸ ⟨blocked, waits⟩
        · rw [asleep, Function.update_of_ne self] at sleeps
          exact idle b sleeps
  | spurious a =>
      obtain ⟨-, same, asleep⟩ := spurious_cases step
      refine ⟨same ▸ reachable, fun b sleeps => ?_⟩
      rw [same]
      refine idle b ?_
      by_cases self : b = a
      · simp [asleep, self] at sleeps
      · rwa [asleep, Function.update_of_ne self] at sleeps

theorem idle_of_reachable (signals : m.Signals) (reachable : m.threads.Reachable s) :
    m.Reachable s.shared ∧ m.Idle s := by
  refine reachable.invariant (P := fun s => m.Reachable s.shared ∧ m.Idle s) ?_
    fun s a t _ held step => held.2.step signals held.1 step
  rintro s ⟨start, awake⟩
  refine ⟨.init start, fun a sleeps => ?_⟩
  rw [awake a] at sleeps
  cases sleeps

/-- What the system can do the program can do. -/
theorem go_of_step {t : σ} (signals : m.Signals) (reachable : m.threads.Reachable s)
    (step : m.step s.shared a = some t) : ∃ u, m.threads.step s (.go a) = some u ∧ u.shared = t := by
  obtain ⟨-, idle⟩ := idle_of_reachable signals reachable
  have awake : s.asleep a = false := by
    by_contra sleeps
    rw [(idle a (by simpa using sleeps)).1] at step
    cases step
  refine ⟨⟨t, fun b => s.asleep b && !m.wakes s.shared a b⟩, ?_, rfl⟩
  simp [threads, awake, step]

section Length

variable [Fintype α]

/-- How many threads sleep. -/
def sleepers (s : State σ α) : Nat := (Finset.univ.filter fun a => s.asleep a).card

omit [DecidableEq α] in
theorem sleepers_le (s : State σ α) : sleepers s ≤ Fintype.card α := Finset.card_le_univ _

theorem sleepers_update (other : State σ α) (awake : s.asleep a = false)
    (asleep : other.asleep = Function.update s.asleep a true) :
    sleepers other = sleepers s + 1 := by
  have more : (Finset.univ.filter fun b => other.asleep b) =
      insert a (Finset.univ.filter fun b => s.asleep b) := by
    ext b
    by_cases self : b = a <;> simp [asleep, self, Function.update_apply]
  rw [sleepers, more, Finset.card_insert_of_notMem (by simp [awake]), sleepers]

/-- The moves of a run are the steps of the system, at most so many threads that go to sleep for
each of them, and wake-ups without reason, after each of which the thread goes to sleep again. -/
theorem length_le {moves : List (Action α)} (run : m.threads.run s moves = some t) :
    moves.length + sleepers s ≤
      (Fintype.card α + 1) * (m.threads.trace m.stepOf s moves).length +
        2 * moves.countP Action.isSpurious + sleepers t := by
  induction moves generalizing s with
  | nil =>
      cases run
      simp
  | cons move moves ih =>
      obtain ⟨u, step, rest⟩ := TransitionSystem.run_cons_eq_some.mp run
      have later := ih rest
      rw [TransitionSystem.trace_cons_of_step step]
      have all := sleepers_le s
      cases move with
      | go a =>
          obtain ⟨awake, ⟨moved, -⟩ | ⟨blocked, -, -, asleep⟩⟩ := go_cases step
          · simp only [stepOf, moved, Option.isSome_some, if_true, Option.toList_some,
              List.singleton_append, List.length_cons, List.countP_cons, Action.isSpurious,
              Nat.mul_succ]
            simp only [Bool.false_eq_true, if_false]
            omega
          · have one := sleepers_update u awake asleep
            simp only [stepOf, blocked, Option.isSome_none, List.length_cons, List.countP_cons,
              Action.isSpurious, Bool.false_eq_true, if_false, Option.toList_none, List.nil_append]
            omega
      | spurious a =>
          obtain ⟨sleeps, -, asleep⟩ := spurious_cases step
          have one : sleepers s = sleepers u + 1 := by
            have awake : u.asleep a = false := by simp [asleep]
            refine sleepers_update s awake ?_
            rw [asleep, Function.update_idem, ← sleeps, Function.update_eq_self]
          simp only [stepOf, List.length_cons, List.countP_cons, Action.isSpurious, if_true,
            Option.toList_none, List.nil_append]
          omega

end Length

end Monitor
