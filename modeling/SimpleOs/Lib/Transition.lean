import Mathlib.Data.List.Basic

/-!
# Transition systems with a guarded, executable step

`step s a` is `some t` when action `a` is enabled in state `s`, and `none`
otherwise. An interleaving of several threads is therefore the list of the
threads that moved, and one definition serves replay on a concrete schedule and
proofs about every schedule.

Two induction rules are packaged here. `Reachable.invariant` is the ordinary
rule for invariants. `run_of_stepsMeet` is the rule for a property that only
holds along runs whose steps all meet a side condition.
-/

/-- A set of initial states and a partial step function. -/
structure TransitionSystem (σ α : Type*) where
  init : σ → Prop
  step : σ → α → Option σ

namespace TransitionSystem

variable {σ τ α β ε : Type*} {M : TransitionSystem σ α}

/-- Replay a schedule; `none` when some action along the way is disabled. -/
def run (M : TransitionSystem σ α) : σ → List α → Option σ
  | s, [] => some s
  | s, a :: as => (M.step s a).bind fun t => M.run t as

/-- The observations made along a schedule, one for each action that has one. -/
def trace (M : TransitionSystem σ α) (obs : σ → α → Option ε) : σ → List α → List ε
  | _, [] => []
  | s, a :: as =>
    match M.step s a with
    | none => []
    | some t => (obs s a).toList ++ M.trace obs t as

/-- States reached from an initial state by enabled actions. -/
inductive Reachable (M : TransitionSystem σ α) : σ → Prop
  | init {s : σ} : M.init s → Reachable M s
  | step {s t : σ} {a : α} : Reachable M s → M.step s a = some t → Reachable M t

/-- Every action of the schedule meets `C` in the state it is taken in. -/
def StepsMeet (M : TransitionSystem σ α) (C : σ → α → Prop) : σ → List α → Prop
  | _, [] => True
  | s, a :: as => C s a ∧ ∀ t, M.step s a = some t → M.StepsMeet C t as

instance instDecidableStepsMeet (M : TransitionSystem σ α) (C : σ → α → Prop)
    [∀ s a, Decidable (C s a)] : ∀ (s : σ) (as : List α), Decidable (M.StepsMeet C s as)
  | _, [] => .isTrue trivial
  | s, a :: as =>
    match stepped : M.step s a with
    | none => decidable_of_iff (C s a) (by simp [StepsMeet, stepped])
    | some t =>
      have := instDecidableStepsMeet M C t as
      decidable_of_iff (C s a ∧ M.StepsMeet C t as) (by simp [StepsMeet, stepped])

@[simp] theorem run_nil (s : σ) : M.run s [] = some s := rfl

@[simp] theorem run_cons (s : σ) (a : α) (as : List α) :
    M.run s (a :: as) = (M.step s a).bind fun t => M.run t as := rfl

theorem run_cons_eq_some {s u : σ} {a : α} {as : List α} :
    M.run s (a :: as) = some u ↔ ∃ t, M.step s a = some t ∧ M.run t as = some u := by
  rw [run_cons, Option.bind_eq_some_iff]

@[simp] theorem trace_nil (obs : σ → α → Option ε) (s : σ) : M.trace obs s [] = [] := rfl

theorem trace_cons_of_step {obs : σ → α → Option ε} {s t : σ} {a : α} {as : List α}
    (step : M.step s a = some t) :
    M.trace obs s (a :: as) = (obs s a).toList ++ M.trace obs t as := by
  simp [trace, step]

/-- An invariant of the initial states and of every step holds wherever a run leads. -/
theorem Reachable.invariant {P : σ → Prop} {s : σ} (reachable : M.Reachable s)
    (initial : ∀ s, M.init s → P s)
    (preserved : ∀ s a t, M.Reachable s → P s → M.step s a = some t → P t) : P s := by
  induction reachable with
  | init start => exact initial _ start
  | step before step ih => exact preserved _ _ _ before ih step

theorem Reachable.run {s t : σ} {as : List α} (reachable : M.Reachable s)
    (run : M.run s as = some t) : M.Reachable t := by
  induction as generalizing s with
  | nil =>
      cases run
      exact reachable
  | cons a as ih =>
      obtain ⟨u, step, rest⟩ := run_cons_eq_some.mp run
      exact ih (reachable.step step) rest

/-- What every step preserves, every run preserves. -/
theorem run_preserves {P : σ → Prop}
    (preserved : ∀ s a t, P s → M.step s a = some t → P t)
    {s t : σ} {as : List α} (run : M.run s as = some t) (start : P s) : P t := by
  induction as generalizing s with
  | nil =>
      cases run
      exact start
  | cons a as ih =>
      obtain ⟨u, step, rest⟩ := run_cons_eq_some.mp run
      exact ih rest (preserved s a u start step)

/-- Where two systems answer every action in the same way, they replay a schedule in the same
way. -/
theorem run_lockstep {N : TransitionSystem τ α} {f : σ → τ} {P : σ → Prop}
    (answer : ∀ s a, P s → (M.step s a).map f = N.step (f s) a)
    (preserved : ∀ s a t, P s → M.step s a = some t → P t) {s : σ} (start : P s) (as : List α) :
    (M.run s as).map f = N.run (f s) as := by
  induction as generalizing s with
  | nil => rfl
  | cons a as ih =>
      have same := answer s a start
      cases step : M.step s a with
      | none =>
          rw [step, Option.map_none] at same
          rw [run_cons, run_cons, step, ← same]
          rfl
      | some t =>
          rw [step, Option.map_some] at same
          rw [run_cons, run_cons, step, ← same]
          exact ih (preserved s a t start step)

/-- A condition on actions alone is met in whatever state they are taken. -/
theorem stepsMeet_of_forall {C : α → Prop} {as : List α} (each : ∀ a ∈ as, C a) (s : σ) :
    M.StepsMeet (fun _ => C) s as := by
  induction as generalizing s with
  | nil => trivial
  | cons a as ih =>
      obtain ⟨first, later⟩ := List.forall_mem_cons.mp each
      exact ⟨first, fun t _ => ih later t⟩

/-- What every step that meets `C` preserves holds after every run whose steps
all meet `C`. A prefix of such a run is such a run, so this covers every state
on the way. -/
theorem run_of_stepsMeet {P : σ → Prop} {C : σ → α → Prop}
    (preserved : ∀ s a t, P s → C s a → M.step s a = some t → P t)
    {s t : σ} {as : List α} (start : P s) (meets : M.StepsMeet C s as)
    (run : M.run s as = some t) : P t := by
  induction as generalizing s with
  | nil =>
      cases run
      exact start
  | cons a as ih =>
      obtain ⟨u, step, rest⟩ := run_cons_eq_some.mp run
      exact ih (preserved s a u start meets.1 step) (meets.2 u step) rest

/-- A relation between the observations so far and the state reached, kept by
every step, holds at the end of a run. -/
theorem trace_invariant {obs : σ → α → Option ε} {R : List ε → σ → Prop}
    (preserved : ∀ es s a t, R es s → M.step s a = some t → R (es ++ (obs s a).toList) t)
    {s t : σ} {as : List α} (start : R [] s) (run : M.run s as = some t) :
    R (M.trace obs s as) t := by
  suffices general : ∀ es, R es s → R (es ++ M.trace obs s as) t from general [] start
  clear start
  induction as generalizing s with
  | nil =>
      cases run
      intro es held
      rwa [trace_nil, List.append_nil]
  | cons a as ih =>
      obtain ⟨u, step, rest⟩ := run_cons_eq_some.mp run
      intro es held
      rw [trace_cons_of_step step, ← List.append_assoc]
      exact ih rest _ (preserved es s a u held step)

/-- Replaying in a system whose every step another system can answer by at most
one step of its own, while a relation is kept. -/
theorem simulation {N : TransitionSystem τ β} {R : σ → τ → Prop}
    (initial : ∀ s, M.init s → ∃ t, N.init t ∧ R s t)
    (answer : ∀ s a s' t, R s t → M.step s a = some s' →
      R s' t ∨ ∃ b t', N.step t b = some t' ∧ R s' t')
    {s : σ} (reachable : M.Reachable s) : ∃ t, N.Reachable t ∧ R s t := by
  induction reachable with
  | init start =>
      obtain ⟨t, begin, related⟩ := initial _ start
      exact ⟨t, .init begin, related⟩
  | @step u s a _ step ih =>
      obtain ⟨t, before, related⟩ := ih
      rcases answer _ _ _ _ related step with stays | ⟨b, t', moves, related'⟩
      · exact ⟨t, before, stays⟩
      · exact ⟨t', before.step moves, related'⟩

/-- A simulation whose answers show what they answer keeps the trace of a run. -/
theorem trace_simulation {N : TransitionSystem τ β} {R : σ → τ → Prop} {obs : σ → α → Option ε}
    {obs' : τ → β → Option ε}
    (answer : ∀ s a s' t, R s t → M.step s a = some s' →
      (R s' t ∧ obs s a = none) ∨ ∃ b t', N.step t b = some t' ∧ R s' t' ∧ obs' t b = obs s a)
    {s s' : σ} {t : τ} {as : List α} (related : R s t) (run : M.run s as = some s') :
    ∃ bs t', N.run t bs = some t' ∧ R s' t' ∧ N.trace obs' t bs = M.trace obs s as := by
  induction as generalizing s t with
  | nil =>
      cases run
      exact ⟨[], t, rfl, related, rfl⟩
  | cons a as ih =>
      obtain ⟨u, step, rest⟩ := run_cons_eq_some.mp run
      obtain ⟨stays, quiet⟩ | ⟨b, v, moves, next, same⟩ := answer _ _ _ _ related step
      · obtain ⟨bs, t', follows, last, shown⟩ := ih stays rest
        refine ⟨bs, t', follows, last, ?_⟩
        rw [trace_cons_of_step step, quiet, shown]
        rfl
      · obtain ⟨bs, t', follows, last, shown⟩ := ih next rest
        refine ⟨b :: bs, t', ?_, last, ?_⟩
        · rw [run_cons, moves]
          exact follows
        · rw [trace_cons_of_step step, trace_cons_of_step moves, same, shown]

end TransitionSystem
