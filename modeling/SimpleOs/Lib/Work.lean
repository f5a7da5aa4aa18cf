import SimpleOs.Lib.Transition

/-!
# Runs that have to reach the next round

A system with a clock and a potential. Between two ticks of the clock every step
spends some of the potential, and a tick may restore it up to a cap. So no run
takes more than a bounded number of steps in one round, whatever the schedule,
and a run that can go no further is the only other way not to reach a given one.
-/

namespace TransitionSystem

variable {σ α ε : Type*} {M : TransitionSystem σ α}

/-- While `I` holds, a step ticks the clock or spends work, of which there is at most `cap`. -/
structure Spends (M : TransitionSystem σ α) (I : σ → Prop) (clock work : σ → Nat)
    (cap : Nat) : Prop where
  preserved : ∀ s a t, I s → M.step s a = some t → I t
  bounded : ∀ s, I s → work s ≤ cap
  spends : ∀ s a t, I s → M.step s a = some t →
    clock t = clock s + 1 ∨ clock t = clock s ∧ work t < work s

/-- The steps of a run are paid by the potential and by the rounds it goes through. -/
theorem Spends.length_add_le {I : σ → Prop} {clock work : σ → Nat} {cap : Nat}
    (spends : M.Spends I clock work cap) {s t : σ} {as : List α} (held : I s)
    (run : M.run s as = some t) :
    as.length + clock s * (cap + 1) + work t ≤ clock t * (cap + 1) + work s := by
  induction as generalizing s with
  | nil =>
      cases run
      simp
  | cons a as ih =>
      obtain ⟨u, step, rest⟩ := run_cons_eq_some.mp run
      have later := ih (spends.preserved s a u held step) rest
      rw [List.length_cons]
      obtain tick | ⟨same, less⟩ := spends.spends s a u held step
      · have restored := spends.bounded u (spends.preserved s a u held step)
        rw [tick, Nat.succ_mul] at later
        omega
      · rw [same] at later
        omega

/-- A run that is long enough has gone through the given number of rounds. -/
theorem Spends.rounds_le {I : σ → Prop} {clock work : σ → Nat} {cap : Nat}
    (spends : M.Spends I clock work cap) {s t : σ} {as : List α} {rounds : Nat} (held : I s)
    (run : M.run s as = some t) (long : (clock s + rounds) * (cap + 1) ≤ as.length) :
    clock s + rounds ≤ clock t := by
  have paid := spends.length_add_le held run
  have start := spends.bounded s held
  by_contra early
  have below : clock t + 1 ≤ clock s + rounds := by omega
  have scaled := Nat.mul_le_mul_right (cap + 1) below
  rw [Nat.succ_mul] at scaled
  omega

/-- From every state there are runs of any length, unless one gets stuck before. -/
theorem exists_run (M : TransitionSystem σ α) (s : σ) (n : Nat) :
    ∃ as t, M.run s as = some t ∧ (n ≤ as.length ∨ ∀ a, M.step t a = none) := by
  induction n generalizing s with
  | zero => exact ⟨[], s, rfl, .inl (Nat.zero_le _)⟩
  | succ n ih =>
      by_cases stuck : ∀ a, M.step s a = none
      · exact ⟨[], s, rfl, .inr stuck⟩
      · push Not at stuck
        obtain ⟨a, moves⟩ := stuck
        obtain ⟨u, step⟩ := Option.ne_none_iff_exists'.mp moves
        obtain ⟨as, t, run, long⟩ := ih u
        refine ⟨a :: as, t, run_cons_eq_some.mpr ⟨u, step, run⟩, ?_⟩
        exact long.imp_left Nat.succ_le_succ

/-- What is observed along a run is observed in a state that can be reached. -/
theorem Reachable.of_mem_trace {obs : σ → α → Option ε} {s : σ} {as : List α} {e : ε}
    (reachable : M.Reachable s) (member : e ∈ M.trace obs s as) :
    ∃ u a, M.Reachable u ∧ obs u a = some e := by
  induction as generalizing s with
  | nil => simp at member
  | cons a as ih =>
      cases step : M.step s a with
      | none => simp [trace, step] at member
      | some u =>
          rw [trace_cons_of_step step, List.mem_append, Option.mem_toList] at member
          obtain now | later := member
          · exact ⟨s, a, reachable, now⟩
          · exact ih (reachable.step step) later

end TransitionSystem
