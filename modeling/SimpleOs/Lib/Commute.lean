import SimpleOs.Lib.Transition

/-!
# One order of observations under every schedule

Two actions enabled in the same state commute when either of them can still be
taken after the other, both orders lead to the same state, and the second one
shows what it would have shown first. When moreover at most one of the two shows
anything, the schedule cannot be seen: the traces of any two runs are prefixes of
one another.

The argument moves the first action of one run to the front of the other one. In
a run where it never occurs it stays enabled to the end, and so everything that
was taken instead is silent. A predicate for states from which nothing is
observed any more takes those out where the diamond need not hold.
-/

namespace TransitionSystem

variable {σ α ε : Type*} {M : TransitionSystem σ α} {obs : σ → α → Option ε}

/-- Both orders of two steps lead to the same state and show the same, and one of
the two steps is silent. -/
structure Diamond (M : TransitionSystem σ α) (obs : σ → α → Option ε) (s : σ) (a b : α)
    (ta tb : σ) : Prop where
  joins : ∃ u, M.step ta b = some u ∧ M.step tb a = some u
  shows : obs ta b = obs s b ∧ obs tb a = obs s a
  silent : obs s a = none ∨ obs s b = none

theorem Diamond.symm {s ta tb : σ} {a b : α} (diamond : Diamond M obs s a b ta tb) :
    Diamond M obs s b a tb ta where
  joins := by
    obtain ⟨u, left, right⟩ := diamond.joins
    exact ⟨u, right, left⟩
  shows := diamond.shows.symm
  silent := diamond.silent.symm

/-- Action `a` is a silent modification `f` of the state, which `b` neither
disturbs nor notices. -/
structure Silent (M : TransitionSystem σ α) (obs : σ → α → Option ε) (s : σ) (a b : α)
    (f : σ → σ) : Prop where
  now : M.step s a = some (f s)
  later : ∀ t, M.step s b = some t → M.step t a = some (f t) ∧ obs t a = none
  unnoticed : M.step (f s) b = (M.step s b).map f ∧ obs (f s) b = obs s b
  quiet : obs s a = none

theorem Silent.diamond {s ta tb : σ} {a b : α} {f : σ → σ} (silent : Silent M obs s a b f)
    (stepA : M.step s a = some ta) (stepB : M.step s b = some tb) :
    Diamond M obs s a b ta tb := by
  obtain rfl : ta = f s := Option.some.inj (stepA.symm.trans silent.now)
  obtain ⟨after, quiet⟩ := silent.later tb stepB
  refine ⟨⟨f tb, ?_, after⟩, ⟨silent.unnoticed.2, quiet.trans silent.quiet.symm⟩,
    .inl silent.quiet⟩
  rw [silent.unnoticed.1, stepB]
  rfl

/-- What makes the schedules of a system indistinguishable: an invariant, a stable
predicate for states from which nothing is observed, and diamonds elsewhere. -/
structure Determinate (M : TransitionSystem σ α) (obs : σ → α → Option ε)
    (I : σ → Prop) (Over : σ → Prop) : Prop where
  preserved : ∀ s a t, I s → M.step s a = some t → I t
  stays : ∀ s a t, Over s → M.step s a = some t → Over t
  mute : ∀ s a, Over s → obs s a = none
  diamond : ∀ s a b ta tb, I s → ¬ Over s → a ≠ b → M.step s a = some ta →
    M.step s b = some tb → Diamond M obs s a b ta tb

namespace Determinate

variable {I Over : σ → Prop}

theorem trace_of_over (determinate : Determinate M obs I Over) {s : σ} (ended : Over s)
    {as : List α} {t : σ} (run : M.run s as = some t) : M.trace obs s as = [] := by
  induction as generalizing s with
  | nil => rfl
  | cons a as ih =>
      obtain ⟨u, step, rest⟩ := run_cons_eq_some.mp run
      rw [trace_cons_of_step step, determinate.mute s a ended,
        ih (determinate.stays s a u ended step) rest]
      rfl

/-- An action enabled at the start of a run is moved to its front, or is not needed
to show what the run shows; and then, if it shows anything itself, the run shows
nothing. -/
theorem front (determinate : Determinate M obs I Over) {s s' t : σ} {a : α} {bs : List α}
    (holds : I s) (step : M.step s a = some s') (run : M.run s bs = some t) :
    ∃ cs u, M.run s' cs = some u ∧
      (M.trace obs s bs = (obs s a).toList ++ M.trace obs s' cs ∨
        M.trace obs s bs = M.trace obs s' cs ∧ (obs s a = none ∨ M.trace obs s bs = [])) := by
  classical
  induction bs generalizing s s' with
  | nil => exact ⟨[], s', rfl, .inr ⟨rfl, .inr rfl⟩⟩
  | cons b bs ih =>
      by_cases ended : Over s
      · have mute := determinate.trace_of_over ended run
        exact ⟨[], s', rfl, .inr ⟨mute, .inr mute⟩⟩
      obtain ⟨u, first, rest⟩ := run_cons_eq_some.mp run
      by_cases same : a = b
      · subst same
        obtain rfl : s' = u := Option.some.inj (step.symm.trans first)
        exact ⟨bs, t, rest, .inl (trace_cons_of_step step)⟩
      · obtain ⟨⟨v, thenB, thenA⟩, ⟨showsB, showsA⟩, silent⟩ :=
          determinate.diamond s a b s' u holds ended same step first
        obtain ⟨cs, w, follows, shown⟩ := ih (determinate.preserved s b u holds first) thenA rest
        have whole : M.run s' (b :: cs) = some w := run_cons_eq_some.mpr ⟨v, thenB, follows⟩
        refine ⟨b :: cs, w, whole, ?_⟩
        rw [trace_cons_of_step first, trace_cons_of_step thenB, showsB]
        rw [showsA] at shown
        obtain front | ⟨same, quiet⟩ := shown
        · left
          rw [front]
          obtain none | none := silent <;> simp [none]
        · right
          refine ⟨by rw [same], ?_⟩
          obtain none | none := silent
          · exact .inl none
          · rw [none]
            exact quiet

/-- The traces of two runs from one state are prefixes of one another. -/
theorem comparable (determinate : Determinate M obs I Over) {s t u : σ} {as bs : List α}
    (holds : I s) (runA : M.run s as = some t) (runB : M.run s bs = some u) :
    M.trace obs s as <+: M.trace obs s bs ∨ M.trace obs s bs <+: M.trace obs s as := by
  induction as generalizing s bs u with
  | nil => exact .inl List.nil_prefix
  | cons a as ih =>
      obtain ⟨v, step, rest⟩ := run_cons_eq_some.mp runA
      have holds' := determinate.preserved s a v holds step
      obtain ⟨cs, w, follows, shown⟩ := determinate.front holds step runB
      have later := ih holds' rest follows
      rw [trace_cons_of_step step]
      obtain front | ⟨same, none | none⟩ := shown
      · rw [front]
        exact later.imp (List.prefix_append_right_inj _).mpr (List.prefix_append_right_inj _).mpr
      · rw [same, none]
        exact later
      · rw [none]
        exact .inr List.nil_prefix

end Determinate

end TransitionSystem
