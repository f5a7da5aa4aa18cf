import SimpleOs.Os.Ownership
import SimpleOs.Os.Invariant

/-!
# The threads are an interleaving of scheduler steps

Forgetting the turn and the timer, every step of a thread is a step of the
dispatch system or none. What holds of processes under every interleaving of
scheduler calls therefore holds of them in the whole program.
-/

namespace SimpleOs

open Custody (occurrences Exclusive)

/-- The process the loader has loaded and not yet added. -/
def LdPc.proc {P : Type*} : LdPc P → Option P
  | .inner p => some p
  | .slotDone next => next
  | .slotWait next => next
  | .waitTurn next => next
  | .innerSignal p => some p
  | .addProc p => some p
  | _ => none

namespace Os

variable {cfg : Config}

/-- What the position of the loader says about its index and `done`. -/
structure Loading (s : Os cfg) : Prop where
  proc : ∀ p, s.ld.proc = some p → p.val = s.dispatch.kernel.loaded
  last : s.ld = .finalSignal ∨ s.ld = .setDone → cfg.numProcesses ≤ s.dispatch.kernel.loaded
  done : s.dispatch.kernel.done = true → s.place .ld = .detach ∨ s.place .ld = .exited

theorem loading_start : Loading (start cfg) where
  proc := by intro p loaded; cases loaded
  last := by rintro (at_end | at_end) <;> cases at_end
  done := by intro done; cases done

theorem Loading.congr {s t : Os cfg} (loading : Loading s) (ld : t.ld = s.ld)
    (loaded : t.dispatch.kernel.loaded = s.dispatch.kernel.loaded)
    (done : t.dispatch.kernel.done = s.dispatch.kernel.done) : Loading t := by
  refine ⟨?_, ?_, ?_⟩
  · rw [ld, loaded]
    exact loading.proc
  · rw [ld, loaded]
    exact loading.last
  · rw [done]
    simp only [place, ld]
    exact loading.done

/-- A step of the loader keeps what its position says, and takes at most the step
of the loader in the dispatch system. -/
theorem Loading.stepLd {s t : Os cfg} (loading : Loading s) (step : s.stepLd = some t) :
    Loading t ∧ (t.dispatch = s.dispatch ∨
      (Dispatch.system cfg).step s.dispatch .ld = some t.dispatch) := by
  have running : s.place .ld ≠ .detach → s.place .ld ≠ .exited →
      s.dispatch.kernel.done = false := by
    intro notDetach notExited
    by_contra done
    obtain detach | exited := loading.done (Bool.not_eq_false _ ▸ done)
    · exact notDetach detach
    · exact notExited exited
  have proc := loading.proc
  have last := loading.last
  simp only [place] at running
  unfold Os.stepLd at step
  cases pc : s.ld with
  | addProc p =>
      simp only [pc, Option.some.injEq] at step
      subst step
      have next := proc p (by rw [pc]; rfl)
      have quiet := running (by simp [pc, LdPc.place]) (by simp [pc, LdPc.place])
      refine ⟨⟨by simp [goLd, LdPc.proc], by simp [goLd], ?_⟩, .inr ?_⟩
      · intro done
        simp [goLd, setKernel, Kernel.addProc, quiet] at done
      · have more : s.dispatch.kernel.loaded < cfg.numProcesses := next ▸ p.isLt
        have same : (⟨s.dispatch.kernel.loaded, more⟩ : cfg.Proc) = p := Fin.ext next.symm
        simp [Dispatch.system, Dispatch.ldStep, more, same, goLd, setKernel]
  | setDone =>
      simp only [pc, Option.some.injEq] at step
      subst step
      have all := last (.inr pc)
      have quiet := running (by simp [pc, LdPc.place]) (by simp [pc, LdPc.place])
      refine ⟨⟨by simp [goLd, LdPc.proc], by simp [goLd], ?_⟩, .inr ?_⟩
      · intro _
        exact .inl rfl
      · simp [Dispatch.system, Dispatch.ldStep, Nat.not_lt.mpr all, quiet, goLd, setKernel]
  | loopHead =>
      have quiet := running (by simp [pc, LdPc.place]) (by simp [pc, LdPc.place])
      simp only [pc] at step
      split at step
      · cases step
        refine ⟨⟨?_, by simp [goLd], by simp [goLd, quiet]⟩, .inl rfl⟩
        intro p loaded
        cases loaded
        rfl
      · rename_i all
        cases step
        exact ⟨⟨by simp [goLd, LdPc.proc], fun _ => Nat.le_of_not_lt all,
          by simp [goLd, quiet]⟩, .inl rfl⟩
  | exited => simp [pc] at step
  | detach =>
      simp only [pc, Option.some.injEq] at step
      subst step
      exact ⟨⟨by simp [goLd, LdPc.proc], by simp [goLd], fun _ => .inr rfl⟩, .inl rfl⟩
  | waitTurn next =>
      have quiet := running (by simp [pc, LdPc.place]) (by simp [pc, LdPc.place])
      simp only [pc, Option.ite_none_right_eq_some, Option.some.injEq] at step
      obtain ⟨_, rfl⟩ := step
      rw [pc] at proc
      refine ⟨⟨?_, ?_, by simp [goLd, quiet]⟩, .inl rfl⟩
      · intro p loaded
        cases next with
        | none => cases loaded
        | some q => exact proc p loaded
      · cases next <;> simp [goLd, resume]
  | _ =>
      have quiet := running (by simp [pc, LdPc.place]) (by simp [pc, LdPc.place])
      simp only [pc] at step proc last
      (try split at step) <;> cases step <;>
        refine ⟨⟨?_, ?_, ?_⟩, .inl rfl⟩ <;>
        simp_all [goLd, LdPc.proc, Os.slotDone, signalNextCpu]

/-- The threads of the dispatch system. -/
def Action.dispatch : Action cfg → Option (Dispatch.Action cfg)
  | .cpu i => some (.cpu i)
  | .ld => some .ld
  | .timer | .main => none

/-- A step of a thread is at most one step of the same thread in the dispatch
system, and a step of a CPU is one. -/
theorem Loading.step {s t : Os cfg} {a : Action cfg} (loading : Loading s)
    (step : (system cfg).step s a = some t) :
    Loading t ∧ ((t.dispatch = s.dispatch ∧ ∀ i, a ≠ .cpu i) ∨
      ∃ b, a.dispatch = some b ∧
        (Dispatch.system cfg).step s.dispatch b = some t.dispatch) := by
  cases a with
  | cpu i =>
      obtain ⟨_, k, c, ran, after⟩ := stepCpu_eq_some.mp step
      have kept := cpuStep_loader ran
      have dispatch : t.dispatch = s.dispatch.setCpu i k c := by rw [after]
      refine ⟨loading.congr (ld_stepCpu step) (by rw [dispatch]; exact kept.1)
        (by rw [dispatch]; exact kept.2),
        .inr ⟨.cpu i, rfl, ?_⟩⟩
      exact Dispatch.step_cpu.mpr ⟨k, c, ran, dispatch⟩
  | ld =>
      obtain ⟨after, same | ran⟩ := loading.stepLd step
      · exact ⟨after, .inl ⟨same, by simp⟩⟩
      · exact ⟨after, .inr ⟨.ld, rfl, ran⟩⟩
  | timer =>
      obtain ⟨dispatch, ld, -⟩ := stepTimer_frame step
      exact ⟨loading.congr ld (by rw [dispatch]) (by rw [dispatch]), .inl ⟨dispatch, by simp⟩⟩
  | main =>
      obtain ⟨pc, stop, rfl⟩ := stepMain_frame step
      exact ⟨loading.congr rfl rfl rfl, .inl ⟨rfl, by simp⟩⟩

/-- The program refines the dispatch system. -/
theorem dispatch_reachable {s : Os cfg} (reachable : (system cfg).Reachable s) :
    (Dispatch.system cfg).Reachable s.dispatch ∧ Loading s := by
  have initial : ∀ s, (system cfg).init s →
      ∃ d, (Dispatch.system cfg).init d ∧ (s.dispatch = d ∧ Loading s) := by
    rintro s rfl
    exact ⟨_, rfl, rfl, loading_start⟩
  have answer : ∀ s a t d, (s.dispatch = d ∧ Loading s) → (system cfg).step s a = some t →
      (t.dispatch = d ∧ Loading t) ∨
        ∃ b d', (Dispatch.system cfg).step d b = some d' ∧ (t.dispatch = d' ∧ Loading t) := by
    rintro s a t d ⟨rfl, loading⟩ step
    obtain ⟨after, ⟨same, _⟩ | ⟨b, _, ran⟩⟩ := loading.step step
    · exact .inl ⟨same, after⟩
    · exact .inr ⟨b, _, ran, rfl, after⟩
  obtain ⟨d, reached, same, loading⟩ := TransitionSystem.simulation initial answer reachable
  exact ⟨same ▸ reached, loading⟩

/-- The invariants of the dispatch system hold in the whole program. -/
theorem owned_of_reachable {s : Os cfg} (reachable : (system cfg).Reachable s) :
    s.dispatch.Owned ∧ s.dispatch.Fetched := by
  have interleaving := (dispatch_reachable reachable).1
  refine interleaving.invariant (P := fun d => d.Owned ∧ d.Fetched) ?_ ?_
  · rintro d rfl
    exact ⟨Dispatch.owned_start, Dispatch.fetched_start⟩
  · rintro d a d' - ⟨owned, fetched⟩ step
    exact ⟨Dispatch.owned_step owned step, Dispatch.fetched_step owned fetched step⟩

/-- No process is duplicated in the whole program. -/
theorem exclusive_of_reachable {s : Os cfg} (reachable : (system cfg).Reachable s) :
    Exclusive s.dispatch.places ∧ ∀ i j p, (s.dispatch.cpu i).held = some p →
      (s.dispatch.cpu j).held = some p → i = j := by
  obtain ⟨owned, -⟩ := owned_of_reachable reachable
  exact ⟨owned.exclusive, fun i j p here there => owned.holder_unique here there⟩

end Os
end SimpleOs
