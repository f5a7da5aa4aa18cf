import SimpleOs.Os.Turn

/-!
# The invariant of the turn protocol

In every time slot a cursor runs down the ranks, from the highest CPU to the
loader: devices above it are through with the slot, devices below it have it
before them, and only the device at the cursor can be in its body. While that
is a CPU the turn is the cursor. The loader moves the turn while it is in its
body, and no device can take that turn: all CPUs are through with the slot. The
timer starts the next slot only when no device is left before its body.
-/

namespace SimpleOs

open Rounds (Event)

namespace Os

variable {cfg : Config}

/-- The timer has opened the next slot and is about to reset the turn. -/
def resetting (s : Os cfg) : Bool :=
  match s.timer with
  | .reset _ => true
  | _ => false

/-- The cursor of the present slot is at rank `τ`. -/
structure Cursor (s : Os cfg) (τ : Int) : Prop where
  above : ∀ d : Dev cfg.numCpus, τ < d.rank → s.stage d = .after ∨ s.stage d = .gone
  here : ∀ d : Dev cfg.numCpus, d.rank = τ → s.stage d = .before ∨ s.stage d = .inside
  below : ∀ d : Dev cfg.numCpus, d.rank < τ → s.stage d = .before ∨ s.stage d = .gone
  token : s.currentCpuTurn = τ ∨ s.stage .ld = .inside ∨ τ < -1 ∨ s.resetting = true
  bound : τ < cfg.numCpus ∨ s.resetting = true

/-- What the flags say about places. -/
structure Flags (s : Os cfg) : Prop where
  done : ∀ d, (s.dev d).done = true → s.place d = .slotWait
  fsh : ∀ d, (s.dev d).fsh = true ↔ s.place d = .exited
  posted : ∀ d, s.pending d = true → (s.dev d).done = true ∨ (s.dev d).fsh = true

/-- A CPU is active until it marks itself inactive. -/
def Active (s : Os cfg) : Prop :=
  ∀ i : Fin cfg.numCpus, s.cpuActive i = false ↔ (s.dispatch.cpu i).pc.stopping = true

/-- What the timer knows from the devices it has looked at. -/
def Counted (s : Os cfg) : Prop :=
  match s.timer with
  | .head => True
  | .check rest fsh => ∃ checked, checked ++ rest = devList cfg.numCpus ∧
      (∀ d ∈ checked, (s.dev d).done = true ∨ (s.dev d).fsh = true) ∧
      fsh ≤ checked.countP fun d => (s.dev d).fsh
  | .reset fsh => fsh ≤ (devList cfg.numCpus).countP fun d => (s.dev d).fsh
  | .release rest fsh => (∃ released, released ++ rest = devList cfg.numCpus) ∧
      fsh ≤ (devList cfg.numCpus).countP fun d => (s.dev d).fsh
  | .exited => ∀ d, (s.dev d).fsh = true

/-- What `main` knows from the threads it has joined. -/
structure Joined (s : Os cfg) : Prop where
  stopped : s.timerStop = true → ∀ d, s.place d = .exited
  joined : ∀ rest, s.main = .join rest → ∃ joined, joined ++ rest = joinList cfg.numCpus ∧
    ∀ d ∈ joined, s.place d = .exited

/-- The invariant of the threads. -/
structure Inv (s : Os cfg) : Prop where
  cursor : ∃ τ, s.Cursor τ
  flags : s.Flags
  active : s.Active
  counted : s.Counted
  joined : s.Joined

theorem stage_congr {s t : Os cfg} {d : Dev cfg.numCpus} (place : t.place d = s.place d)
    (flags : t.dev d = s.dev d) (pending : t.pending d = s.pending d) :
    t.stage d = s.stage d := by
  unfold stage
  rw [place, flags, pending]

theorem stage_inside_iff (s : Os cfg) (d : Dev cfg.numCpus) :
    s.stage d = .inside ↔ s.place d = .body := by
  unfold stage
  cases s.place d <;> simp
  split <;> simp

theorem stage_gone_iff (s : Os cfg) (d : Dev cfg.numCpus) :
    s.stage d = .gone ↔ s.place d = .exited := by
  unfold stage
  cases s.place d <;> simp
  split <;> simp

theorem Flags.not_pending {s : Os cfg} (flags : s.Flags) {d : Dev cfg.numCpus}
    (notWait : s.place d ≠ .slotWait) (notExited : s.place d ≠ .exited) : s.pending d = false := by
  by_contra waits
  obtain done | fsh := flags.posted d (Bool.not_eq_false _ ▸ waits)
  · exact notWait (flags.done d done)
  · exact notExited ((flags.fsh d).mp fsh)

theorem Flags.not_resetting {s : Os cfg} (flags : s.Flags) {d : Dev cfg.numCpus}
    (notWait : s.place d ≠ .slotWait) (notExited : s.place d ≠ .exited) :
    s.resetting = false := by
  have quiet := flags.not_pending notWait notExited
  unfold pending at quiet
  unfold resetting
  cases timer : s.timer <;> simp_all

/-- Only the device at the cursor can be in its body. -/
theorem Cursor.rank_of_inside {s : Os cfg} {τ : Int} (cursor : s.Cursor τ)
    {d : Dev cfg.numCpus} (inside : s.stage d = .inside) : d.rank = τ := by
  obtain low | here | high := lt_trichotomy d.rank τ
  · obtain before | gone := cursor.below d low
    · simp [inside] at before
    · simp [inside] at gone
  · exact here
  · obtain after | gone := cursor.above d high
    · simp [inside] at after
    · simp [inside] at gone

/-- At most one device is in its body. -/
theorem Inv.inside_unique {s : Os cfg} (inv : s.Inv) {d e : Dev cfg.numCpus}
    (here : s.stage d = .inside) (there : s.stage e = .inside) : d = e := by
  obtain ⟨τ, cursor⟩ := inv.cursor
  exact Dev.rank_inj ((cursor.rank_of_inside here).trans (cursor.rank_of_inside there).symm)

/-- A device whose turn it is stands at the cursor. -/
theorem Cursor.rank_of_turn {s : Os cfg} {τ : Int} (cursor : s.Cursor τ) (flags : s.Flags)
    {d : Dev cfg.numCpus} (waits : s.place d = .turn) (turn : s.currentCpuTurn = d.rank) :
    d.rank = τ := by
  have before : s.stage d = .before := by simp [stage, waits]
  have reached : d.rank ≤ τ := by
    by_contra high
    obtain after | gone := cursor.above d (by omega)
    · simp [before] at after
    · simp [before] at gone
  have bottom := d.rank_ge
  obtain same | inside | low | reset := cursor.token
  · exact turn.symm.trans same
  · -- the loader is in its body, so the cursor is at the loader and `d` is the loader
    have rank : (-1 : Int) = τ := cursor.rank_of_inside inside
    have same : d = .ld := Dev.rank_inj (by change d.rank = -1; omega)
    rw [same] at before
    simp [before] at inside
  · omega
  · rw [flags.not_resetting (d := d) (by simp [waits]) (by simp [waits])] at reset
    cases reset

theorem Frame.pending {s t : Os cfg} {d : Dev cfg.numCpus} (frame : Frame s t d)
    (e : Dev cfg.numCpus) : t.pending e = s.pending e := by
  unfold Os.pending
  rw [frame.timer]

theorem Frame.resetting {s t : Os cfg} {d : Dev cfg.numCpus} (frame : Frame s t d) :
    t.resetting = s.resetting := by
  unfold Os.resetting
  rw [frame.timer]

theorem Frame.stage {s t : Os cfg} {d : Dev cfg.numCpus} (frame : Frame s t d)
    {e : Dev cfg.numCpus} (other : e ≠ d) : t.stage e = s.stage e :=
  stage_congr (frame.places e other) (frame.flags e other) (frame.pending e)

/-- The flags a move can change only go up. -/
theorem Move.flags_mono {s t : Os cfg} {d : Dev cfg.numCpus}
    {event : Option (Event (Dev cfg.numCpus))} (frame : Frame s t d) (move : Move s t d event)
    (e : Dev cfg.numCpus) :
    ((s.dev e).done = true → (t.dev e).done = true) ∧
      ((s.dev e).fsh = true → (t.dev e).fsh = true) := by
  by_cases same : e = d
  · subst same
    cases move with
    | enter _ _ _ flags _ => rw [flags]; exact ⟨id, id⟩
    | work _ _ flags _ => rw [flags]; exact ⟨id, id⟩
    | leave _ _ flags _ => rw [flags]; exact ⟨id, id⟩
    | quit _ _ flags _ => rw [flags]; exact ⟨id, id⟩
    | post _ _ flags _ => rw [flags]; exact ⟨fun _ => rfl, id⟩
    | wake _ _ _ flags _ => rw [flags]; exact ⟨id, id⟩
    | finish _ _ flags _ => rw [flags]; exact ⟨id, fun _ => rfl⟩
  · rw [frame.flags e same]
    exact ⟨id, id⟩

theorem Move.flags {s t : Os cfg} {d : Dev cfg.numCpus}
    {event : Option (Event (Dev cfg.numCpus))} (flags : s.Flags) (frame : Frame s t d)
    (move : Move s t d event) : t.Flags := by
  have posted : ∀ e, t.pending e = true → (t.dev e).done = true ∨ (t.dev e).fsh = true := by
    intro e waits
    obtain ⟨done, fsh⟩ := move.flags_mono frame e
    rw [frame.pending] at waits
    exact (flags.posted e waits).imp done fsh
  -- at the device that moves, a flag that is set names the place it moves to
  have own : ((t.dev d).done = true → t.place d = .slotWait) ∧
      ((t.dev d).fsh = true ↔ t.place d = .exited) := by
    have done := flags.done d
    have fsh := flags.fsh d
    cases move with
    | enter _ src dst same _ => rw [same, dst]; simp_all
    | work src dst same _ => rw [same, dst]; simp_all
    | leave src dst same _ => rw [same, dst]; simp_all
    | quit src dst same _ => rw [same, dst]; simp_all
    | post src dst same _ => rw [same, dst]; simp_all
    | wake src dst released same _ => rw [same, dst]; simp_all
    | finish src dst same _ => rw [same, dst]; simp_all
  refine ⟨?_, ?_, posted⟩
  · intro e done
    by_cases same : e = d
    · subst same
      exact own.1 done
    · rw [frame.flags e same] at done
      rw [frame.places e same]
      exact flags.done e done
  · intro e
    by_cases same : e = d
    · subst same
      exact own.2
    · rw [frame.flags e same, frame.places e same]
      exact flags.fsh e

theorem Move.counted {s t : Os cfg} {d : Dev cfg.numCpus}
    {event : Option (Event (Dev cfg.numCpus))} (counted : s.Counted) (frame : Frame s t d)
    (move : Move s t d event) : t.Counted := by
  have mono := move.flags_mono frame
  have more : ∀ l : List (Dev cfg.numCpus),
      (l.countP fun e => (s.dev e).fsh) ≤ l.countP fun e => (t.dev e).fsh :=
    fun l => List.countP_mono_left fun e _ => (mono e).2
  unfold Counted at counted ⊢
  rw [frame.timer]
  cases timer : s.timer with
  | head => trivial
  | check rest fsh =>
      rw [timer] at counted
      obtain ⟨checked, split, ready, count⟩ := counted
      exact ⟨checked, split, fun e member => (ready e member).imp (mono e).1 (mono e).2,
        count.trans (more checked)⟩
  | reset fsh =>
      rw [timer] at counted
      exact Nat.le_trans counted (more _)
  | release rest fsh =>
      rw [timer] at counted
      exact ⟨counted.1, counted.2.trans (more _)⟩
  | exited =>
      rw [timer] at counted
      exact fun e => (mono e).2 (counted e)

/-- The stage of the device that moves, before and after. -/
theorem Move.stage {s t : Os cfg} {d : Dev cfg.numCpus} {event : Option (Event (Dev cfg.numCpus))}
    (flags : s.Flags) (frame : Frame s t d) (move : Move s t d event) :
    match event with
    | some (.enter _) => s.stage d = .before ∧ t.stage d = .inside
    | some _ => s.stage d = .inside ∧ t.stage d = .after
    | none => t.stage d = s.stage d ∨ s.stage d = .after ∧ t.stage d = .gone := by
  cases move with
  | enter _ src dst _ _ => exact ⟨by simp [Os.stage, src], by simp [Os.stage, dst]⟩
  | work src dst _ _ => exact .inl (by simp [Os.stage, src, dst])
  | leave src dst _ _ => exact ⟨by simp [Os.stage, src], by simp [Os.stage, dst]⟩
  | quit src dst _ _ => exact ⟨by simp [Os.stage, src], by simp [Os.stage, dst]⟩
  | post src dst same _ =>
      have quiet := flags.not_pending (d := d) (by simp [src]) (by simp [src])
      exact .inl (by simp [Os.stage, src, dst, same, frame.pending, quiet])
  | wake src dst released _ _ => exact .inl (by simp [Os.stage, src, dst, released])
  | finish src dst _ _ => exact .inr ⟨by simp [Os.stage, src], by simp [Os.stage, dst]⟩

/-- A CPU starts to stop at `mark_cpu_inactive`, and never resumes. -/
theorem cpuStep_stopping {k k' : Kernel cfg} {c c' : Cpu cfg.Proc}
    (step : cpuStep k c = some (k', c')) :
    c'.pc.stopping = true ↔ c.pc = .markInactive ∨ c.pc.stopping = true := by
  obtain ⟨pc, proc, timeLeft⟩ := c
  cases pc with
  | check =>
      simp only [cpuStep] at step
      (try split at step) <;> (try split at step) <;> (try split at step) <;> cases step <;>
        simp [CpuPc.stopping]
  | get site =>
      simp only [cpuStep] at step
      split at step
      · cases step
        simp [CpuPc.stopping]
      · cases step
        split <;> simp [CpuPc.stopping]
  | recheck =>
      cases proc with
      | none =>
          cases step
          cases done : k.done <;> simp [CpuPc.stopping]
      | some p =>
          cases step
          simp [CpuPc.stopping]
  | run p =>
      cases step
      dsimp only
      split <;> simp [CpuPc.stopping]
  | exited => cases step
  | _ =>
      cases step
      simp [CpuPc.stopping]

theorem active_stepCpu {s t : Os cfg} {i : Fin cfg.numCpus} (few : cfg.numCpus ≤ 64)
    (active : s.Active) (step : s.stepCpu i = some t) : t.Active := by
  obtain ⟨_, k, c, ran, rfl⟩ := stepCpu_eq_some.mp step
  intro j
  have marked : (s.cpuSync i).cpuActive j = false ↔
      (j = i ∧ (s.dispatch.cpu i).pc = .markInactive) ∨ s.cpuActive j = false := by
    unfold cpuSync
    split
    · simp_all [signalNextCpu]
    · rename_i pc
      have within : i.val < 64 := Nat.lt_of_lt_of_le i.isLt few
      simp only [markCpuInactive, within, if_true]
      by_cases same : j = i
      · subst same
        simp [pc]
      · have apart : j.val ≠ i.val := fun h => same (Fin.ext h)
        simp [same, Function.update_of_ne apart]
    all_goals simp_all [signalNextCpu, slotDone, detachEvent]
  rw [marked, active j]
  by_cases same : j = i
  · subst same
    simp only [Dispatch.setCpu_cpu_self, true_and]
    exact (cpuStep_stopping ran).symm
  · rw [Dispatch.setCpu_cpu_of_ne _ _ _ same]
    simp [same]

theorem active_stepLd {s t : Os cfg} (active : s.Active) (step : s.stepLd = some t) :
    t.Active := by
  have same : t.cpuActive = s.cpuActive ∧ t.dispatch.cpu = s.dispatch.cpu := by
    unfold stepLd at step
    split at step <;> (try split at step) <;> cases step <;> exact ⟨rfl, rfl⟩
  intro i
  rw [same.1, same.2]
  exact active i

/-- An inactive CPU that is not in its body has had its last one. -/
theorem Active.stage_of_inactive {s : Os cfg} (active : s.Active) {i : Fin cfg.numCpus}
    (inactive : s.cpuActive i = false) (outside : s.stage (.cpu i) ≠ .inside) :
    s.stage (.cpu i) = .after ∨ s.stage (.cpu i) = .gone := by
  have stopping := (active i).mp inactive
  rw [Ne, stage_inside_iff] at outside
  simp only [stage, place] at outside ⊢
  cases pc : (s.dispatch.cpu i).pc <;> simp_all [CpuPc.stopping, CpuPc.place]

theorem Active.stage_of_active {s : Os cfg} (active : s.Active) {i : Fin cfg.numCpus}
    (on : s.cpuActive i = true) : s.stage (.cpu i) ≠ .gone := by
  rw [Ne, stage_gone_iff]
  intro exited
  have stopping : (s.dispatch.cpu i).pc.stopping = true := by
    simp only [place] at exited
    cases pc : (s.dispatch.cpu i).pc <;> simp_all [CpuPc.place, CpuPc.stopping]
  rw [(active i).mpr stopping] at on
  cases on

/-- Where the cursor stands once the turn is given to the highest active CPU of
those below `count`: at that CPU, or at the loader, or past it when that is gone. -/
theorem Cursor.seek {t : Os cfg} {active : Nat → Bool} {count : Nat}
    (turn : t.currentCpuTurn = scanActive active count) (range : count ≤ cfg.numCpus)
    (high : ∀ d : Dev cfg.numCpus, count ≤ d.rank → t.stage d = .after ∨ t.stage d = .gone)
    (low : ∀ d : Dev cfg.numCpus, d.rank < count → t.stage d = .before ∨ t.stage d = .gone)
    (off : ∀ j : Fin cfg.numCpus, j < count → active j = false → t.stage (.cpu j) ≠ .before)
    (on : ∀ j : Fin cfg.numCpus, j < count → active j = true → t.stage (.cpu j) ≠ .gone) :
    ∃ τ, t.Cursor τ := by
  have skipped : ∀ j : Fin cfg.numCpus, j < count → active j = false →
      t.stage (.cpu j) = .gone := by
    intro j under inactive
    obtain before | gone := low (.cpu j) (by simp only [Dev.rank]; omega)
    · exact absurd before (off j under inactive)
    · exact gone
  have bottom : ∀ d : Dev cfg.numCpus, -1 ≤ d.rank := Dev.rank_ge
  obtain ⟨none, quiet⟩ | ⟨j, under, found, active_j, quiet⟩ := scanActive_cases active count
  · have cpus : ∀ j : Fin cfg.numCpus, t.stage (.cpu j) = .after ∨ t.stage (.cpu j) = .gone := by
      intro j
      by_cases below : j.val < count
      · exact .inr (skipped j below (quiet j below))
      · exact high _ (by simp only [Dev.rank]; omega)
    obtain before | gone := low .ld (by simp only [Dev.rank]; omega)
    · refine ⟨-1, ?_, ?_, ?_, .inl (turn.trans none), .inl (by omega)⟩
      · intro d above
        cases d with
        | ld => exact absurd above (by simp [Dev.rank])
        | cpu j => exact cpus j
      · intro d here
        rw [Dev.rank_inj (d := d) (e := .ld) here]
        exact .inl before
      · intro d below
        have := bottom d
        omega
    · refine ⟨-2, ?_, ?_, ?_, .inr (.inr (.inl (by omega))), .inl (by omega)⟩
      · intro d _
        cases d with
        | ld => exact .inr gone
        | cpu j => exact cpus j
      · intro d here
        have := bottom d
        omega
      · intro d below
        have := bottom d
        omega
  · refine ⟨j, ?_, ?_, ?_, .inl (turn.trans found), .inl (by omega)⟩
    · intro d above
      by_cases reached : (count : Int) ≤ d.rank
      · exact high d reached
      · cases d with
        | ld =>
            simp only [Dev.rank] at above
            omega
        | cpu k =>
            simp only [Dev.rank] at above reached
            exact .inr (skipped k (by omega) (quiet k (by omega) (by omega)))
    · intro d here
      have same : d = .cpu ⟨j, by omega⟩ := Dev.rank_inj here
      obtain before | gone := low d (by omega)
      · exact .inl before
      · rw [same] at gone
        exact absurd gone (on ⟨j, by omega⟩ under active_j)
    · intro d below
      exact low d (by omega)

/-- A CPU at the cursor that is through with its body passes the turn on, and the
cursor moves with it. -/
theorem Cursor.pass {s t : Os cfg} {i : Fin cfg.numCpus} (cursor : s.Cursor (i : Nat))
    (active : s.Active) (frame : Frame s t (.cpu i)) (after : t.stage (.cpu i) = .after)
    (turn : t.currentCpuTurn = scanActive s.cpuActive i) : ∃ τ, t.Cursor τ := by
  have kept : ∀ {d : Dev cfg.numCpus}, d.rank ≠ (i : Nat) → t.stage d = s.stage d := by
    intro d differs
    apply frame.stage
    rintro rfl
    exact differs rfl
  have low : ∀ d : Dev cfg.numCpus, d.rank < (i : Nat) →
      t.stage d = .before ∨ t.stage d = .gone := by
    intro d under
    rw [kept (by omega)]
    exact cursor.below d under
  refine Cursor.seek turn (Nat.le_of_lt i.isLt) ?_ low ?_ ?_
  · intro d reached
    by_cases same : d.rank = (i : Nat)
    · rw [Dev.rank_inj (e := .cpu i) same]
      exact .inl after
    · rw [kept same]
      exact cursor.above d (by omega)
  · intro j under inactive before
    rw [kept (by simp only [Dev.rank]; omega)] at before
    have through := active.stage_of_inactive inactive (by simp [before])
    simp [before] at through
  · intro j under on
    rw [kept (by simp only [Dev.rank]; omega)]
    exact active.stage_of_active on

/-- The loader that is through with its body leaves all devices above the cursor. -/
theorem Cursor.finish {s t : Os cfg} {τ : Int} (cursor : s.Cursor τ) (frame : Frame s t .ld)
    (inside : s.stage .ld = .inside) (after : t.stage .ld = .after) : ∃ τ, t.Cursor τ := by
  have reached : (-1 : Int) = τ := cursor.rank_of_inside inside
  refine ⟨-2, ?_, ?_, ?_, .inr (.inr (.inl (by omega))), .inl (by omega)⟩
  · intro d _
    cases d with
    | ld => exact .inl after
    | cpu i =>
        rw [frame.stage (by simp)]
        exact cursor.above _ (by simp only [Dev.rank]; omega)
  · intro d here
    have := d.rank_ge
    omega
  · intro d below
    have := d.rank_ge
    omega

/-- A move that is no event of the round protocol keeps the cursor where it is. -/
theorem Cursor.stay {s t : Os cfg} {d : Dev cfg.numCpus} {τ : Int} (cursor : s.Cursor τ)
    (frame : Frame s t d)
    (stages : t.stage d = s.stage d ∨ s.stage d = .after ∧ t.stage d = .gone)
    (turn : t.currentCpuTurn = s.currentCpuTurn ∨ t.stage .ld = .inside) : t.Cursor τ := by
  have same : ∀ e, t.stage e = s.stage e ∨ s.stage e = .after ∧ t.stage e = .gone := by
    intro e
    by_cases self : e = d
    · exact self ▸ stages
    · exact .inl (frame.stage self)
  refine ⟨?_, ?_, ?_, ?_, ?_⟩
  · intro e above
    obtain equal | ⟨_, gone⟩ := same e
    · exact equal ▸ cursor.above e above
    · exact .inr gone
  · intro e here
    have stage := cursor.here e here
    obtain equal | ⟨after, _⟩ := same e
    · exact equal ▸ stage
    · simp [after] at stage
  · intro e below
    have stage := cursor.below e below
    obtain equal | ⟨after, _⟩ := same e
    · exact equal ▸ stage
    · simp [after] at stage
  · obtain kept | inside := turn
    · rw [kept, frame.resetting]
      refine cursor.token.imp_right (Or.imp_left fun inside => ?_)
      obtain equal | ⟨after, _⟩ := same .ld
      · exact equal.trans inside
      · simp [inside] at after
    · exact .inr (.inl inside)
  · rw [frame.resetting]
    exact cursor.bound

/-- The device at the cursor enters its body. -/
theorem Cursor.enter {s t : Os cfg} {d : Dev cfg.numCpus} {τ : Int} (cursor : s.Cursor τ)
    (frame : Frame s t d) (here : d.rank = τ) (inside : t.stage d = .inside)
    (turn : t.currentCpuTurn = τ) : t.Cursor τ := by
  have apart : ∀ e : Dev cfg.numCpus, e.rank ≠ τ → t.stage e = s.stage e := by
    intro e differs
    apply frame.stage
    rintro rfl
    exact differs here
  refine ⟨?_, ?_, ?_, .inl turn, ?_⟩
  · intro e above
    rw [apart e (by omega)]
    exact cursor.above e above
  · intro e equal
    rw [Dev.rank_inj (equal.trans here.symm)]
    exact .inr inside
  · intro e below
    rw [apart e (by omega)]
    exact cursor.below e below
  · rw [frame.resetting]
    exact cursor.bound

/-- Every move of a device keeps a cursor. -/
theorem Move.cursor {s t : Os cfg} {d : Dev cfg.numCpus}
    {event : Option (Event (Dev cfg.numCpus))} {τ : Int} (cursor : s.Cursor τ) (flags : s.Flags)
    (active : s.Active) (frame : Frame s t d) (move : Move s t d event) : ∃ τ, t.Cursor τ := by
  have stages := move.stage flags frame
  -- a body that ends: the CPU passes the turn on, the loader is the last of the slot
  have ends : s.stage d = .inside → t.stage d = .after →
      (∀ i, d = .cpu i → t.currentCpuTurn = scanActive s.cpuActive i) → ∃ τ, t.Cursor τ := by
    intro inside after passes
    cases d with
    | ld => exact cursor.finish frame inside after
    | cpu i =>
        have here : ((i : Nat) : Int) = τ := cursor.rank_of_inside inside
        subst here
        exact cursor.pass active frame after (passes i rfl)
  cases move with
  | enter turn src dst _ keeps =>
      have here := cursor.rank_of_turn flags src turn
      exact ⟨τ, cursor.enter frame here stages.2 (keeps.trans (turn.trans here))⟩
  | work src dst _ keeps =>
      refine ⟨τ, cursor.stay frame stages ?_⟩
      by_cases loader : d = .ld
      · subst loader
        exact .inr ((t.stage_inside_iff .ld).mpr dst)
      · exact .inl (keeps loader)
  | leave src dst _ passes => exact ends stages.1 stages.2 passes
  | quit src dst _ passes => exact ends stages.1 stages.2 passes
  | post src dst _ keeps => exact ⟨τ, cursor.stay frame stages (.inl keeps)⟩
  | wake src dst _ _ keeps => exact ⟨τ, cursor.stay frame stages (.inl keeps)⟩
  | finish src dst _ keeps => exact ⟨τ, cursor.stay frame stages (.inl keeps)⟩

/-- A thread that has ended does not move. -/
theorem Move.exited {s t : Os cfg} {d e : Dev cfg.numCpus}
    {event : Option (Event (Dev cfg.numCpus))} (frame : Frame s t d) (move : Move s t d event)
    (last : s.place e = .exited) : t.place e = .exited := by
  by_cases same : e = d
  · subst same
    cases move <;> simp_all
  · rw [frame.places e same]
    exact last

theorem Move.joined {s t : Os cfg} {d : Dev cfg.numCpus}
    {event : Option (Event (Dev cfg.numCpus))} (joined : s.Joined) (frame : Frame s t d)
    (move : Move s t d event) : t.Joined := by
  refine ⟨?_, ?_⟩
  · intro stop e
    rw [frame.timerStop] at stop
    exact move.exited frame (joined.stopped stop e)
  · intro rest at_join
    rw [frame.main] at at_join
    obtain ⟨before, split, last⟩ := joined.joined rest at_join
    exact ⟨before, split, fun e member => move.exited frame (last e member)⟩

theorem Inv.move {s t : Os cfg} {d : Dev cfg.numCpus} {event : Option (Event (Dev cfg.numCpus))}
    (inv : s.Inv) (frame : Frame s t d) (move : Move s t d event) (active : t.Active) :
    t.Inv := by
  obtain ⟨τ, cursor⟩ := inv.cursor
  exact ⟨move.cursor cursor inv.flags inv.active frame, move.flags inv.flags frame, active,
    move.counted inv.counted frame, move.joined inv.joined frame⟩

end Os
end SimpleOs
