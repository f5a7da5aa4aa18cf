import SimpleOs.Os.Cursor

/-!
# The invariant along every interleaving

The devices keep the invariant by `Inv.move`. This module adds the two threads
that are no devices. The timer moves no device, but it turns the page: when it
opens the next slot, every device that waits in `next_slot` has its body before
it again.
-/

namespace SimpleOs

open Rounds (Event)

namespace Os

variable {cfg : Config}

theorem mem_devList {n : Nat} (d : Dev n) : d ∈ devList n := by
  cases d <;> simp [devList]

theorem nodup_devList (n : Nat) : (devList n).Nodup := by
  simp only [devList, List.nodup_cons, List.mem_map, reduceCtorEq, and_false, exists_false,
    not_false_eq_true, true_and]
  refine List.Nodup.map ?_ (List.nodup_reverse.mpr (List.nodup_finRange n))
  intro i j same
  cases same
  rfl

theorem mem_joinList {n : Nat} (d : Dev n) : d ∈ joinList n := by
  cases d <;> simp [joinList]

/-- A step that moves no device, keeps all stages and the turn, and does not open
a slot, keeps the cursor. -/
theorem Cursor.congr {s t : Os cfg} {τ : Int} (cursor : s.Cursor τ)
    (stages : ∀ d, t.stage d = s.stage d) (turn : t.currentCpuTurn = s.currentCpuTurn)
    (resetting : t.resetting = s.resetting) : t.Cursor τ := by
  refine ⟨?_, ?_, ?_, ?_, ?_⟩
  · intro d above
    exact stages d ▸ cursor.above d above
  · intro d here
    exact stages d ▸ cursor.here d here
  · intro d below
    exact stages d ▸ cursor.below d below
  · rw [turn, stages, resetting]
    exact cursor.token
  · rw [resetting]
    exact cursor.bound

/-- A device whose flags the timer has seen set waits in `next_slot` or has ended. -/
theorem Flags.place_of_ready {s : Os cfg} (flags : s.Flags) {d : Dev cfg.numCpus}
    (ready : (s.dev d).done = true ∨ (s.dev d).fsh = true) :
    (s.place d = .slotWait ∧ (s.dev d).done = true) ∨ s.place d = .exited := by
  obtain done | fsh := ready
  · exact .inl ⟨flags.done d done, done⟩
  · exact .inr ((flags.fsh d).mp fsh)

/-- A pending device has the body of the new slot before it, or has ended. -/
theorem Flags.stage_of_pending {s : Os cfg} (flags : s.Flags) {d : Dev cfg.numCpus}
    (waits : s.pending d = true) : s.stage d = .before ∨ s.stage d = .gone := by
  obtain ⟨place, _⟩ | exited := flags.place_of_ready (flags.posted d waits)
  · simp [stage, place, waits]
  · simp [stage, exited]

theorem stage_of_ready {s : Os cfg} (flags : s.Flags) {d : Dev cfg.numCpus}
    (ready : (s.dev d).done = true ∨ (s.dev d).fsh = true) (quiet : s.pending d = false) :
    s.stage d = .after ∨ s.stage d = .gone := by
  obtain ⟨place, done⟩ | exited := flags.place_of_ready ready
  · simp [stage, place, done, quiet]
  · simp [stage, exited]

/-- What the timer leaves alone. -/
structure Still (s t : Os cfg) : Prop where
  dispatch : t.dispatch = s.dispatch
  ld : t.ld = s.ld
  cpuActive : t.cpuActive = s.cpuActive
  main : t.main = s.main
  timerStop : t.timerStop = s.timerStop

theorem place_congr {s t : Os cfg} (dispatch : t.dispatch = s.dispatch) (ld : t.ld = s.ld) :
    t.place = s.place := by
  funext d
  cases d with
  | ld => simp only [place, ld]
  | cpu i => simp only [place, dispatch]

theorem Still.place {s t : Os cfg} (still : Still s t) : t.place = s.place :=
  place_congr still.dispatch still.ld

theorem Still.active {s t : Os cfg} (still : Still s t) (active : s.Active) : t.Active := by
  intro i
  rw [still.cpuActive, still.dispatch]
  exact active i

theorem Still.joined {s t : Os cfg} (still : Still s t) (joined : s.Joined) : t.Joined := by
  refine ⟨?_, ?_⟩
  · rw [still.timerStop, still.place]
    exact joined.stopped
  · rw [still.main, still.place]
    exact joined.joined

/-- The timer goes on, and nothing but its position changes. -/
theorem Inv.goTimer {s : Os cfg} (inv : s.Inv) {pc : TimerPc cfg.numCpus}
    (pending : ∀ d, (s.goTimer pc).pending d = s.pending d)
    (resetting : (s.goTimer pc).resetting = s.resetting) (counted : (s.goTimer pc).Counted) :
    (s.goTimer pc).Inv := by
  obtain ⟨τ, cursor⟩ := inv.cursor
  have still : Still s (s.goTimer pc) := ⟨rfl, rfl, rfl, rfl, rfl⟩
  have stages : ∀ d, (s.goTimer pc).stage d = s.stage d := fun d =>
    stage_congr (congrFun still.place d) rfl (pending d)
  refine ⟨⟨τ, cursor.congr stages rfl resetting⟩, ⟨?_, ?_, ?_⟩, still.active inv.active, counted,
    still.joined inv.joined⟩
  · rw [still.place]
    exact inv.flags.done
  · rw [still.place]
    exact inv.flags.fsh
  · intro d waits
    exact inv.flags.posted d (pending d ▸ waits)

/-- The timer has seen all devices through with the slot, and opens the next one. -/
theorem Inv.openSlot {s : Os cfg} (inv : s.Inv) {fsh : Nat} (timer : s.timer = .check [] fsh) :
    (s.openSlot.goTimer (.reset fsh)).Inv := by
  let t : Os cfg := s.openSlot.goTimer (.reset fsh)
  have still : Still s t := ⟨rfl, rfl, rfl, rfl, rfl⟩
  have counted := inv.counted
  rw [Counted, timer] at counted
  obtain ⟨checked, split, ready, count⟩ := counted
  rw [List.append_nil] at split
  rw [split] at ready count
  have flags : t.Flags := by
    refine ⟨?_, ?_, fun d _ => ready d (mem_devList d)⟩
    · rw [still.place]
      exact inv.flags.done
    · rw [still.place]
      exact inv.flags.fsh
  refine ⟨⟨cfg.numCpus, ?_, ?_, ?_, .inr (.inr (.inr rfl)), .inr rfl⟩, flags,
    still.active inv.active, count, still.joined inv.joined⟩
  · intro d above
    have := d.rank_lt
    omega
  · intro d here
    have := d.rank_lt
    omega
  · intro d _
    exact flags.stage_of_pending rfl

/-- The timer gives the turn of the new slot to the highest active CPU. -/
theorem Inv.resetCpuOrder {s : Os cfg} (inv : s.Inv) {fsh : Nat} (timer : s.timer = .reset fsh) :
    (s.resetCpuOrder.goTimer (.release (devList cfg.numCpus) fsh)).Inv := by
  let t : Os cfg := s.resetCpuOrder.goTimer (.release (devList cfg.numCpus) fsh)
  have still : Still s t := ⟨rfl, rfl, rfl, rfl, rfl⟩
  have pending : ∀ d, t.pending d = true := fun d => decide_eq_true (mem_devList d)
  have counted := inv.counted
  rw [Counted, timer] at counted
  have flags : t.Flags := by
    refine ⟨?_, ?_, ?_⟩
    · rw [still.place]
      exact inv.flags.done
    · rw [still.place]
      exact inv.flags.fsh
    · intro d _
      exact inv.flags.posted d (by rw [Os.pending, timer])
  have stages : ∀ d, t.stage d = .before ∨ t.stage d = .gone := fun d =>
    flags.stage_of_pending (pending d)
  have active := still.active inv.active
  refine ⟨?_, flags, active, ⟨⟨[], rfl⟩, counted⟩, still.joined inv.joined⟩
  refine Cursor.seek (resetTurn_eq _ _) (Nat.le_refl _) ?_ ?_ ?_ ?_
  · intro d above
    have := d.rank_lt
    omega
  · intro d _
    exact stages d
  · intro j _ off before
    have through := active.stage_of_inactive off (by simp [t, before])
    simp [t, before] at through
  · intro j _ on
    exact active.stage_of_active on

theorem still_releaseDev (s : Os cfg) (d : Dev cfg.numCpus) (pc : TimerPc cfg.numCpus) :
    Still s ((s.releaseDev d).goTimer pc) := ⟨rfl, rfl, rfl, rfl, rfl⟩

theorem dev_releaseDev_self (s : Os cfg) (d : Dev cfg.numCpus) (pc : TimerPc cfg.numCpus) :
    ((s.releaseDev d).goTimer pc).dev d = { s.dev d with done := false } :=
  Function.update_self ..

theorem dev_releaseDev_of_ne (s : Os cfg) {d e : Dev cfg.numCpus} (pc : TimerPc cfg.numCpus)
    (apart : e ≠ d) : ((s.releaseDev d).goTimer pc).dev e = s.dev e :=
  Function.update_of_ne apart ..

/-- A device that waits for its release has its body before it already. -/
theorem Flags.stage_releaseDev {s : Os cfg} (flags : s.Flags) {d : Dev cfg.numCpus}
    {rest : List (Dev cfg.numCpus)} {fsh : Nat} (timer : s.timer = .release (d :: rest) fsh)
    (e : Dev cfg.numCpus) : ((s.releaseDev d).goTimer (.release rest fsh)).stage e = s.stage e := by
  have place := congrFun (s.still_releaseDev d (.release rest fsh)).place e
  by_cases same : e = d
  · subst same
    have waits : s.pending e = true := by simp [pending, timer]
    obtain ⟨here, _⟩ | exited := flags.place_of_ready (flags.posted e waits)
    · have later := place.trans here
      simp [stage, here, later, waits, dev_releaseDev_self]
    · have later := place.trans exited
      simp [stage, exited, later]
  · refine stage_congr place (s.dev_releaseDev_of_ne _ same) ?_
    simp [pending, timer, Os.goTimer, same]

/-- The timer releases a device from `next_slot`. -/
theorem Inv.releaseDev {s : Os cfg} (inv : s.Inv) {d : Dev cfg.numCpus}
    {rest : List (Dev cfg.numCpus)} {fsh : Nat} (timer : s.timer = .release (d :: rest) fsh) :
    ((s.releaseDev d).goTimer (.release rest fsh)).Inv := by
  have still := s.still_releaseDev d (.release rest fsh)
  have counted := inv.counted
  rw [Counted, timer] at counted
  obtain ⟨⟨released, split⟩, count⟩ := counted
  have absent : d ∉ rest := by
    have nodup := nodup_devList cfg.numCpus
    rw [← split] at nodup
    exact (List.nodup_cons.mp (List.nodup_append.mp nodup).2.1).1
  have fsh_same : ∀ e,
      (((s.releaseDev d).goTimer (.release rest fsh)).dev e).fsh = (s.dev e).fsh := by
    intro e
    by_cases same : e = d
    · subst same
      rw [dev_releaseDev_self]
    · rw [dev_releaseDev_of_ne _ _ same]
  obtain ⟨τ, cursor⟩ := inv.cursor
  refine ⟨⟨τ, cursor.congr (inv.flags.stage_releaseDev timer) rfl ?_⟩, ⟨?_, ?_, ?_⟩,
    still.active inv.active, ?_, still.joined inv.joined⟩
  · simp [Os.resetting, timer, Os.goTimer]
  · intro e done
    rw [still.place]
    by_cases same : e = d
    · subst same
      rw [dev_releaseDev_self] at done
      cases done
    · rw [dev_releaseDev_of_ne _ _ same] at done
      exact inv.flags.done e done
  · intro e
    rw [still.place, fsh_same]
    exact inv.flags.fsh e
  · intro e pending
    have member : e ∈ rest := of_decide_eq_true pending
    have apart : e ≠ d := by
      rintro rfl
      exact absent member
    rw [dev_releaseDev_of_ne _ _ apart]
    exact inv.flags.posted e (by simp [Os.pending, timer, member])
  · refine ⟨⟨released ++ [d], by rw [List.append_assoc]; exact split⟩, ?_⟩
    exact count.trans (List.countP_mono_left fun e _ fsh => (fsh_same e).trans fsh)

/-- Every step of the timer keeps the invariant. -/
theorem Inv.stepTimer {s t : Os cfg} (inv : s.Inv) (step : s.stepTimer = some t) : t.Inv := by
  have counted := inv.counted
  unfold Os.stepTimer at step
  split at step
  · rename_i timer
    cases step
    apply inv.goTimer
    · intro d
      split <;> simp [Os.pending, Os.goTimer, timer]
    · split <;> simp [Os.resetting, Os.goTimer, timer]
    · split
      · rename_i stop
        intro d
        exact (inv.flags.fsh d).mpr (inv.joined.stopped stop d)
      · exact ⟨[], rfl, by simp, Nat.zero_le _⟩
  · rename_i d rest fsh timer
    rw [Counted, timer] at counted
    obtain ⟨checked, split, ready, count⟩ := counted
    simp only [Option.ite_none_right_eq_some, Bool.or_eq_true, Option.some.injEq] at step
    obtain ⟨seen, rfl⟩ := step
    apply inv.goTimer
    · simp [Os.pending, Os.goTimer, timer]
    · simp [Os.resetting, Os.goTimer, timer]
    · refine ⟨checked ++ [d], by rw [List.append_assoc]; exact split, ?_, ?_⟩
      · intro e member
        obtain old | new := List.mem_append.mp member
        · exact ready e old
        · exact List.mem_singleton.mp new ▸ seen
      · rw [List.countP_append, List.countP_singleton]
        change (if (s.dev d).fsh = true then fsh + 1 else fsh) ≤
          (checked.countP fun d => (s.dev d).fsh) + if (s.dev d).fsh = true then 1 else 0
        split <;> omega
  · rename_i fsh timer
    cases step
    exact inv.openSlot timer
  · rename_i fsh timer
    cases step
    exact inv.resetCpuOrder timer
  · rename_i d rest fsh timer
    cases step
    exact inv.releaseDev timer
  · rename_i fsh timer
    rw [Counted, timer] at counted
    cases step
    apply inv.goTimer
    · intro d
      split <;> simp [Os.pending, Os.goTimer, timer]
    · split <;> simp [Os.resetting, Os.goTimer, timer]
    · split
      · rename_i all
        intro d
        rw [all] at counted
        exact List.countP_eq_length.mp (Nat.le_antisymm List.countP_le_length counted.2) d
          (mem_devList d)
      · trivial
  · cases step

/-- A step of the timer leaves all places alone, and all stages but when it opens a
slot. -/
theorem Inv.stage_stepTimer {s t : Os cfg} (inv : s.Inv) (step : s.stepTimer = some t) :
    t.place = s.place ∧ (s.event .timer = none → t.time = s.time ∧ ∀ d, t.stage d = s.stage d) := by
  unfold Os.stepTimer at step
  split at step
  · rename_i timer
    cases step
    have place : (s.goTimer (if s.timerStop then .exited else
        .check (devList cfg.numCpus) 0)).place = s.place := place_congr rfl rfl
    refine ⟨place, fun _ => ⟨rfl, fun d => stage_congr (congrFun place d) rfl ?_⟩⟩
    split <;> simp [Os.pending, Os.goTimer, timer]
  · rename_i d rest fsh timer
    simp only [Option.ite_none_right_eq_some, Bool.or_eq_true, Option.some.injEq] at step
    obtain ⟨_, rfl⟩ := step
    have place : (s.goTimer (.check rest (if (s.dev d).fsh then fsh + 1 else fsh))).place =
        s.place := place_congr rfl rfl
    refine ⟨place, fun _ => ⟨rfl, fun d => stage_congr (congrFun place d) rfl ?_⟩⟩
    simp [Os.pending, Os.goTimer, timer]
  · rename_i fsh timer
    cases step
    refine ⟨place_congr rfl rfl, fun quiet => ?_⟩
    simp [event, timer] at quiet
  · rename_i fsh timer
    cases step
    have place : (s.resetCpuOrder.goTimer (.release (devList cfg.numCpus) fsh)).place = s.place :=
      place_congr rfl rfl
    refine ⟨place, fun _ => ⟨rfl, fun d => stage_congr (congrFun place d) rfl ?_⟩⟩
    simp [Os.pending, Os.goTimer, timer, mem_devList]
  · rename_i d rest fsh timer
    cases step
    exact ⟨(s.still_releaseDev d _).place,
      fun _ => ⟨rfl, inv.flags.stage_releaseDev timer⟩⟩
  · rename_i fsh timer
    cases step
    have place : (s.goTimer (if fsh = (devList cfg.numCpus).length then .exited else
        .head)).place = s.place := place_congr rfl rfl
    refine ⟨place, fun _ => ⟨rfl, fun d => stage_congr (congrFun place d) rfl ?_⟩⟩
    split <;> simp [Os.pending, Os.goTimer, timer]
  · cases step

/-- Every step of `main` keeps the invariant. -/
theorem Inv.stepMain {s t : Os cfg} (inv : s.Inv) (step : s.stepMain = some t) : t.Inv := by
  have frame : t.dispatch = s.dispatch ∧ t.ld = s.ld ∧ t.timer = s.timer ∧ t.dev = s.dev ∧
      t.cpuActive = s.cpuActive ∧ t.currentCpuTurn = s.currentCpuTurn := by
    obtain ⟨pc, stop, rfl⟩ := stepMain_frame step
    exact ⟨rfl, rfl, rfl, rfl, rfl, rfl⟩
  obtain ⟨dispatch, ld, timer, dev, cpuActive, turn⟩ := frame
  have place := place_congr dispatch ld
  have pending : ∀ d, t.pending d = s.pending d := by
    intro d
    unfold Os.pending
    rw [timer]
  have stages : ∀ d, t.stage d = s.stage d := fun d =>
    stage_congr (congrFun place d) (congrFun dev d) (pending d)
  obtain ⟨τ, cursor⟩ := inv.cursor
  refine ⟨⟨τ, cursor.congr stages turn (by unfold Os.resetting; rw [timer])⟩, ⟨?_, ?_, ?_⟩, ?_, ?_,
    ?_⟩
  · rw [place, dev]
    exact inv.flags.done
  · rw [place, dev]
    exact inv.flags.fsh
  · intro d waits
    rw [dev]
    exact inv.flags.posted d (pending d ▸ waits)
  · intro i
    rw [cpuActive, dispatch]
    exact inv.active i
  · have counted := inv.counted
    unfold Counted at counted ⊢
    rw [timer, dev]
    exact counted
  · have joined := inv.joined
    unfold Os.stepMain at step
    split at step
    · rename_i d rest at_join
      simp only [Option.ite_none_right_eq_some, Option.some.injEq] at step
      obtain ⟨last, rfl⟩ := step
      obtain ⟨before, split, ended⟩ := joined.joined _ at_join
      refine ⟨fun stop => place ▸ joined.stopped stop, ?_⟩
      rintro rest' same
      cases same
      refine ⟨before ++ [d], by rw [List.append_assoc]; exact split, ?_⟩
      intro e member
      rw [place]
      obtain old | new := List.mem_append.mp member
      · exact ended e old
      · rw [List.mem_singleton.mp new]
        exact (s.ended_iff d).mp last
    · rename_i at_join
      cases step
      obtain ⟨before, split, ended⟩ := joined.joined _ at_join
      rw [List.append_nil] at split
      refine ⟨?_, by rintro rest' same; cases same⟩
      intro _ d
      rw [place]
      exact ended d (split ▸ mem_joinList d)
    · split at step
      · cases step
        exact ⟨fun stop => place ▸ joined.stopped stop, by rintro rest' same; cases same⟩
      · cases step
    · cases step

/-- The threads at the start. -/
theorem inv_start (few : cfg.numCpus ≤ 64) : (start cfg).Inv := by
  have places : ∀ d, (start cfg).place d = .turn := by
    intro d
    cases d <;> rfl
  have stages : ∀ d, (start cfg).stage d = .before := by
    intro d
    rw [stage, places]
  refine ⟨⟨(cfg.numCpus : Int) - 1, ?_, ?_, ?_, .inl rfl, .inl (by omega)⟩, ⟨?_, ?_, ?_⟩, ?_, trivial,
    ?_, ?_⟩
  · intro d above
    have := d.rank_lt
    omega
  · intro d _
    exact .inl (stages d)
  · intro d _
    exact .inl (stages d)
  · intro d done
    cases done
  · intro d
    rw [places]
    simp [start]
  · intro d waits
    cases waits
  · intro i
    have within : i.val < 64 := Nat.lt_of_lt_of_le i.isLt few
    simp [start, Dispatch.start, Cpu.start, CpuPc.stopping, within]
  · intro stop
    cases stop
  · intro rest at_join
    cases at_join
    exact ⟨[], rfl, by simp⟩

theorem Inv.step {s t : Os cfg} {a : Action cfg} (few : cfg.numCpus ≤ 64) (inv : s.Inv)
    (step : (system cfg).step s a = some t) : t.Inv := by
  cases a with
  | cpu i =>
      exact inv.move (stepCpu_frame step) (stepCpu_move step) (active_stepCpu few inv.active step)
  | ld =>
      exact inv.move (stepLd_frame step) (stepLd_move step) (active_stepLd inv.active step)
  | timer => exact inv.stepTimer step
  | main => exact inv.stepMain step

/-- Every interleaving keeps the invariant. -/
theorem inv_of_reachable (few : cfg.numCpus ≤ 64) {s : Os cfg}
    (reachable : (system cfg).Reachable s) : s.Inv := by
  refine reachable.invariant ?_ fun s a t _ inv step => inv.step few step
  rintro s rfl
  exact inv_start few

end Os
end SimpleOs
