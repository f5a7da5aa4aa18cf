import SimpleOs.Os.Invariant

/-!
# Time slots are rounds

`Shows` reads a state of the round protocol off a state of the threads, and
`shows_step` lets the threads run through that protocol: a device enters its
body, leaves or quits it, and the timer opens the next slot. So the history of
every interleaving is the one the protocol prescribes. With `progress`, which
finds a thread that can step as long as one has not ended, this is what the turn
protocol is for.
-/

namespace SimpleOs

open Rounds (Event)

/-- The devices in the order of their bodies: the CPUs from the highest down, and
then the loader. -/
def slotOrder (n : Nat) : List (Dev n) := (List.finRange n).reverse.map .cpu ++ [.ld]

theorem mem_slotOrder {n : Nat} (d : Dev n) : d ∈ slotOrder n := by
  cases d <;> simp [slotOrder]

/-- The order of the bodies is that of strictly decreasing ranks. -/
theorem slotOrder_sorted (n : Nat) : (slotOrder n).Pairwise fun d e => e.rank < d.rank := by
  rw [slotOrder, List.pairwise_append]
  refine ⟨?_, List.pairwise_singleton _ _, ?_⟩
  · rw [List.pairwise_map, List.pairwise_reverse]
    refine (List.pairwise_lt_finRange n).imp ?_
    intro i j less
    have : i.val < j.val := less
    simp only [Dev.rank]
    omega
  · intro d member e last
    obtain ⟨i, _, rfl⟩ := List.mem_map.mp member
    rw [List.mem_singleton.mp last]
    simp only [Dev.rank]
    omega

/-- In a list sorted by decreasing rank, the highest element with a property is
the first one. -/
theorem filter_eq_cons {α : Type*} {rank : α → Int} {l : List α}
    (sorted : l.Pairwise fun a b => rank b < rank a) {p q : α → Bool} {a : α} (member : a ∈ l)
    (here : p a = true) (highest : ∀ b, p b = true → rank b ≤ rank a) (not : q a = false)
    (rest : ∀ b, b ≠ a → p b = q b) : l.filter p = a :: l.filter q := by
  induction l with
  | nil => cases member
  | cons b l ih =>
      obtain ⟨above, sorted'⟩ := List.pairwise_cons.mp sorted
      obtain rfl | later := List.mem_cons.mp member
      · rw [List.filter_cons_of_pos here, List.filter_cons_of_neg (by simp [not])]
        congr 1
        apply List.filter_congr
        intro b in_tail
        apply rest
        rintro rfl
        exact absurd (above b in_tail) (lt_irrefl _)
      · have apart : b ≠ a := by
          rintro rfl
          exact absurd (above b later) (lt_irrefl _)
        have skip : p b = false := by
          by_contra on
          have below := above a later
          have limit := highest b (Bool.not_eq_false _ ▸ on)
          omega
        rw [List.filter_cons_of_neg (by simp [skip]),
          List.filter_cons_of_neg (by simp [← rest b apart, skip]), ih sorted' later]

namespace Os

variable {cfg : Config}

/-- The device takes part in the next slot. -/
def alive (s : Os cfg) (d : Dev cfg.numCpus) : Bool :=
  s.place d ≠ .detach ∧ s.place d ≠ .exited

/-- The body of the present slot is still to come. -/
def before (s : Os cfg) (d : Dev cfg.numCpus) : Bool := s.stage d = .before

/-- The state of the round protocol that a state of the threads shows. -/
structure Shows (s : Os cfg) (r : Rounds.State (Dev cfg.numCpus)) : Prop where
  time : r.time = s.time
  alive : r.alive = (slotOrder cfg.numCpus).filter s.alive
  todo : r.todo = (slotOrder cfg.numCpus).filter s.before
  busy : ∀ d, r.busy = some d ↔ s.stage d = .inside

/-- From `r` the protocol answers the event of a step, and `t` shows the answer. -/
def Answered (r : Rounds.State (Dev cfg.numCpus)) (t : Os cfg) :
    Option (Event (Dev cfg.numCpus)) → Prop
  | none => Shows t r
  | some e => ∃ r', Rounds.step r e = some r' ∧ Shows t r'

theorem shows_start : Shows (start cfg) (Rounds.start (slotOrder cfg.numCpus)) := by
  have places : ∀ d, (start cfg).place d = .turn := by
    intro d
    cases d <;> rfl
  refine ⟨rfl, ?_, ?_, ?_⟩
  · exact (List.filter_eq_self.mpr fun d _ => by simp [Os.alive, places]).symm
  · exact (List.filter_eq_self.mpr fun d _ => by simp [Os.before, stage, places]).symm
  · intro d
    simp [Rounds.start, stage, places]

/-- A step that is no event shows the same state of the protocol. -/
theorem Shows.keep {s t : Os cfg} {r : Rounds.State (Dev cfg.numCpus)} (shows : Shows s r)
    (time : t.time = s.time) (alive : ∀ d, t.alive d = s.alive d)
    (stages : ∀ d, t.stage d = s.stage d ∨ s.stage d = .after ∧ t.stage d = .gone) :
    Shows t r := by
  refine ⟨shows.time.trans time.symm, ?_, ?_, ?_⟩
  · rw [shows.alive]
    exact List.filter_congr fun d _ => (alive d).symm
  · rw [shows.todo]
    refine List.filter_congr fun d _ => ?_
    unfold before
    obtain same | ⟨after, gone⟩ := stages d
    · rw [same]
    · rw [after, gone]
      rfl
  · intro d
    rw [shows.busy d]
    obtain same | ⟨after, gone⟩ := stages d
    · rw [same]
    · simp [after, gone]

theorem Frame.alive {s t : Os cfg} {d e : Dev cfg.numCpus} (frame : Frame s t d) (apart : e ≠ d) :
    t.alive e = s.alive e := by
  unfold Os.alive
  rw [frame.places e apart]

namespace Shows

section Moves

variable {s t : Os cfg} {d : Dev cfg.numCpus} {r : Rounds.State (Dev cfg.numCpus)}

/-- A device that takes part as before. -/
theorem alive_frame (shows : Shows s r) (frame : Frame s t d) (alive : t.alive d = s.alive d) :
    r.alive = (slotOrder cfg.numCpus).filter t.alive := by
  rw [shows.alive]
  refine List.filter_congr fun e _ => ?_
  by_cases same : e = d
  · rw [same, alive]
  · exact (frame.alive same).symm

/-- A move in which the device neither takes its turn nor leaves its body. -/
theorem quiet (shows : Shows s r) (frame : Frame s t d) (alive : t.alive d = s.alive d)
    (stage : t.stage d = s.stage d ∨ s.stage d = .after ∧ t.stage d = .gone) : Shows t r := by
  refine shows.keep frame.time ?_ ?_
  · intro e
    by_cases same : e = d
    · exact same ▸ alive
    · exact frame.alive same
  · intro e
    by_cases same : e = d
    · exact same ▸ stage
    · exact .inl (frame.stage same)

/-- Nobody is in its body when a device takes its turn. -/
theorem free_of_turn (shows : Shows s r) (inv : s.Inv) (turn : s.currentCpuTurn = d.rank)
    (src : s.place d = .turn) (waiting : s.stage d = .before) : r.busy = none := by
  cases busy : r.busy with
  | none => rfl
  | some e =>
      obtain ⟨τ, cursor⟩ := inv.cursor
      have there := (shows.busy e).mp busy
      have same : e = d := Dev.rank_inj ((cursor.rank_of_inside there).trans
        (cursor.rank_of_turn inv.flags src turn).symm)
      rw [same, waiting] at there
      cases there

/-- The device that takes its turn is the next in the order. -/
theorem todo_of_turn (shows : Shows s r) (inv : s.Inv) (frame : Frame s t d)
    (turn : s.currentCpuTurn = d.rank) (src : s.place d = .turn) (waiting : s.stage d = .before)
    (inside : t.stage d = .inside) :
    r.todo = d :: (slotOrder cfg.numCpus).filter t.before := by
  rw [shows.todo]
  refine filter_eq_cons (slotOrder_sorted _) (mem_slotOrder d) (by simp [before, waiting])
    ?_ (by simp [before, inside]) ?_
  · intro e waits
    obtain ⟨τ, cursor⟩ := inv.cursor
    rw [cursor.rank_of_turn inv.flags src turn]
    by_contra high
    have stage := cursor.above e (by omega)
    have early : s.stage e = .before := of_decide_eq_true waits
    simp [early] at stage
  · intro e apart
    unfold before
    rw [frame.stage apart]

/-- What holds when a device leaves its body, whether for the next slot or for good. -/
theorem left (shows : Shows s r) (inv : s.Inv) (frame : Frame s t d) (inside : s.stage d = .inside)
    (done : t.stage d = .after) :
    r.busy = some d ∧ r.todo = (slotOrder cfg.numCpus).filter t.before ∧
      ∀ e, t.stage e ≠ .inside := by
  refine ⟨(shows.busy d).mpr inside, ?_, ?_⟩
  · rw [shows.todo]
    refine List.filter_congr fun e _ => ?_
    unfold before
    by_cases same : e = d
    · rw [same, inside, done]
      rfl
    · rw [frame.stage same]
  · intro e still
    by_cases same : e = d
    · rw [same, done] at still
      cases still
    · rw [frame.stage same] at still
      exact same (inv.inside_unique still inside)

/-- Every move of a device is the step of the protocol that its event names. -/
theorem move {event : Option (Event (Dev cfg.numCpus))} (inv : s.Inv) (after : t.Inv)
    (shows : Shows s r) (frame : Frame s t d) (move : Move s t d event) : Answered r t event := by
  have stages := move.stage inv.flags frame
  have time := shows.time.trans frame.time.symm
  cases move with
  | enter turn src dst flags keeps =>
      obtain ⟨waiting, inside⟩ := stages
      have free := shows.free_of_turn inv turn src waiting
      have todo := shows.todo_of_turn inv frame turn src waiting inside
      have alive := shows.alive_frame frame (by simp [Os.alive, src, dst])
      refine ⟨{ r with todo := r.todo.tail, busy := some d }, ?_, time, alive, by rw [todo]; rfl, ?_⟩
      · rw [Rounds.step, if_pos ⟨free, by rw [todo]; rfl⟩]
      · intro e
        simp only [Option.some.injEq]
        constructor
        · rintro rfl
          exact inside
        · intro there
          exact after.inside_unique inside there
  | work src dst _ _ => exact shows.quiet frame (by simp [Os.alive, src, dst]) stages
  | leave src dst _ _ =>
      obtain ⟨busy, todo, empty⟩ := shows.left inv frame stages.1 stages.2
      have alive := shows.alive_frame frame (by simp [Os.alive, src, dst])
      exact ⟨{ r with busy := none }, by rw [Rounds.step, if_pos busy], time, alive, todo,
        fun e => by simp [empty e]⟩
  | quit src dst _ _ =>
      obtain ⟨busy, todo, empty⟩ := shows.left inv frame stages.1 stages.2
      refine ⟨{ r with busy := none, alive := r.alive.filter (· ≠ d) },
        by rw [Rounds.step, if_pos busy], time, ?_, todo, fun e => by simp [empty e]⟩
      change r.alive.filter (· ≠ d) = _
      rw [shows.alive, List.filter_filter]
      refine List.filter_congr fun e _ => ?_
      by_cases same : e = d
      · simp [Os.alive, same, dst]
      · simp [same, frame.alive same]
  | post src dst _ _ => exact shows.quiet frame (by simp [Os.alive, src, dst]) stages
  | wake src dst _ _ _ => exact shows.quiet frame (by simp [Os.alive, src, dst]) stages
  | finish src dst _ _ => exact shows.quiet frame (by simp [Os.alive, src, dst]) stages

end Moves

end Shows

/-- The timer has an event only when it has checked all devices. -/
theorem event_timer {s : Os cfg} {e : Event (Dev cfg.numCpus)} (event : s.event .timer = some e) :
    ∃ fsh, s.timer = .check [] fsh ∧ e = .tick := by
  simp only [Os.event] at event
  split at event
  · rename_i fsh timer
    cases event
    exact ⟨fsh, timer, rfl⟩
  · cases event

/-- Devices that are all through with their slot leave the protocol nothing to do in it. -/
theorem Shows.slot_over {s : Os cfg} {r : Rounds.State (Dev cfg.numCpus)} (shows : Shows s r)
    (through : ∀ d, s.stage d = .after ∨ s.stage d = .gone) : r.busy = none ∧ r.todo = [] := by
  constructor
  · cases busy : r.busy with
    | none => rfl
    | some d =>
        have stage := through d
        simp [(shows.busy d).mp busy] at stage
  · rw [shows.todo]
    refine List.filter_eq_nil_iff.mpr fun d _ early => ?_
    have stage := through d
    simp [of_decide_eq_true early] at stage

/-- A step of the timer is nothing to the protocol, or its `tick`. -/
theorem Shows.timer {s t : Os cfg} {r : Rounds.State (Dev cfg.numCpus)} (inv : s.Inv)
    (shows : Shows s r) (step : s.stepTimer = some t) : Answered r t (s.event .timer) := by
  obtain ⟨place, quiet⟩ := inv.stage_stepTimer step
  have alive : ∀ d, t.alive d = s.alive d := by
    intro d
    unfold Os.alive
    rw [place]
  cases event : s.event .timer with
  | none =>
      obtain ⟨time, stages⟩ := quiet event
      exact shows.keep time alive fun d => .inl (stages d)
  | some e =>
      obtain ⟨fsh, timer, rfl⟩ := event_timer event
      have after : t.Inv := inv.stepTimer step
      simp only [Os.stepTimer, timer, Option.some.injEq] at step
      subst step
      have counted := inv.counted
      rw [Counted, timer] at counted
      obtain ⟨checked, split, ready, _⟩ := counted
      rw [List.append_nil] at split
      rw [split] at ready
      -- all devices are through with the old slot, and those left have the new one before them
      have old : ∀ d, s.stage d = .after ∨ s.stage d = .gone := fun d =>
        stage_of_ready inv.flags (ready d (mem_devList d)) (by simp [pending, timer])
      have new : ∀ d, (s.openSlot.goTimer (.reset fsh)).stage d = .before ∨
          (s.openSlot.goTimer (.reset fsh)).stage d = .gone := fun d =>
        after.flags.stage_of_pending rfl
      obtain ⟨free, todo⟩ := shows.slot_over old
      refine ⟨{ r with time := r.time + 1, todo := r.alive }, by rw [Rounds.step, if_pos ⟨free, todo⟩],
        by rw [shows.time]; rfl, ?_, ?_, ?_⟩
      · rw [shows.alive]
        exact List.filter_congr fun d _ => (alive d).symm
      · change r.alive = _
        rw [shows.alive]
        refine List.filter_congr fun d _ => ?_
        have seen := inv.flags.place_of_ready (ready d (mem_devList d))
        obtain early | gone := new d
        · have stay : s.place d ≠ .exited := by
            rw [← place, Ne, ← stage_gone_iff, early]
            simp
          obtain ⟨wait, _⟩ | exited := seen
          · simp [Os.alive, before, wait, early]
          · exact absurd exited stay
        · have exited := (stage_gone_iff _ d).mp gone
          rw [place] at exited
          simp [Os.alive, before, exited, gone]
      · intro d
        constructor
        · intro busy
          simp [free] at busy
        · intro inside
          have stage := new d
          simp [inside] at stage

/-- Every step of every thread is nothing to the protocol, or the step its event names. -/
theorem shows_step {s t : Os cfg} {a : Action cfg} {r : Rounds.State (Dev cfg.numCpus)}
    (few : cfg.numCpus ≤ 64) (inv : s.Inv) (shows : Shows s r)
    (step : (system cfg).step s a = some t) : Answered r t (s.event a) := by
  have after : t.Inv := inv.step few step
  cases a with
  | cpu i => exact shows.move inv after (stepCpu_frame step) (stepCpu_move step)
  | ld => exact shows.move inv after (stepLd_frame step) (stepLd_move step)
  | timer => exact shows.timer inv step
  | main =>
      have frame : t.place = s.place ∧ t.time = s.time ∧ ∀ d, t.stage d = s.stage d := by
        obtain ⟨pc, stop, rfl⟩ := stepMain_frame step
        exact ⟨place_congr rfl rfl, rfl,
          fun d => stage_congr (congrFun (place_congr rfl rfl) d) rfl rfl⟩
      obtain ⟨place, time, stages⟩ := frame
      refine shows.keep time ?_ fun d => .inl (stages d)
      intro d
      unfold Os.alive
      rw [place]

/-- The history of a run: the entries into and the ends of the bodies, each with
its time slot. -/
def entry (s : Os cfg) (a : Action cfg) : Option (Nat × Event (Dev cfg.numCpus)) :=
  (s.event a).map fun e => (s.time, e)

/-- The history of every run is a complete log of the round protocol. -/
theorem history_complete {s : Os cfg} {as : List (Action cfg)} (few : cfg.numCpus ≤ 64)
    (run : (system cfg).run (start cfg) as = some s) :
    ∃ r, Shows s r ∧ Rounds.Complete (slotOrder cfg.numCpus)
      ((system cfg).trace entry (start cfg) as) r := by
  refine (TransitionSystem.trace_invariant (M := system cfg)
    (R := fun log s => s.Inv ∧ ∃ r, Shows s r ∧
      Rounds.Complete (slotOrder cfg.numCpus) log r)
    ?_ ⟨inv_start few, _, shows_start, Rounds.complete_start _⟩ run).2
  rintro log s a t ⟨inv, r, shows, complete⟩ step
  refine ⟨inv.step few step, ?_⟩
  have related := shows_step few inv shows step
  unfold entry
  cases event : s.event a with
  | none =>
      rw [event] at related
      exact ⟨r, related, by simpa using complete⟩
  | some e =>
      rw [event] at related
      obtain ⟨r', moves, shows'⟩ := related
      refine ⟨r', shows', ?_⟩
      have extended := complete.step moves
      rw [shows.time] at extended
      exact extended

/-- All threads have ended. -/
structure Finished (s : Os cfg) : Prop where
  cpus : ∀ i, (s.dispatch.cpu i).pc = .exited
  ld : s.ld = .exited
  timer : s.timer = .exited
  main : s.main = .exited

/-- A device can step unless it has ended or waits: for its turn, or for the timer. -/
theorem exists_step_of_device {s : Os cfg} {d : Dev cfg.numCpus} (alive : s.place d ≠ .exited)
    (turn : s.place d = .turn → s.currentCpuTurn = d.rank)
    (slot : s.place d = .slotWait → (s.dev d).done = false) :
    ∃ a t, (system cfg).step s a = some t := by
  cases d with
  | cpu i =>
      have running : (s.dispatch.cpu i).pc ≠ .exited := by
        intro exited
        exact alive (by simp [place, exited, CpuPc.place])
      have ready : s.cpuReady i = true := by
        simp only [place, Dev.rank] at turn slot
        unfold cpuReady
        cases pc : (s.dispatch.cpu i).pc <;> simp_all [CpuPc.place]
      cases ran : cpuStep s.dispatch.kernel (s.dispatch.cpu i) with
      | none => exact absurd (cpuStep_eq_none.mp ran) running
      | some out => exact ⟨.cpu i, _, stepCpu_eq_some.mpr ⟨ready, out.1, out.2, ran, rfl⟩⟩
  | ld =>
      refine ⟨.ld, ?_⟩
      change ∃ t, s.stepLd = some t
      simp only [place, Dev.rank] at alive turn slot
      unfold stepLd
      cases pc : s.ld with
      | exited => exact absurd (by simp [pc, LdPc.place]) alive
      | startWait => simp [turn (by simp [pc, LdPc.place])]
      | waitTurn next => simp [turn (by simp [pc, LdPc.place])]
      | slotWait next => simp [slot (by simp [pc, LdPc.place])]
      | loopHead =>
          dsimp only
          split <;> exact ⟨_, rfl⟩
      | inner p =>
          dsimp only
          split <;> exact ⟨_, rfl⟩
      | _ => exact ⟨_, rfl⟩

/-- While the timer opens a slot or releases devices, it can step. -/
theorem exists_step_of_pending {s : Os cfg} {d : Dev cfg.numCpus} (waits : s.pending d = true) :
    ∃ a t, (system cfg).step s a = some t := by
  refine ⟨.timer, ?_⟩
  change ∃ t, s.stepTimer = some t
  unfold pending at waits
  unfold stepTimer
  cases timer : s.timer with
  | reset fsh => exact ⟨_, rfl⟩
  | release rest fsh =>
      cases rest with
      | nil => simp [timer] at waits
      | cons e rest => exact ⟨_, rfl⟩
  | _ => simp [timer] at waits

/-- Once all devices are through with the slot, some thread can step or all have ended. -/
theorem exists_step_of_through {s : Os cfg} (inv : s.Inv)
    (through : ∀ d, s.stage d = .after ∨ s.stage d = .gone) (unfinished : ¬ s.Finished) :
    ∃ a t, (system cfg).step s a = some t := by
  by_contra stuck
  -- no device is on its way into `next_slot` or out of its thread
  have ready : ∀ d, (s.place d = .slotWait ∧ (s.dev d).done = true) ∨ s.place d = .exited := by
    intro d
    by_contra moving
    have stage := through d
    refine stuck (exists_step_of_device (d := d) (fun exited => moving (.inr exited)) ?_ ?_)
    · intro waits
      simp [Os.stage, waits] at stage
    · intro waits
      rw [← Bool.not_eq_true]
      exact fun done => moving (.inl ⟨waits, done⟩)
  have timer : s.timer = .exited := by
    by_contra running
    apply stuck
    refine ⟨.timer, ?_⟩
    change ∃ t, s.stepTimer = some t
    unfold stepTimer
    cases timer : s.timer with
    | exited => exact absurd timer running
    | check rest fsh =>
        cases rest with
        | nil => exact ⟨_, rfl⟩
        | cons d rest =>
            obtain ⟨_, done⟩ | exited := ready d
            · simp [done]
            · simp [(inv.flags.fsh d).mpr exited]
    | release rest fsh => cases rest <;> exact ⟨_, rfl⟩
    | _ => exact ⟨_, rfl⟩
  have exited : ∀ d, s.place d = .exited := by
    have counted := inv.counted
    rw [Counted, timer] at counted
    exact fun d => (inv.flags.fsh d).mp (counted d)
  have main : s.main = .exited := by
    by_contra running
    apply stuck
    refine ⟨.main, ?_⟩
    change ∃ t, s.stepMain = some t
    unfold stepMain
    cases at_main : s.main with
    | exited => exact absurd at_main running
    | joinTimer => simp [timer]
    | join rest =>
        cases rest with
        | nil => exact ⟨_, rfl⟩
        | cons d rest => simp [(s.ended_iff d).mpr (exited d)]
  refine unfinished ⟨?_, ?_, timer, main⟩
  · intro i
    have last := exited (.cpu i)
    simp only [place] at last
    cases pc : (s.dispatch.cpu i).pc <;> simp_all [CpuPc.place]
  · have last := exited .ld
    simp only [place] at last
    cases pc : s.ld <;> simp_all [LdPc.place]

/-- As long as a thread has not ended, some thread can step. -/
theorem progress {s : Os cfg} (inv : s.Inv) (unfinished : ¬ s.Finished) :
    ∃ a t, (system cfg).step s a = some t := by
  obtain ⟨τ, cursor⟩ := inv.cursor
  by_cases opening : s.resetting = true
  · have waits : s.pending .ld = true := by
      unfold resetting at opening
      unfold pending
      cases timer : s.timer <;> simp_all
    exact exists_step_of_pending waits
  by_cases at_device : ∃ d : Dev cfg.numCpus, d.rank = τ
  · obtain ⟨d, here⟩ := at_device
    obtain early | inside := cursor.here d here
    · by_cases waits : s.pending d = true
      · exact exists_step_of_pending waits
      · apply exists_step_of_device (d := d)
        · intro exited
          simp [stage, exited] at early
        · intro at_turn
          obtain same | inside | low | reset := cursor.token
          · exact same.trans here.symm
          · have loader := cursor.rank_of_inside inside
            rw [Dev.rank_inj (here.trans loader.symm), inside] at early
            cases early
          · have := d.rank_ge
            omega
          · exact absurd reset opening
        · intro at_slot
          by_contra done
          simp [stage, at_slot, done, waits] at early
    · have body := (s.stage_inside_iff d).mp inside
      exact exists_step_of_device (d := d) (by simp [body]) (by simp [body]) (by simp [body])
  · -- no device has the rank of the cursor, so it is below all of them
    apply exists_step_of_through inv ?_ unfinished
    intro d
    apply cursor.above
    obtain within | reset := cursor.bound
    · have below : τ < -1 := by
        by_contra reached
        by_cases loader : τ = -1
        · exact at_device ⟨.ld, loader.symm⟩
        · exact at_device ⟨.cpu ⟨τ.toNat, by omega⟩, by simp only [Dev.rank]; omega⟩
      have := d.rank_ge
      omega
    · exact absurd reset opening

/-- The turn protocol of `timer.c`. Along every interleaving at most one of the
CPUs and the loader is in its slot body; in a finished slot exactly the devices
that had not stopped before ran their bodies, the CPUs in decreasing order and
the loader last, and in the present slot an initial part of them did; and some
thread can step unless all have ended. -/
theorem turn_protocol (cfg : Config) (_some : 1 ≤ cfg.numCpus) (few : cfg.numCpus ≤ 64)
    (as : List (Action cfg)) (s : Os cfg) (run : (system cfg).run (start cfg) as = some s) :
    (∀ d e, s.stage d = .inside → s.stage e = .inside → d = e) ∧
      (∀ t < s.time, Rounds.entered t ((system cfg).trace entry (start cfg) as) =
          Rounds.survivors (slotOrder cfg.numCpus) t ((system cfg).trace entry (start cfg) as) ∧
        Rounds.ended t ((system cfg).trace entry (start cfg) as) =
          Rounds.entered t ((system cfg).trace entry (start cfg) as)) ∧
      Rounds.entered s.time ((system cfg).trace entry (start cfg) as) <+:
        Rounds.survivors (slotOrder cfg.numCpus) s.time
          ((system cfg).trace entry (start cfg) as) ∧
      (¬ s.Finished → ∃ a t, (system cfg).step s a = some t) := by
  have inv : s.Inv := inv_of_reachable few ((TransitionSystem.Reachable.init rfl).run run)
  obtain ⟨r, shows, complete⟩ := history_complete few run
  refine ⟨fun d e here there => inv.inside_unique here there, ?_, ?_, progress inv⟩
  · intro t past
    exact complete.finished t (shows.time ▸ past)
  · exact shows.time ▸ complete.prefix_present

/-- Two CPUs and one process of one instruction. -/
def twoCpus : Config where
  timeSlot := 1
  numCpus := 2
  numProcesses := 1
  startTime := fun _ => 0
  prio := fun _ => 0
  size := fun _ => 1

/-- The first time slot: the CPUs find no process, the loader adds one, and the
timer goes on to the second slot. -/
def firstSlot : List (Action twoCpus) :=
  List.replicate 5 (.cpu ⟨1, by decide⟩) ++ List.replicate 5 (.cpu ⟨0, by decide⟩) ++
    List.replicate 7 .ld ++ List.replicate 7 .timer

theorem turn_protocol_two : ∃ s, (system twoCpus).run (start twoCpus) firstSlot = some s ∧
    s.time = 1 ∧
    Rounds.entered 0 ((system twoCpus).trace entry (start twoCpus) firstSlot) =
      Rounds.survivors (slotOrder 2) 0 ((system twoCpus).trace entry (start twoCpus) firstSlot) := by
  have runs : ((system twoCpus).run (start twoCpus) firstSlot).any (fun s => s.time = 1) = true := by
    decide +kernel
  obtain ⟨s, run, time⟩ := (Option.any_eq_true _ _).mp runs
  have time : s.time = 1 := of_decide_eq_true time
  obtain ⟨_, slots, _⟩ :=
    turn_protocol twoCpus (by decide) (by decide) firstSlot s run
  exact ⟨s, run, time, (slots 0 (by omega)).1⟩

end Os
end SimpleOs
