import SimpleOs.Os.Simulation

/-!
# Time slices

What one CPU does is told by the events of `cpu_routine`: the start of a turn, the
result of `get_proc`, the call of `run` and the instruction it executes, the
signal that ends the turn, and how a process leaves the CPU.

A dispatched process has a slice of events before it. `slice` says which they are,
and `Busy` says how much of the slice is still to come at each point of
`cpu_routine`. Within a turn, `outcome` keeps the calls of `run` and the empty
results of `get_proc`; one of the two happens, and it happens once.
-/

namespace SimpleOs

/-- What can be seen of a CPU. `dispatch` carries the `pc` of the process handed out,
`null` whether all ready queues were empty. -/
inductive CpuEvent (P : Type*) where
  | turn
  | dispatch (proc : P) (pc : Nat)
  | null (idle : Bool)
  | call (proc : P)
  | execute (proc : P) (pc : Nat)
  | signal
  | put (proc : P)
  | finish (proc : P)
  | stop
  deriving DecidableEq

variable {cfg : Config}

/-- The event of the next step of a CPU. -/
def cpuEvent (k : Kernel cfg) (c : Cpu cfg.Proc) : Option (CpuEvent cfg.Proc) :=
  match c.pc with
  | .waitTurn => some .turn
  | .check =>
    match c.proc with
    | none => none
    | some p =>
      if k.pcOf p = cfg.size p then some (.finish p)
      else if c.timeLeft = 0 then some (.put p)
      else none
  | .get _ =>
    match k.sched.getMlqSection with
    | .again _ => none
    | .ret none _ => some (.null (decide (∀ l, k.sched.levels l = [])))
    | .ret (some p) _ => some (.dispatch p (k.pcOf p))
  | .run p => some (.call p)
  | .execute p pc => some (.execute p pc)
  | .signal _ => some .signal
  | .markInactive => some .stop
  | _ => none

section Slices

variable (cfg)

/-- How many turns a process dispatched at `pc` gets: one for each instruction it
may execute, and one turn if there is none. -/
def sliceTurns (p : cfg.Proc) (pc : Nat) : Nat :=
  max 1 (min cfg.timeSlot.toNat (cfg.size p - pc))

/-- Turn `j` of a slice from the call of `run` to the start of the next turn. -/
def sliceTurn (p : cfg.Proc) (pc j : Nat) : List (CpuEvent cfg.Proc) :=
  .call p :: ((if pc + j < cfg.size p then [.execute p (pc + j)] else []) ++ [.signal, .turn])

/-- How the process leaves the CPU. -/
def sliceEnd (p : cfg.Proc) (pc : Nat) : CpuEvent cfg.Proc :=
  if cfg.size p - pc ≤ cfg.timeSlot.toNat then .finish p else .put p

/-- The events from turn `j` of a slice on. -/
def sliceFrom (p : cfg.Proc) (pc j : Nat) : List (CpuEvent cfg.Proc) :=
  ((List.range (sliceTurns cfg p pc)).drop j).flatMap (sliceTurn cfg p pc) ++ [sliceEnd cfg p pc]

/-- The events of a CPU after it is handed a process with that `pc`. -/
def slice (p : cfg.Proc) (pc : Nat) : List (CpuEvent cfg.Proc) := sliceFrom cfg p pc 0

end Slices

theorem sliceFrom_of_lt {p : cfg.Proc} {pc j : Nat} (inside : j < sliceTurns cfg p pc) :
    sliceFrom cfg p pc j = sliceTurn cfg p pc j ++ sliceFrom cfg p pc (j + 1) := by
  have bound : j < (List.range (sliceTurns cfg p pc)).length := by rwa [List.length_range]
  rw [sliceFrom, List.drop_eq_getElem_cons bound, List.getElem_range, List.flatMap_cons,
    List.append_assoc]
  rfl

theorem sliceFrom_sliceTurns (p : cfg.Proc) (pc : Nat) :
    sliceFrom cfg p pc (sliceTurns cfg p pc) = [sliceEnd cfg p pc] := by
  rw [sliceFrom, List.drop_of_length_le (by rw [List.length_range])]
  rfl

/-- The instruction that an event executes. -/
def CpuEvent.instruction {P : Type*} : CpuEvent P → Option (P × Nat)
  | .execute p pc => some (p, pc)
  | _ => none

/-- A slice executes `min(time_slot, r)` instructions, where `r` are left. -/
theorem instructions_slice (positive : 1 ≤ cfg.timeSlot) (p : cfg.Proc) (pc : Nat) :
    (slice cfg p pc).filterMap CpuEvent.instruction =
      (List.range (min cfg.timeSlot.toNat (cfg.size p - pc))).map fun j => (p, pc + j) := by
  have turn : ∀ j, (sliceTurn cfg p pc j).filterMap CpuEvent.instruction =
      if pc + j < cfg.size p then [(p, pc + j)] else [] := by
    intro j
    by_cases more : pc + j < cfg.size p
    · rw [sliceTurn, if_pos more, if_pos more]
      rfl
    · rw [sliceTurn, if_neg more, if_neg more]
      rfl
  have last : [sliceEnd cfg p pc].filterMap CpuEvent.instruction = [] := by
    rw [sliceEnd]
    split <;> rfl
  rw [slice, sliceFrom, List.drop_zero, List.filterMap_append, last, List.append_nil,
    List.filterMap_flatMap]
  simp only [turn]
  by_cases ended : cfg.size p ≤ pc
  · -- the one turn of a process without instructions
    have none : cfg.size p - pc = 0 := by omega
    have one : sliceTurns cfg p pc = 1 := by simp [sliceTurns, none]
    simp [one, none, ended]
  · have many : sliceTurns cfg p pc = min cfg.timeSlot.toNat (cfg.size p - pc) := by
      rw [sliceTurns]
      omega
    rw [many, List.map_eq_flatMap]
    apply List.flatMap_congr
    intro j inside
    have below := List.mem_range.mp inside
    rw [if_pos (by omega)]

/-! ## One slice -/

section Busy

variable (k : Kernel cfg) (p : cfg.Proc) (pc : Nat)

/-- A CPU in a slice of `p`, and the events of the slice that are still to come. In
turn `j` the process has executed `j` instructions before `run`, and one more after
it unless there was none. -/
inductive Busy : Cpu cfg.Proc → List (CpuEvent cfg.Proc) → Prop
  | recheck (j : Nat) (inside : j < sliceTurns cfg p pc) (points : k.pcOf p = pc + j) :
      Busy ⟨.recheck, some p, if j = 0 then 0 else cfg.timeSlot - j⟩ (sliceFrom cfg p pc j)
  | run (j : Nat) (inside : j < sliceTurns cfg p pc) (points : k.pcOf p = pc + j) :
      Busy ⟨.run p, some p, cfg.timeSlot - j⟩ (sliceFrom cfg p pc j)
  | execute (j : Nat) (inside : j < sliceTurns cfg p pc) (points : k.pcOf p = pc + j)
      (more : pc + j < cfg.size p) :
      Busy ⟨.execute p (pc + j), some p, cfg.timeSlot - j⟩
        (.execute p (pc + j) :: .signal :: .turn :: sliceFrom cfg p pc (j + 1))
  | signal (j : Nat) (inside : j < sliceTurns cfg p pc)
      (points : k.pcOf p = pc + min (j + 1) (cfg.size p - pc)) :
      Busy ⟨.signal true, some p, cfg.timeSlot - j⟩
        (.signal :: .turn :: sliceFrom cfg p pc (j + 1))
  | away (j : Nat) (here : CpuPc cfg.Proc) (inside : j < sliceTurns cfg p pc)
      (points : k.pcOf p = pc + min (j + 1) (cfg.size p - pc))
      (outside : here = .slotDone ∨ here = .slotWait ∨ here = .waitTurn) :
      Busy ⟨here, some p, cfg.timeSlot - (j + 1)⟩ (.turn :: sliceFrom cfg p pc (j + 1))
  | check (j : Nat) (inside : j < sliceTurns cfg p pc)
      (points : k.pcOf p = pc + min (j + 1) (cfg.size p - pc)) :
      Busy ⟨.check, some p, cfg.timeSlot - (j + 1)⟩ (sliceFrom cfg p pc (j + 1))

end Busy

theorem Busy.held {k : Kernel cfg} {p : cfg.Proc} {pc : Nat} {c : Cpu cfg.Proc}
    {todo : List (CpuEvent cfg.Proc)} (busy : Busy k p pc c todo) : c.held = some p := by
  cases busy with
  | away j here inside points outside =>
      obtain rfl | rfl | rfl := outside <;> rfl
  | _ => rfl

/-- Only the counter of the process matters. -/
theorem Busy.congr {k k' : Kernel cfg} {p : cfg.Proc} {pc : Nat} {c : Cpu cfg.Proc}
    {todo : List (CpuEvent cfg.Proc)} (busy : Busy k p pc c todo) (same : k'.pcOf p = k.pcOf p) :
    Busy k' p pc c todo := by
  cases busy with
  | recheck j inside points => exact .recheck j inside (same.trans points)
  | run j inside points => exact .run j inside (same.trans points)
  | execute j inside points more => exact .execute j inside (same.trans points) more
  | signal j inside points => exact .signal j inside (same.trans points)
  | away j here inside points outside => exact .away j here inside (same.trans points) outside
  | check j inside points => exact .check j inside (same.trans points)

/-- At the check after the last turn of a slice the process leaves the CPU. -/
theorem cpuEvent_last {k : Kernel cfg} {p : cfg.Proc} {pc j : Nat} (positive : 1 ≤ cfg.timeSlot)
    (bound : k.pcOf p ≤ cfg.size p) (points : k.pcOf p = pc + min (j + 1) (cfg.size p - pc))
    (last : j + 1 = sliceTurns cfg p pc) :
    cpuEvent k ⟨.check, some p, cfg.timeSlot - (j + 1)⟩ = some (sliceEnd cfg p pc) := by
  rw [sliceTurns] at last
  simp only [cpuEvent, sliceEnd]
  by_cases fits : cfg.size p - pc ≤ cfg.timeSlot.toNat
  · rw [if_pos fits, if_pos (by omega)]
  · rw [if_neg fits, if_neg (by omega), if_pos (by omega)]

/-- A step of a CPU in a slice shows the next event of the slice, or none. -/
theorem Busy.step {k k' : Kernel cfg} {p : cfg.Proc} {pc : Nat} {c c' : Cpu cfg.Proc}
    {todo : List (CpuEvent cfg.Proc)} (positive : 1 ≤ cfg.timeSlot) (busy : Busy k p pc c todo)
    (bound : k.pcOf p ≤ cfg.size p) (step : cpuStep k c = some (k', c')) :
    ∃ later, todo = (cpuEvent k c).toList ++ later ∧ (later = [] ∨ Busy k' p pc c' later) := by
  cases busy with
  | recheck j inside points =>
      have full : (if (if j = 0 then 0 else cfg.timeSlot - j) = 0 then cfg.timeSlot
          else if j = 0 then 0 else cfg.timeSlot - j) = cfg.timeSlot - (j : Int) := by
        by_cases first : j = 0
        · simp [first]
        · have below := inside
          rw [sliceTurns] at below
          simp only [if_neg first]
          rw [if_neg (by omega)]
      cases step
      refine ⟨_, rfl, .inr ?_⟩
      rw [full]
      exact .run j inside points
  | run j inside points =>
      cases step
      rw [sliceFrom_of_lt inside]
      by_cases more : pc + j < cfg.size p
      · refine ⟨_, rfl, .inr ?_⟩
        rw [if_neg (by omega), points, if_pos more]
        exact .execute j inside points more
      · refine ⟨_, rfl, .inr ?_⟩
        rw [if_pos (by omega), if_neg more]
        exact .signal j inside (by omega)
  | execute j inside points more =>
      cases step
      refine ⟨_, rfl, .inr (.signal j inside ?_)⟩
      simp only [Function.update_self, points]
      omega
  | signal j inside points =>
      have spent : cfg.timeSlot - (j : Int) - 1 = cfg.timeSlot - (j + 1) := by omega
      cases step
      refine ⟨_, rfl, .inr ?_⟩
      rw [if_pos rfl, spent]
      exact .away j _ inside points (.inl rfl)
  | away j here inside points outside =>
      obtain rfl | rfl | rfl := outside
      · cases step
        exact ⟨_, rfl, .inr (.away j _ inside points (.inr (.inl rfl)))⟩
      · cases step
        exact ⟨_, rfl, .inr (.away j _ inside points (.inr (.inr rfl)))⟩
      · cases step
        exact ⟨_, rfl, .inr (.check j inside points)⟩
  | check j inside points =>
      by_cases last : j + 1 = sliceTurns cfg p pc
      · rw [cpuEvent_last positive bound points last, last, sliceFrom_sliceTurns]
        exact ⟨[], rfl, .inl rfl⟩
      · have inner : j + 1 < min cfg.timeSlot.toNat (cfg.size p - pc) := by
          rw [sliceTurns] at inside last
          omega
        have unfinished : k.pcOf p ≠ cfg.size p := by omega
        have unexpired : cfg.timeSlot - ((j : Int) + 1) ≠ 0 := by omega
        have within : j + 1 < sliceTurns cfg p pc := by
          rw [sliceTurns]
          omega
        have points' : k.pcOf p = pc + (j + 1) := by omega
        have next := Busy.recheck (j + 1) within points'
        rw [if_neg (Nat.succ_ne_zero j), Nat.cast_add, Nat.cast_one] at next
        simp only [cpuStep, if_neg unfinished, if_neg unexpired] at step
        cases step
        refine ⟨sliceFrom cfg p pc (j + 1), ?_, .inr next⟩
        simp [cpuEvent, unfinished, unexpired]

/-- A CPU without a process has no time left over from an earlier one; inside
`run` it has a process. -/
def Rested (c : Cpu cfg.Proc) : Prop :=
  match c.pc with
  | .get .finished => True
  | .get _ => c.timeLeft = 0
  | .run _ | .execute _ _ | .signal true => c.proc ≠ none
  | _ => c.proc = none → c.timeLeft = 0

/-- The events of the step that returns from `get_proc`. -/
theorem cpuEvent_get {k k' : Kernel cfg} {c c' : Cpu cfg.Proc} {site : GetSite}
    (get : c.pc = .get site) (step : cpuStep k c = some (k', c')) :
    (cpuEvent k c = some (.null true) ∧ c' =
        ⟨if site = .load then .signal false else .recheck, none,
          if site = .finished then 0 else c.timeLeft⟩) ∨
      (∃ p, cpuEvent k c = some (.dispatch p (k.pcOf p)) ∧ k'.pcOf = k.pcOf ∧ c' =
        ⟨.recheck, some p, if site = .finished then 0 else c.timeLeft⟩) ∨
      (cpuEvent k c = none ∧ c' = c) := by
  obtain ⟨pc, proc, timeLeft⟩ := c
  dsimp only at get
  subst get
  obtain ⟨s, ret, empty, _⟩ | ⟨l, p, rest, s, ret, _⟩ | ⟨s, again, _⟩ :=
    k.sched.getMlqSection_cases
  · simp only [cpuStep, ret, Option.some.injEq, Prod.mk.injEq] at step
    obtain ⟨rfl, rfl⟩ := step
    left
    simp [cpuEvent, ret, empty]
  · simp only [cpuStep, ret, Option.some.injEq, Prod.mk.injEq] at step
    obtain ⟨rfl, rfl⟩ := step
    right; left
    exact ⟨p, by simp [cpuEvent, ret]⟩
  · simp only [cpuStep, again, Option.some.injEq, Prod.mk.injEq] at step
    obtain ⟨rfl, rfl⟩ := step
    right; right
    simp [cpuEvent, again]

theorem cpuStep_rested {k k' : Kernel cfg} {c c' : Cpu cfg.Proc} (rested : Rested c)
    (step : cpuStep k c = some (k', c')) : Rested c' := by
  obtain ⟨pc, proc, timeLeft⟩ := c
  cases pc with
  | get site =>
      obtain ⟨_, rfl⟩ | ⟨p, _, _, rfl⟩ | ⟨_, rfl⟩ := cpuEvent_get rfl step
      · cases site <;> simp_all [Rested]
      · simp [Rested]
      · exact rested
  | check =>
      simp only [cpuStep] at step
      (try split at step) <;> (try split at step) <;> (try split at step) <;> cases step <;>
        simp_all [Rested]
  | recheck =>
      simp only [cpuStep] at step
      split at step <;> cases step
      · cases k.done <;> simp_all [Rested]
      · simp [Rested]
  | run p =>
      cases step
      by_cases ended : k.pcOf p ≥ cfg.size p
      · rw [if_pos ended]
        exact rested
      · rw [if_neg ended]
        exact rested
  | signal ran =>
      cases step
      cases ran <;> simp_all [Rested]
  | exited => cases step
  | _ =>
      cases step
      simp_all [Rested]

/-- A process handed out has its whole slice before it. -/
theorem busy_of_dispatch {k k' : Kernel cfg} {c c' : Cpu cfg.Proc} {p : cfg.Proc} {pc : Nat}
    (rested : Rested c) (step : cpuStep k c = some (k', c'))
    (event : cpuEvent k c = some (.dispatch p pc)) : Busy k' p pc c' (slice cfg p pc) := by
  have get : ∃ site, c.pc = .get site := by
    simp only [cpuEvent] at event
    (repeat' split at event) <;> first | exact ⟨_, by assumption⟩ | simp at event
  obtain ⟨site, get⟩ := get
  obtain ⟨null, _⟩ | ⟨q, dispatch, same, rfl⟩ | ⟨quiet, _⟩ := cpuEvent_get get step
  · rw [event] at null
    cases null
  · rw [event] at dispatch
    cases dispatch
    have fresh : (if site = .finished then 0 else c.timeLeft) = 0 := by
      rw [Rested, get] at rested
      cases site <;> simp_all
    rw [fresh]
    exact .recheck 0 (by rw [sliceTurns]; omega) (by rw [same, Nat.add_zero])
  · rw [event] at quiet
    cases quiet

/-! ## The events of a run -/

/-- A decomposition of events with one more at the end. -/
theorem concat_eq_append_cons {α : Type*} {es pre rest : List α} {e x : α}
    (split : es ++ [e] = pre ++ x :: rest) :
    (rest = [] ∧ e = x ∧ es = pre) ∨ ∃ first, rest = first ++ [e] ∧ es = pre ++ x :: first := by
  obtain rfl | ⟨first, last, rfl⟩ := rest.eq_nil_or_concat
  · obtain ⟨rfl, same⟩ := List.append_inj' split rfl
    cases same
    exact .inl ⟨rfl, rfl, rfl⟩
  · have whole : es ++ [e] = (pre ++ x :: first) ++ [last] := by simpa using split
    obtain ⟨rfl, same⟩ := List.append_inj' whole rfl
    cases same
    exact .inr ⟨first, List.concat_eq_append, rfl⟩

/-- After a dispatch comes the slice of the process, as far as the run goes. -/
def Sliced (es : List (CpuEvent cfg.Proc)) : Prop :=
  ∀ pre p pc rest, es = pre ++ .dispatch p pc :: rest →
    rest <+: slice cfg p pc ∨ slice cfg p pc <+: rest

/-- After a dispatch the slice of the process is over, or the CPU is in it. -/
def Slicing (k : Kernel cfg) (c : Cpu cfg.Proc) (es : List (CpuEvent cfg.Proc)) : Prop :=
  ∀ pre p pc rest, es = pre ++ .dispatch p pc :: rest →
    slice cfg p pc <+: rest ∨ ∃ todo, rest ++ todo = slice cfg p pc ∧ Busy k p pc c todo

theorem Slicing.sliced {k : Kernel cfg} {c : Cpu cfg.Proc} {es : List (CpuEvent cfg.Proc)}
    (slicing : Slicing k c es) : Sliced es := by
  intro pre p pc rest split
  obtain ended | ⟨todo, whole, _⟩ := slicing pre p pc rest split
  · exact .inr ended
  · exact .inl ⟨todo, whole⟩

theorem Slicing.congr {k k' : Kernel cfg} {c : Cpu cfg.Proc} {es : List (CpuEvent cfg.Proc)}
    (slicing : Slicing k c es) (same : ∀ p, c.held = some p → k'.pcOf p = k.pcOf p) :
    Slicing k' c es := by
  intro pre p pc rest split
  obtain ended | ⟨todo, whole, busy⟩ := slicing pre p pc rest split
  · exact .inl ended
  · exact .inr ⟨todo, whole, busy.congr (same p busy.held)⟩

theorem Slicing.step {k k' : Kernel cfg} {c c' : Cpu cfg.Proc} {es : List (CpuEvent cfg.Proc)}
    (positive : 1 ≤ cfg.timeSlot) (slicing : Slicing k c es) (rested : Rested c)
    (bound : ∀ p, k.pcOf p ≤ cfg.size p) (step : cpuStep k c = some (k', c')) :
    Slicing k' c' (es ++ (cpuEvent k c).toList) := by
  -- the slice of an earlier dispatch goes on by the event of this step
  have goes : ∀ pre p pc rest, es = pre ++ .dispatch p pc :: rest →
      slice cfg p pc <+: rest ++ (cpuEvent k c).toList ∨ ∃ todo,
        rest ++ (cpuEvent k c).toList ++ todo = slice cfg p pc ∧ Busy k' p pc c' todo := by
    intro pre p pc rest split
    obtain ended | ⟨todo, whole, busy⟩ := slicing pre p pc rest split
    · exact .inl (ended.trans (List.prefix_append _ _))
    · obtain ⟨later, rfl, rfl | busy⟩ := busy.step positive (bound p) step
      · rw [List.append_nil] at whole
        exact .inl (whole ▸ List.prefix_rfl)
      · exact .inr ⟨later, by rw [List.append_assoc, whole], busy⟩
  intro pre p pc rest split
  cases event : cpuEvent k c with
  | none =>
      rw [event, Option.toList_none, List.append_nil] at split
      simpa [event] using goes pre p pc rest split
  | some e =>
      rw [event, Option.toList_some] at split
      obtain ⟨rfl, rfl, _⟩ | ⟨first, rfl, before⟩ := concat_eq_append_cons split
      · exact .inr ⟨_, rfl, busy_of_dispatch rested step event⟩
      · simpa [event] using goes pre p pc first before

/-- The events that settle a turn: a call of `run`, or no process from `get_proc`. -/
def CpuEvent.settles {P : Type*} : CpuEvent P → Bool
  | .call _ | .null _ => true
  | _ => false

/-- A turn with one call of `run`, or with none because all ready queues were empty. -/
def Settled {P : Type*} (seg : List (CpuEvent P)) : Prop :=
  (∃ p, seg.filter CpuEvent.settles = [.call p]) ∨ seg.filter CpuEvent.settles = [.null true]

/-- Every turn that has ended was settled. -/
def WorkConserving {P : Type*} (es : List (CpuEvent P)) : Prop :=
  ∀ pre seg post, es = pre ++ .turn :: (seg ++ .signal :: post) → .turn ∉ seg → Settled seg

section ThisTurn

variable {P : Type*} [DecidableEq P]

/-- The events since the last turn began. -/
def thisTurn (es : List (CpuEvent P)) : List (CpuEvent P) :=
  (es.reverse.takeWhile fun e => !decide (e = .turn)).reverse

theorem thisTurn_turn (es : List (CpuEvent P)) : thisTurn (es ++ [.turn]) = [] := by
  simp [thisTurn]

theorem thisTurn_concat (es : List (CpuEvent P)) {e : CpuEvent P} (inside : e ≠ .turn) :
    thisTurn (es ++ [e]) = thisTurn es ++ [e] := by
  simp [thisTurn, inside]

theorem filter_thisTurn_of_quiet (es : List (CpuEvent P)) {e : CpuEvent P} (inside : e ≠ .turn)
    (quiet : e.settles = false) :
    (thisTurn (es ++ [e])).filter CpuEvent.settles = (thisTurn es).filter CpuEvent.settles := by
  rw [thisTurn_concat es inside, List.filter_append, List.filter_singleton, quiet]
  exact List.append_nil _

theorem filter_thisTurn_of_settles (es : List (CpuEvent P)) {e : CpuEvent P} (inside : e ≠ .turn)
    (settles : e.settles = true) (first : (thisTurn es).filter CpuEvent.settles = []) :
    (thisTurn (es ++ [e])).filter CpuEvent.settles = [e] := by
  rw [thisTurn_concat es inside, List.filter_append, List.filter_singleton, settles, first]
  rfl

theorem thisTurn_of_split (pre : List (CpuEvent P)) {seg : List (CpuEvent P)}
    (inside : .turn ∉ seg) : thisTurn (pre ++ .turn :: seg) = seg := by
  have all : ∀ e ∈ seg.reverse, (!decide (e = CpuEvent.turn)) = true := by
    intro e member
    rw [List.mem_reverse] at member
    simpa using fun turn : e = .turn => inside (turn ▸ member)
  rw [thisTurn, List.reverse_append, List.reverse_cons, List.append_assoc,
    List.takeWhile_append_of_pos all]
  simp

end ThisTurn

/-- What has been settled in this turn, by the position of the CPU in it. -/
def TurnSoFar (c : Cpu cfg.Proc) (seg : List (CpuEvent cfg.Proc)) : Prop :=
  match c.pc with
  | .check | .get _ | .run _ => seg.filter CpuEvent.settles = []
  | .recheck => seg.filter CpuEvent.settles = if c.proc = none then [.null true] else []
  | .execute _ _ | .signal _ => Settled seg
  | _ => True

theorem TurnSoFar.step {k k' : Kernel cfg} {c c' : Cpu cfg.Proc} {es : List (CpuEvent cfg.Proc)}
    (sofar : TurnSoFar c (thisTurn es)) (step : cpuStep k c = some (k', c')) :
    TurnSoFar c' (thisTurn (es ++ (cpuEvent k c).toList)) := by
  obtain ⟨pc, proc, timeLeft⟩ := c
  cases pc with
  | waitTurn =>
      cases step
      show (thisTurn (es ++ [.turn])).filter CpuEvent.settles = []
      rw [thisTurn_turn]
      rfl
  | check =>
      have sofar : (thisTurn es).filter CpuEvent.settles = [] := sofar
      cases proc with
      | none =>
          cases step
          rwa [cpuEvent, Option.toList_none, List.append_nil]
      | some p =>
          by_cases finished : k.pcOf p = cfg.size p
          · simp only [cpuStep, cpuEvent, if_pos finished] at step ⊢
            cases step
            exact (filter_thisTurn_of_quiet es (by simp) rfl).trans sofar
          · by_cases expired : timeLeft = 0
            · simp only [cpuStep, cpuEvent, if_neg finished, if_pos expired] at step ⊢
              cases step
              exact (filter_thisTurn_of_quiet es (by simp) rfl).trans sofar
            · simp only [cpuStep, cpuEvent, if_neg finished, if_neg expired] at step ⊢
              cases step
              rwa [Option.toList_none, List.append_nil]
  | get site =>
      have sofar : (thisTurn es).filter CpuEvent.settles = [] := sofar
      obtain ⟨event, rfl⟩ | ⟨p, event, _, rfl⟩ | ⟨event, rfl⟩ := cpuEvent_get rfl step
      · have null : (thisTurn (es ++ [.null true])).filter CpuEvent.settles = [.null true] :=
        filter_thisTurn_of_settles es (by simp) rfl sofar
        rw [event]
        cases site with
        | load => exact .inr null
        | finished => exact null
        | expired => exact null
      · rw [event]
        exact (filter_thisTurn_of_quiet es (by simp) rfl).trans sofar
      · rw [event, Option.toList_none, List.append_nil]
        exact sofar
  | recheck =>
      cases proc with
      | none =>
          cases step
          have null : (thisTurn es).filter CpuEvent.settles = [.null true] := sofar
          rw [cpuEvent, Option.toList_none, List.append_nil]
          cases k.done with
          | false => exact .inr null
          | true => trivial
      | some p =>
          cases step
          rwa [cpuEvent, Option.toList_none, List.append_nil]
  | run p =>
      cases step
      have sofar : (thisTurn es).filter CpuEvent.settles = [] := sofar
      have called : Settled (thisTurn (es ++ [.call p])) :=
        .inl ⟨p, filter_thisTurn_of_settles es (by simp) rfl sofar⟩
      by_cases ended : k.pcOf p ≥ cfg.size p
      · rw [if_pos ended]
        exact called
      · rw [if_neg ended]
        exact called
  | execute p n =>
      cases step
      have sofar : Settled (thisTurn es) := sofar
      show Settled _
      rw [cpuEvent, Option.toList_some, Settled, filter_thisTurn_of_quiet es (by simp) rfl]
      exact sofar
  | exited => cases step
  | _ =>
      cases step
      trivial

/-- A turn is settled by the time it ends. -/
theorem WorkConserving.step {k : Kernel cfg} {c : Cpu cfg.Proc} {es : List (CpuEvent cfg.Proc)}
    (conserving : WorkConserving es) (sofar : TurnSoFar c (thisTurn es)) :
    WorkConserving (es ++ (cpuEvent k c).toList) := by
  cases event : cpuEvent k c with
  | none =>
      rwa [Option.toList_none, List.append_nil]
  | some e =>
      intro pre seg post split inside
      rw [← List.cons_append, ← List.append_assoc] at split
      obtain ⟨-, ends, before⟩ | ⟨first, -, before⟩ := concat_eq_append_cons split
      · have signal : ∃ ran, c.pc = .signal ran := by
          subst ends
          simp only [cpuEvent] at event
          (repeat' split at event) <;> first | exact ⟨_, by assumption⟩ | simp at event
        obtain ⟨ran, signal⟩ := signal
        rw [before, thisTurn_of_split pre inside, TurnSoFar, signal] at sofar
        exact sofar
      · exact conserving pre seg first (by simpa using before) inside

namespace Dispatch

/-- The events of CPU `i`. -/
def cpuEvents (i : Fin cfg.numCpus) (s : Dispatch cfg) :
    Action cfg → Option (CpuEvent cfg.Proc)
  | .cpu j => if j = i then cpuEvent s.kernel (s.cpu j) else none
  | .ld => none

theorem cpuEvents_other {s : Dispatch cfg} {a : Action cfg} {i : Fin cfg.numCpus}
    (other : a ≠ .cpu i) : cpuEvents i s a = none := by
  cases a with
  | ld => rfl
  | cpu j =>
      rw [cpuEvents, if_neg]
      rintro rfl
      exact other rfl

/-- What holds of the events of CPU `i` so far, and of its position. -/
structure Served (i : Fin cfg.numCpus) (es : List (CpuEvent cfg.Proc)) (s : Dispatch cfg) :
    Prop where
  owned : Owned s
  fetched : Fetched s
  rested : Rested (s.cpu i)
  slicing : Slicing s.kernel (s.cpu i) es
  sofar : TurnSoFar (s.cpu i) (thisTurn es)
  conserving : WorkConserving es

theorem served_start (i : Fin cfg.numCpus) : Served i [] (start cfg) where
  owned := owned_start
  fetched := fetched_start
  rested := fun _ => rfl
  slicing := by
    intro pre p pc rest split
    simp at split
  sofar := trivial
  conserving := by
    intro pre seg post split
    simp at split

theorem Served.step {i : Fin cfg.numCpus} {es : List (CpuEvent cfg.Proc)} {s t : Dispatch cfg}
    {a : Action cfg} (positive : 1 ≤ cfg.timeSlot) (served : Served i es s)
    (step : (system cfg).step s a = some t) : Served i (es ++ (cpuEvents i s a).toList) t := by
  have owned := owned_step served.owned step
  have fetched := fetched_step served.owned served.fetched step
  by_cases own : a = .cpu i
  · subst own
    obtain ⟨k, c, ran, rfl⟩ := step_cpu.mp step
    have event : cpuEvents i s (.cpu i) = cpuEvent s.kernel (s.cpu i) := if_pos rfl
    refine ⟨owned, fetched, ?_, ?_, ?_, ?_⟩
    · rw [setCpu_cpu_self]
      exact cpuStep_rested served.rested ran
    · rw [setCpu_cpu_self, event]
      exact served.slicing.step positive served.rested served.fetched.bound ran
    · rw [setCpu_cpu_self, event]
      exact served.sofar.step ran
    · rw [event]
      exact served.conserving.step served.sofar
  · have same := cpu_of_other own step
    rw [cpuEvents_other own, Option.toList_none, List.append_nil]
    refine ⟨owned, fetched, same ▸ served.rested, ?_, same ▸ served.sofar, served.conserving⟩
    rw [same]
    exact served.slicing.congr fun p held => pcOf_of_other served.owned served.fetched own step held

theorem served_of_run {i : Fin cfg.numCpus} {s : Dispatch cfg} {as : List (Action cfg)}
    (positive : 1 ≤ cfg.timeSlot) (run : (system cfg).run (start cfg) as = some s) :
    Served i ((system cfg).trace (cpuEvents i) (start cfg) as) s :=
  TransitionSystem.trace_invariant (fun _ _ _ _ served step => served.step positive step)
    (served_start i) run

end Dispatch

namespace Os

/-- The events of CPU `i`. -/
def cpuEvents (i : Fin cfg.numCpus) (s : Os cfg) (a : Action cfg) : Option (CpuEvent cfg.Proc) :=
  match a with
  | .cpu j => if j = i then cpuEvent s.dispatch.kernel (s.dispatch.cpu j) else none
  | _ => none

/-- A run of the threads shows the events of a run of the dispatch system. -/
theorem run_dispatch (i : Fin cfg.numCpus) {s : Os cfg} {as : List (Action cfg)}
    (run : (system cfg).run (start cfg) as = some s) :
    ∃ bs, (Dispatch.system cfg).run (Dispatch.start cfg) bs = some s.dispatch ∧
      (Dispatch.system cfg).trace (Dispatch.cpuEvents i) (Dispatch.start cfg) bs =
        (system cfg).trace (cpuEvents i) (start cfg) as := by
  have answer : ∀ s a t d, (s.dispatch = d ∧ Loading s) → (system cfg).step s a = some t →
      ((t.dispatch = d ∧ Loading t) ∧ cpuEvents i s a = none) ∨
        ∃ b d', (Dispatch.system cfg).step d b = some d' ∧ (t.dispatch = d' ∧ Loading t) ∧
          Dispatch.cpuEvents i d b = cpuEvents i s a := by
    rintro s a t d ⟨rfl, loading⟩ step
    obtain ⟨after, ⟨same, other⟩ | ⟨b, thread, ran⟩⟩ := loading.step step
    · refine .inl ⟨⟨same, after⟩, ?_⟩
      cases a with
      | cpu j => exact absurd rfl (other j)
      | _ => rfl
    · refine .inr ⟨b, _, ran, ⟨rfl, after⟩, ?_⟩
      cases a <;> cases thread <;> rfl
  obtain ⟨bs, d, follows, ⟨rfl, _⟩, shown⟩ :=
    TransitionSystem.trace_simulation answer ⟨rfl, loading_start⟩ run
  exact ⟨bs, follows, shown⟩

/-- A process dispatched with `r` instructions left executes `min(time_slot, r)` of them,
one in each turn of its CPU, and then leaves the CPU: finished when `r` is at most
`time_slot`, and put back otherwise. A turn without a call of `run` found all ready
queues empty. -/
theorem slices_exact (cfg : Config) (positive : 1 ≤ cfg.timeSlot) (as : List (Action cfg))
    (s : Os cfg) (run : (system cfg).run (start cfg) as = some s) (i : Fin cfg.numCpus) :
    Sliced ((system cfg).trace (cpuEvents i) (start cfg) as) ∧
      (∀ p pc, (slice cfg p pc).filterMap CpuEvent.instruction =
        (List.range (min cfg.timeSlot.toNat (cfg.size p - pc))).map fun j => (p, pc + j)) ∧
      WorkConserving ((system cfg).trace (cpuEvents i) (start cfg) as) := by
  obtain ⟨bs, follows, shown⟩ := run_dispatch i run
  have served := Dispatch.served_of_run (i := i) positive follows
  rw [shown] at served
  exact ⟨served.slicing.sliced, instructions_slice positive, served.conserving⟩

/-- The only CPU finds no process, the loader adds one, and in the two slots that
follow the CPU executes its first instruction and then its second one. -/
def twoSlices : List (Action Dispatch.loneProcess) :=
  let cpu : Nat → List (Action Dispatch.loneProcess) :=
    fun n => List.replicate n (.cpu Dispatch.loneCpu)
  cpu 5 ++ List.replicate 7 .ld ++ List.replicate 6 .timer ++ [.ld, .timer] ++ cpu 9 ++
    List.replicate 5 .ld ++ List.replicate 8 .timer ++ cpu 9

theorem slices_exact_two : ∃ s, (system Dispatch.loneProcess).run (start Dispatch.loneProcess)
      twoSlices = some s ∧
    WorkConserving ((system Dispatch.loneProcess).trace (cpuEvents ⟨0, by decide⟩)
      (start Dispatch.loneProcess) twoSlices) := by
  have runs : ((system Dispatch.loneProcess).run (start Dispatch.loneProcess)
      twoSlices).isSome = true := by
    decide +kernel
  obtain ⟨s, run⟩ := Option.isSome_iff_exists.mp runs
  obtain ⟨_, _, conserving⟩ :=
    slices_exact Dispatch.loneProcess (by decide) twoSlices s run ⟨0, by decide⟩
  exact ⟨s, run, conserving⟩

end Os

end SimpleOs
