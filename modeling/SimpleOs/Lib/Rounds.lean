import SimpleOs.Lib.Transition

/-!
# Rounds of exclusive bodies

An abstract protocol. A list of devices runs in rounds: within a round every
device enters its body once, in the order of the list, and leaves it before the
next one enters. A device may quit instead of leaving, and then takes part in no
later round. `tick` starts the next round.

The protocol keeps no history, so `Complete` compares a log of its events with
the state they lead to. What a log shows of a finished round is the list of
survivors, in order and without repetition.
-/

namespace Rounds

variable {D : Type*} [DecidableEq D]

inductive Event (D : Type*) where
  | enter (d : D)
  | leave (d : D)
  | quit (d : D)
  | tick
  deriving DecidableEq

/-- The round, the devices that take part in the next one, those still to enter
in this one, and the one in its body. -/
structure State (D : Type*) where
  time : Nat
  alive : List D
  todo : List D
  busy : Option D

def start (order : List D) : State D where
  time := 0
  alive := order
  todo := order
  busy := none

def step (r : State D) : Event D → Option (State D)
  | .enter d =>
    if r.busy = none ∧ r.todo.head? = some d then
      some { r with todo := r.todo.tail, busy := some d }
    else none
  | .leave d => if r.busy = some d then some { r with busy := none } else none
  | .quit d =>
    if r.busy = some d then
      some { r with busy := none, alive := r.alive.filter (· ≠ d) }
    else none
  | .tick =>
    if r.busy = none ∧ r.todo = [] then
      some { r with time := r.time + 1, todo := r.alive }
    else none

/-- Events with the round they belong to. -/
abbrev Log (D : Type*) := List (Nat × Event D)

/-- The devices that entered in round `t`, in the order they did. -/
def entered (t : Nat) (log : Log D) : List D :=
  log.filterMap fun
    | (u, .enter d) => if u = t then some d else none
    | _ => none

/-- The devices that left or quit their bodies in round `t`, in the order they did. -/
def ended (t : Nat) (log : Log D) : List D :=
  log.filterMap fun
    | (u, .leave d) => if u = t then some d else none
    | (u, .quit d) => if u = t then some d else none
    | _ => none

/-- The devices that have not quit before round `t`, in the given order. -/
def survivors (order : List D) (t : Nat) (log : Log D) : List D :=
  order.filter fun d => ∀ u < t, (u, Event.quit d) ∉ log

/-- What a log says about the rounds up to the present one. -/
structure Complete (order : List D) (log : Log D) (r : State D) : Prop where
  past : ∀ e ∈ log, e.1 ≤ r.time
  finished : ∀ t < r.time, entered t log = survivors order t log ∧ ended t log = entered t log
  present : entered r.time log ++ r.todo = survivors order r.time log
  inside : ended r.time log ++ r.busy.toList = entered r.time log
  alive : r.alive = survivors order (r.time + 1) log

omit [DecidableEq D] in
@[simp] theorem entered_nil (t : Nat) : entered t ([] : Log D) = [] := rfl

omit [DecidableEq D] in
theorem entered_append (t : Nat) (log log' : Log D) :
    entered t (log ++ log') = entered t log ++ entered t log' :=
  List.filterMap_append

omit [DecidableEq D] in
@[simp] theorem entered_enter (t u : Nat) (d : D) :
    entered t [(u, .enter d)] = if u = t then [d] else [] := by
  by_cases now : u = t <;> simp [entered, now]

omit [DecidableEq D] in
theorem ended_append (t : Nat) (log log' : Log D) :
    ended t (log ++ log') = ended t log ++ ended t log' :=
  List.filterMap_append

omit [DecidableEq D] in
theorem entered_eq_nil {t : Nat} {log : Log D} (quiet : ∀ e ∈ log, e.1 ≠ t) :
    entered t log = [] := by
  apply List.filterMap_eq_nil_iff.mpr
  rintro ⟨u, e⟩ member
  cases e with
  | enter d => exact if_neg (quiet _ member)
  | _ => rfl

omit [DecidableEq D] in
theorem ended_eq_nil {t : Nat} {log : Log D} (quiet : ∀ e ∈ log, e.1 ≠ t) :
    ended t log = [] := by
  apply List.filterMap_eq_nil_iff.mpr
  rintro ⟨u, e⟩ member
  cases e with
  | leave d => exact if_neg (quiet _ member)
  | quit d => exact if_neg (quiet _ member)
  | _ => rfl

omit [DecidableEq D] in
/-- An event of another round does not show up in round `t`. -/
theorem entered_other {t u : Nat} (log : Log D) (e : Event D) (other : u ≠ t) :
    entered t (log ++ [(u, e)]) = entered t log := by
  have quiet : ∀ f ∈ [(u, e)], f.1 ≠ t := by simpa using other
  rw [entered_append, entered_eq_nil quiet, List.append_nil]

omit [DecidableEq D] in
theorem ended_other {t u : Nat} (log : Log D) (e : Event D) (other : u ≠ t) :
    ended t (log ++ [(u, e)]) = ended t log := by
  have quiet : ∀ f ∈ [(u, e)], f.1 ≠ t := by simpa using other
  rw [ended_append, ended_eq_nil quiet, List.append_nil]

/-- Events that are not in the past of round `t`, and events that are not `quit`,
do not change who survives into it. -/
theorem survivors_append {order : List D} {t : Nat} {log log' : Log D}
    (irrelevant : ∀ u < t, ∀ d, (u, Event.quit d) ∉ log') :
    survivors order t (log ++ log') = survivors order t log := by
  unfold survivors
  apply List.filter_congr
  intro d _
  apply decide_eq_decide.mpr
  constructor
  · intro stays u early member
    exact stays u early (List.mem_append_left _ member)
  · intro stays u early member
    obtain old | new := List.mem_append.mp member
    · exact stays u early old
    · exact irrelevant u early d new

theorem survivors_quit {order : List D} {t u : Nat} {log : Log D} {d : D} (early : u < t) :
    survivors order t (log ++ [(u, .quit d)]) = (survivors order t log).filter (· ≠ d) := by
  unfold survivors
  rw [List.filter_filter]
  apply List.filter_congr
  intro e _
  rw [← Bool.decide_and]
  apply decide_eq_decide.mpr
  constructor
  · intro stays
    refine ⟨?_, fun v before member => stays v before (List.mem_append_left _ member)⟩
    rintro rfl
    exact stays u early (List.mem_append_right _ (List.mem_singleton.mpr rfl))
  · rintro ⟨other, stays⟩ v before member
    obtain old | new := List.mem_append.mp member
    · exact stays v before old
    · rw [List.mem_singleton, Prod.mk.injEq, Event.quit.injEq] at new
      exact other new.2

/-- The next round has the same survivors while nobody quits in this one. -/
theorem survivors_succ {order : List D} {t : Nat} {log : Log D} (quiet : ∀ e ∈ log, e.1 ≠ t) :
    survivors order (t + 1) log = survivors order t log := by
  unfold survivors
  apply List.filter_congr
  intro d _
  apply decide_eq_decide.mpr
  constructor
  · intro stays u early
    exact stays u (Nat.lt_succ_of_lt early)
  · intro stays u early member
    exact stays u (Nat.lt_of_le_of_ne (Nat.le_of_lt_succ early) (quiet _ member)) member

theorem complete_start (order : List D) : Complete order [] (start order) where
  past := by simp
  finished := by
    intro t before
    exact absurd before (Nat.not_lt_zero t)
  present := by simp [start, survivors]
  inside := rfl
  alive := by simp [start, survivors]

/-- What an event of the present round leaves of a complete log: the past, and the
survivors up to this round. -/
theorem Complete.extend {order : List D} {log : Log D} {r : State D} (complete : Complete order log r)
    (e : Event D) :
    (∀ f ∈ log ++ [(r.time, e)], f.1 ≤ r.time) ∧
      (∀ t ≤ r.time, survivors order t (log ++ [(r.time, e)]) = survivors order t log) ∧
      ∀ t < r.time, entered t (log ++ [(r.time, e)]) =
          survivors order t (log ++ [(r.time, e)]) ∧
        ended t (log ++ [(r.time, e)]) = entered t (log ++ [(r.time, e)]) := by
  have same : ∀ t ≤ r.time,
      survivors order t (log ++ [(r.time, e)]) = survivors order t log := by
    intro t reached
    apply survivors_append
    intro u early d member
    rw [List.mem_singleton, Prod.mk.injEq] at member
    omega
  refine ⟨?_, same, ?_⟩
  · intro f member
    obtain old | new := List.mem_append.mp member
    · exact complete.past f old
    · exact Nat.le_of_eq (congrArg Prod.fst (List.mem_singleton.mp new))
  · intro t before
    rw [entered_other log e (Nat.ne_of_gt before), ended_other log e (Nat.ne_of_gt before),
      same t (Nat.le_of_lt before)]
    exact complete.finished t before

/-- Every step of the protocol extends a complete log to a complete log. -/
theorem Complete.step {order : List D} {log : Log D} {r r' : State D} {e : Event D}
    (complete : Complete order log r) (moves : Rounds.step r e = some r') :
    Complete order (log ++ [(r.time, e)]) r' := by
  obtain ⟨past, survivors_same, finished⟩ := complete.extend e
  -- an event that is no `quit` changes no survivors at all
  have stay : (∀ d, e ≠ .quit d) → ∀ t,
      survivors order t (log ++ [(r.time, e)]) = survivors order t log := by
    intro noQuit t
    apply survivors_append
    intro u _ d member
    rw [List.mem_singleton, Prod.mk.injEq] at member
    exact noQuit d member.2.symm
  have present := complete.present
  have inside := complete.inside
  cases e with
  | enter d =>
      simp only [Rounds.step, Option.ite_none_right_eq_some, Option.some.injEq] at moves
      obtain ⟨⟨free, next⟩, rfl⟩ := moves
      obtain ⟨rest, todo⟩ := List.head?_eq_some_iff.mp next
      rw [todo] at present
      rw [free, Option.toList_none, List.append_nil] at inside
      refine ⟨past, finished, ?_, ?_, complete.alive.trans (stay (by simp) _).symm⟩
      · change entered r.time _ ++ r.todo.tail = survivors order r.time _
        rw [stay (by simp), entered_append, entered_enter, if_pos rfl, todo, List.tail_cons,
          List.append_assoc, List.singleton_append]
        exact present
      · change ended r.time _ ++ [d] = entered r.time _
        rw [entered_append, entered_enter, if_pos rfl, ended_append, inside]
        simp [ended]
  | leave d =>
      simp only [Rounds.step, Option.ite_none_right_eq_some, Option.some.injEq] at moves
      obtain ⟨busy, rfl⟩ := moves
      rw [busy, Option.toList_some] at inside
      refine ⟨past, finished, ?_, ?_, complete.alive.trans (stay (by simp) _).symm⟩
      · rw [stay (by simp), ← present]
        simp [entered]
      · change ended r.time _ ++ [] = entered r.time _
        rw [ended_append, entered_append, ← inside]
        simp [ended, entered]
  | quit d =>
      simp only [Rounds.step, Option.ite_none_right_eq_some, Option.some.injEq] at moves
      obtain ⟨busy, rfl⟩ := moves
      rw [busy, Option.toList_some] at inside
      refine ⟨past, finished, ?_, ?_, ?_⟩
      · rw [survivors_same _ (Nat.le_refl _), ← present]
        simp [entered]
      · change ended r.time _ ++ [] = entered r.time _
        rw [ended_append, entered_append, ← inside]
        simp [ended, entered]
      · -- a quit in this round counts from the next round on
        rw [survivors_quit (Nat.lt_succ_self _), ← complete.alive]
  | tick =>
      simp only [Rounds.step, Option.ite_none_right_eq_some, Option.some.injEq] at moves
      obtain ⟨⟨free, todo⟩, rfl⟩ := moves
      rw [todo, List.append_nil] at present
      rw [free, Option.toList_none, List.append_nil] at inside
      have quiet : ∀ f ∈ log, f.1 ≠ r.time + 1 := by
        intro f member
        have := complete.past f member
        omega
      refine ⟨fun f member => Nat.le_succ_of_le (past f member), ?_, ?_, ?_, ?_⟩
      · intro t before
        obtain earlier | rfl := Nat.lt_succ_iff_lt_or_eq.mp before
        · exact finished t earlier
        · rw [stay (by simp), ← present, entered_append, ended_append, inside]
          simp [ended, entered]
      · rw [stay (by simp), entered_other _ _ (by simp), entered_eq_nil quiet, List.nil_append]
        exact complete.alive
      · rw [entered_other _ _ (by simp), ended_other _ _ (by simp), entered_eq_nil quiet,
          ended_eq_nil quiet, free]
        rfl
      · rw [stay (by simp), survivors_succ quiet]
        exact complete.alive

/-- A round in progress has seen an initial part of its survivors enter. -/
theorem Complete.prefix_present {order : List D} {log : Log D} {r : State D}
    (complete : Complete order log r) :
    entered r.time log <+: survivors order r.time log :=
  ⟨r.todo, complete.present⟩

end Rounds
