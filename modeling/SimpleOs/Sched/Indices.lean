import SimpleOs.Sched.Mlq

/-!
# The indices of the scheduler

`get_mlq_proc` once more, in the integers of the source and with a log of the indices
that it uses. The statics `curr_prio` and `curr_slot` are arguments and results here, and
nothing about them is assumed: that they come out as in `getMlqSection`, where the
current level is a level by its type, is what `getLogged_statics` says, and with it the
log stays in bounds.
-/

namespace SimpleOs

/-- The length of `_cpu_active`. -/
def cpuActiveLen : Nat := 64

/-- An index used on an array of the scheduler or of the timer. -/
inductive Access where
  | mlqReadyQueue (i : Int)
  | slot (i : Int)
  | cpuActive (i : Int)
  deriving DecidableEq

/-- The index is one of the array. -/
def Access.InBounds : Access → Prop
  | .mlqReadyQueue i => 0 ≤ i ∧ i < maxPrio
  | .slot i => 0 ≤ i ∧ i < maxPrio
  | .cpuActive i => 0 ≤ i ∧ i < cpuActiveLen

instance : DecidablePred Access.InBounds
  | .mlqReadyQueue i => inferInstanceAs (Decidable (0 ≤ i ∧ i < maxPrio))
  | .slot i => inferInstanceAs (Decidable (0 ≤ i ∧ i < maxPrio))
  | .cpuActive i => inferInstanceAs (Decidable (0 ≤ i ∧ i < cpuActiveLen))

/-- What a loop over `is` tests when it ends at the first hit. -/
def tested (hit : Int → Bool) : (is : List Int) → List Int
  | [] => []
  | i :: is => i :: if hit i then [] else tested hit is

theorem mem_of_mem_tested {hit : Int → Bool} {is : List Int} {i : Int}
    (member : i ∈ tested hit is) : i ∈ is := by
  induction is with
  | nil => exact member
  | cons j is ih =>
      obtain rfl | later := List.mem_cons.mp member
      · exact List.mem_cons_self
      · refine List.mem_cons_of_mem j (ih ?_)
        split at later
        · cases later
        · exact later

namespace Sched

variable {P : Type*}

/-- `!empty(&mlq_ready_queue[i])`, for an index of the array. -/
def waits (s : Sched P) (i : Int) : Bool :=
  if inside : 0 ≤ i ∧ i < maxPrio then !(s.mlqReadyQueue ⟨i.toNat, by omega⟩).empty else false

/-- `slot[i]`, for an index of the array. -/
def slotAt (s : Sched P) (i : Int) : Int :=
  if inside : 0 ≤ i ∧ i < maxPrio then s.slot ⟨i.toNat, by omega⟩ else 0

/-- The levels below `curr_prio`, as the first loop runs through them. -/
def below (currPrio : Int) : List Int := (List.range currPrio.toNat).map fun i : Nat => (i : Int)

/-- The values of `check_prio` in the second loop. -/
def around (currPrio : Int) : List Int :=
  (List.range maxPrio).map fun i : Nat => (currPrio + i).tmod maxPrio

/-- The first loop, with `curr_prio` and `curr_slot` after it. -/
def preemptLogged (s : Sched P) (currPrio currSlot : Int) : List Access × Int × Int :=
  ((tested s.waits (below currPrio)).map .mlqReadyQueue,
    match (below currPrio).find? s.waits with
    | some i => (i, 0)
    | none => (currPrio, currSlot))

/-- The second loop, with `curr_prio` and `curr_slot` after it when it finds a level. -/
def refillLogged (s : Sched P) (currPrio : Int) : List Access × Option (Int × Int) :=
  match (around currPrio).find? s.waits with
  | some l =>
    ((tested s.waits (around currPrio)).map .mlqReadyQueue ++ [.slot l], some (l, s.slotAt l))
  | none => ((tested s.waits (around currPrio)).map .mlqReadyQueue, none)

/-- The rest of `get_mlq_proc`, with `curr_prio` and `curr_slot` after it. -/
def takeLogged (s : Sched P) (currPrio currSlot : Int) : List Access × Int × Int :=
  ([.mlqReadyQueue currPrio],
    if s.waits currPrio then
      (if currSlot - 1 = 0 then (currPrio + 1).tmod maxPrio else currPrio, currSlot - 1)
    else (currPrio, 0))

/-- `get_mlq_proc()` from its lock to its unlock: the indices it uses, and `curr_prio` and
`curr_slot` after it. -/
def getLogged (s : Sched P) (currPrio currSlot : Int) : List Access × Int × Int :=
  let (log, currPrio, currSlot) := s.preemptLogged currPrio currSlot
  if currSlot = 0 then
    match s.refillLogged currPrio with
    | (log', none) => (log ++ log', currPrio, currSlot)
    | (log', some (currPrio, currSlot)) =>
      let (log'', statics) := s.takeLogged currPrio currSlot
      (log ++ log' ++ log'', statics)
  else
    let (log', statics) := s.takeLogged currPrio currSlot
    (log ++ log', statics)

/-- The statics of `get_mlq_proc`. -/
def statics (s : Sched P) : Int × Int := ((s.currPrio : Nat), s.currSlot)

/-- The scheduler after a critical section. -/
def Section.sched : Section P → Sched P
  | .ret _ s => s
  | .again s => s

theorem waits_level (s : Sched P) (l : Prio) :
    s.waits (l : Nat) = !(s.mlqReadyQueue l).empty := by
  have inside : 0 ≤ ((l : Nat) : Int) ∧ ((l : Nat) : Int) < maxPrio := by omega
  rw [waits, dif_pos inside]
  rfl

theorem slotAt_level (s : Sched P) (l : Prio) : s.slotAt (l : Nat) = s.slot l := by
  have inside : 0 ≤ ((l : Nat) : Int) ∧ ((l : Nat) : Int) < maxPrio := by omega
  rw [slotAt, dif_pos inside]
  rfl

theorem waits_congr {s t : Sched P} (queues : t.mlqReadyQueue = s.mlqReadyQueue) :
    t.waits = s.waits := by
  funext i
  rw [waits, waits, queues]

theorem tmod_maxPrio (l : Prio) (i : Nat) :
    (((l : Nat) : Int) + (i : Int)).tmod maxPrio = (((l : Nat) + i) % maxPrio : Nat) := by
  rw [Int.tmod_eq_emod_of_nonneg (by omega)]
  norm_cast

/-- From a level on, the second loop runs through levels. -/
theorem around_level (l : Prio) :
    around (l : Nat) = (List.finRange maxPrio).map fun i => (((l + i : Prio) : Nat) : Int) := by
  rw [around, ← List.map_coe_finRange_eq_range, List.map_map]
  refine List.map_congr_left fun i _ => ?_
  rw [Function.comp_apply, tmod_maxPrio, Fin.val_add]

theorem preemptLogged_statics (s : Sched P) :
    (s.preemptLogged (s.currPrio : Nat) s.currSlot).2 = s.preempt.statics := by
  have bound := s.currPrio.isLt
  have quiet : ∀ l : Prio, l < s.currPrio →
      (decide (l < s.currPrio) && !(s.mlqReadyQueue l).empty) = false →
        s.waits ((l : Nat) : Int) = false := by
    intro l lower idle
    rw [waits_level]
    simpa [lower] using idle
  rw [preemptLogged, preempt]
  cases scan : (List.finRange maxPrio).find? fun i =>
      decide (i < s.currPrio) && !(s.mlqReadyQueue i).empty with
  | some i =>
      obtain ⟨here, earlier⟩ := StrictPriority.find?_finRange_eq_some.mp scan
      simp only [Bool.and_eq_true, decide_eq_true_eq] at here
      have found : (below (s.currPrio : Nat)).find? s.waits = some ((i : Nat) : Int) := by
        rw [below, List.find?_map, Option.map_eq_some_iff]
        refine ⟨i, List.find?_range_eq_some.mpr ⟨?_, ?_, ?_⟩, rfl⟩
        · rw [Function.comp_apply, waits_level]
          exact here.2
        · exact List.mem_range.mpr here.1
        · intro k before
          let l : Prio := ⟨k, Nat.lt_trans before i.isLt⟩
          have idle := quiet l (Nat.lt_trans before here.1) (earlier l before)
          simpa [l] using idle
      rw [found]
      rfl
  | none =>
      have missing := StrictPriority.find?_finRange_eq_none.mp scan
      have missed : (below (s.currPrio : Nat)).find? s.waits = none := by
        rw [below, List.find?_map, Option.map_eq_none_iff, List.find?_range_eq_none]
        intro k lower
        let l : Prio := ⟨k, Nat.lt_trans lower bound⟩
        have idle := quiet l lower (missing l)
        simpa [l] using idle
      rw [missed]
      rfl

theorem refillLogged_statics (s : Sched P) :
    (s.refillLogged (s.currPrio : Nat)).2 = s.refill.map statics := by
  have scan : (around (s.currPrio : Nat)).find? s.waits =
      ((List.finRange maxPrio).find? fun i => !(s.mlqReadyQueue (s.currPrio + i)).empty).map
        fun i => (((s.currPrio + i : Prio) : Nat) : Int) := by
    have levels : (s.waits ∘ fun i => (((s.currPrio + i : Prio) : Nat) : Int)) =
        fun i => !(s.mlqReadyQueue (s.currPrio + i)).empty := by
      funext i
      rw [Function.comp_apply, waits_level]
    rw [around_level, List.find?_map, levels]
  rw [refillLogged, refill, scan]
  cases (List.finRange maxPrio).find? fun i => !(s.mlqReadyQueue (s.currPrio + i)).empty with
  | none => rfl
  | some i => simp [statics, slotAt_level]

theorem takeLogged_statics (s : Sched P) :
    (s.takeLogged (s.currPrio : Nat) s.currSlot).2 = s.takeCurrent.sched.statics := by
  obtain ⟨first, _⟩ := (s.mlqReadyQueue s.currPrio).dequeue_spec
  have here : s.waits (s.currPrio : Nat) = !(s.mlqReadyQueue s.currPrio).empty := s.waits_level _
  have next : (((s.currPrio : Nat) : Int) + 1).tmod maxPrio = (((s.currPrio + 1 : Prio) : Nat) : Int) :=
    tmod_maxPrio s.currPrio 1
  rw [takeLogged, takeCurrent, here, next]
  generalize (s.mlqReadyQueue s.currPrio).dequeue = out at first
  obtain ⟨proc, q⟩ := out
  dsimp only at first
  subst first
  cases idle : (s.mlqReadyQueue s.currPrio).toList with
  | nil =>
      have empty := Queue.empty_iff _ |>.mpr idle
      rw [empty]
      rfl
  | cons p rest =>
      have empty : (s.mlqReadyQueue s.currPrio).empty = false := by
        rw [Queue.empty_eq_false_iff, idle]
        simp
      rw [empty]
      dsimp only [List.head?_cons, Section.sched]
      by_cases last : s.currSlot - 1 = 0
      · simp [statics, last]
      · simp [statics, last]

theorem refillLogged_congr {s t : Sched P} (queues : t.mlqReadyQueue = s.mlqReadyQueue)
    (slots : t.slot = s.slot) (currPrio : Int) : t.refillLogged currPrio = s.refillLogged currPrio := by
  have same : t.slotAt = s.slotAt := by
    funext i
    rw [slotAt, slotAt, slots]
  rw [refillLogged, refillLogged, waits_congr queues, same]

theorem takeLogged_congr {s t : Sched P} (queues : t.mlqReadyQueue = s.mlqReadyQueue)
    (currPrio currSlot : Int) : t.takeLogged currPrio currSlot = s.takeLogged currPrio currSlot := by
  rw [takeLogged, takeLogged, waits_congr queues]

theorem refill_queues {s t : Sched P} (found : s.refill = some t) :
    t.mlqReadyQueue = s.mlqReadyQueue := by
  unfold refill at found
  split at found <;> cases found
  rfl

/-- The integers of the source go through the same values as the statics of the model. -/
theorem getLogged_statics (s : Sched P) :
    (s.getLogged (s.currPrio : Nat) s.currSlot).2 = s.getMlqSection.sched.statics := by
  obtain ⟨queues, slots, _⟩ := s.preempt_spec
  have first := s.preemptLogged_statics
  rw [getLogged, getMlqSection]
  generalize s.preemptLogged (s.currPrio : Nat) s.currSlot = out at first
  generalize s.preempt = u at *
  obtain ⟨log, currPrio, currSlot⟩ := out
  obtain ⟨rfl, rfl⟩ := Prod.mk.inj (first : (currPrio, currSlot) = u.statics)
  have second := u.refillLogged_statics
  rw [refillLogged_congr queues slots] at second
  have third := u.takeLogged_statics
  rw [takeLogged_congr queues] at third
  dsimp only
  by_cases spent : u.currSlot = 0
  · rw [if_pos spent, if_pos spent]
    generalize s.refillLogged (u.currPrio : Nat) = out at second
    obtain ⟨log', next⟩ := out
    cases found : u.refill with
    | none =>
        rw [found] at second
        simp only [Option.map_none] at second
        subst second
        rfl
    | some t =>
        rw [found] at second
        simp only [Option.map_some] at second
        subst second
        have same : t.mlqReadyQueue = s.mlqReadyQueue := (refill_queues found).trans queues
        have last := t.takeLogged_statics
        rw [takeLogged_congr same] at last
        dsimp only [statics]
        exact last
  · rw [if_neg spent, if_neg spent]
    dsimp only
    exact third

theorem below_inBounds {l : Prio} {i : Int} (member : i ∈ below (l : Nat)) :
    (Access.mlqReadyQueue i).InBounds := by
  obtain ⟨k, lower, rfl⟩ := List.mem_map.mp member
  have lower := List.mem_range.mp lower
  have bound := l.isLt
  exact ⟨by omega, by omega⟩

theorem around_inBounds {l : Prio} {i : Int} (member : i ∈ around (l : Nat)) :
    (Access.mlqReadyQueue i).InBounds := by
  rw [around_level] at member
  obtain ⟨k, _, rfl⟩ := List.mem_map.mp member
  generalize l + k = j
  have bound := j.isLt
  exact ⟨by omega, by omega⟩

theorem takeLogged_inBounds (s : Sched P) :
    ∀ x ∈ (s.takeLogged (s.currPrio : Nat) s.currSlot).1, x.InBounds := by
  intro x member
  rw [List.mem_singleton.mp member]
  have bound := s.currPrio.isLt
  exact ⟨by omega, by omega⟩

theorem refillLogged_inBounds (s : Sched P) :
    ∀ x ∈ (s.refillLogged (s.currPrio : Nat)).1, x.InBounds := by
  have looked : ∀ x ∈ (tested s.waits (around (s.currPrio : Nat))).map Access.mlqReadyQueue,
      x.InBounds := by
    intro x member
    obtain ⟨i, seen, rfl⟩ := List.mem_map.mp member
    exact around_inBounds (mem_of_mem_tested seen)
  rw [refillLogged]
  split
  · rename_i l found
    refine List.forall_mem_append.mpr ⟨looked, ?_⟩
    intro x member
    rw [List.mem_singleton.mp member]
    exact around_inBounds (List.mem_of_find?_eq_some found)
  · exact looked

/-- `get_mlq_proc` uses only levels as indices. -/
theorem getLogged_inBounds (s : Sched P) :
    ∀ x ∈ (s.getLogged (s.currPrio : Nat) s.currSlot).1, x.InBounds := by
  obtain ⟨queues, slots, _⟩ := s.preempt_spec
  have first := s.preemptLogged_statics
  have looked : ∀ x ∈ (s.preemptLogged (s.currPrio : Nat) s.currSlot).1, x.InBounds := by
    intro x member
    obtain ⟨i, seen, rfl⟩ := List.mem_map.mp member
    exact below_inBounds (mem_of_mem_tested seen)
  rw [getLogged]
  generalize s.preemptLogged (s.currPrio : Nat) s.currSlot = out at first looked
  generalize s.preempt = u at *
  obtain ⟨log, currPrio, currSlot⟩ := out
  obtain ⟨rfl, rfl⟩ := Prod.mk.inj (first : (currPrio, currSlot) = u.statics)
  have second := u.refillLogged_statics
  have around := u.refillLogged_inBounds
  rw [refillLogged_congr queues slots] at second around
  have third := u.takeLogged_inBounds
  rw [takeLogged_congr queues] at third
  dsimp only at looked ⊢
  split
  · generalize s.refillLogged (u.currPrio : Nat) = out at second around
    obtain ⟨log', next⟩ := out
    cases found : u.refill with
    | none =>
        rw [found] at second
        simp only [Option.map_none] at second
        subst second
        exact List.forall_mem_append.mpr ⟨looked, around⟩
    | some t =>
        rw [found] at second
        simp only [Option.map_some] at second
        subst second
        have last := t.takeLogged_inBounds
        rw [takeLogged_congr ((refill_queues found).trans queues)] at last
        exact List.forall_mem_append.mpr ⟨List.forall_mem_append.mpr ⟨looked, around⟩, last⟩
  · exact List.forall_mem_append.mpr ⟨looked, third⟩

/-- With empty ready queues `get_mlq_proc` returns NULL, and leaves a scheduler that has
just been set up as it is. -/
theorem getMlqSection_boot : (boot : Sched P).getMlqSection = .ret none boot := by
  have idle : ∀ l, ((boot : Sched P).mlqReadyQueue l).empty = true := fun l =>
    (Queue.empty_iff _).mpr (Queue.toList_clear _)
  have stays : (boot : Sched P).preempt = boot := by
    rw [preempt, StrictPriority.find?_finRange_eq_none.mpr fun l => by simp [idle l]]
  have missed : (boot : Sched P).refill = none := by
    rw [refill, StrictPriority.find?_finRange_eq_none.mpr fun l => by simp [idle]]
  have spent : (boot : Sched P).currSlot = 0 := rfl
  rw [getMlqSection, stays]
  simp only [spent, if_true, missed]

end Sched
end SimpleOs
