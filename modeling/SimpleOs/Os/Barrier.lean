import Mathlib.Data.Fintype.Basic
import Mathlib.Data.List.FinRange
import SimpleOs.Lib.Transition

/-!
# The timer as a barrier

`timer_routine` against the calls of `next_slot` and `detach_event`, one critical
section at a time. A wait on a condition variable is spelled out here: the thread
tests its condition under the lock, goes to sleep, is woken by a signal or for no
reason, and tests again. A device is detached for good; both users of the timer
end their thread after `detach_event`. `timer_stop` stays 0: `stop_timer` is called
when all devices have ended.

The flag `done` has two locks. A device sets it under `event_lock`, and the timer
clears it under `timer_lock`. `Lockstep` tells what `done` means at each point by the
calls and returns the device has made: a device has its release still to come as
long as the timer has it on its list.
-/

namespace SimpleOs

/-- Where the thread of a device stands: outside, in `next_slot` about to test `done`,
asleep on `timer_cond`, or detached. -/
inductive DevicePc where
  | outside
  | testing
  | asleep
  | detached
  deriving DecidableEq

/-- Where `timer_routine` stands: at the loop test, about to test the flags of the next
device, asleep on the `event_cond` of `d`, or releasing devices. It counts `fsh` and
`event`. -/
inductive BarrierPc (n : Nat) where
  | head
  | check (rest : List (Fin n)) (fsh event : Nat)
  | asleep (d : Fin n) (rest : List (Fin n)) (fsh event : Nat)
  | release (rest : List (Fin n)) (fsh event : Nat)
  | exited
  deriving DecidableEq

/-- The data of `timer.c` and its threads, with `n` devices attached. -/
structure Barrier (n : Nat) where
  device : Fin n → DevicePc
  done : Fin n → Bool
  fsh : Fin n → Bool
  timer : BarrierPc n
  time : Nat

/-- `dev_list`: each device is attached in front of the earlier ones. -/
def attached (n : Nat) : List (Fin n) := (List.finRange n).reverse

namespace Barrier

variable {n : Nat}

/-- After `start_timer`. -/
def start (n : Nat) : Barrier n where
  device := fun _ => .outside
  done := fun _ => false
  fsh := fun _ => false
  timer := .head
  time := 0

/-- `pthread_cond_signal(&event_cond)` of device `d`, or a wake-up without a signal. -/
def wakeTimer (timer : BarrierPc n) (d : Fin n) : BarrierPc n :=
  match timer with
  | .asleep e rest fsh event => if e = d then .check (e :: rest) fsh event else timer
  | _ => timer

/-- `pthread_cond_signal(&timer_cond)`, or a wake-up without a signal. -/
def wakeDevice (pc : DevicePc) : DevicePc := if pc = .asleep then .testing else pc

/-- The first half of `next_slot`. -/
def nextSlot (s : Barrier n) (d : Fin n) : Barrier n where
  device := Function.update s.device d .testing
  done := Function.update s.done d true
  fsh := s.fsh
  timer := wakeTimer s.timer d
  time := s.time

/-- One test of `while (timer_id->done)` in `next_slot`. -/
def testDone (s : Barrier n) (d : Fin n) : Barrier n :=
  { s with device := Function.update s.device d (if s.done d then .asleep else .outside) }

/-- `detach_event`. -/
def detachEvent (s : Barrier n) (d : Fin n) : Barrier n where
  device := Function.update s.device d .detached
  done := s.done
  fsh := Function.update s.fsh d true
  timer := wakeTimer s.timer d
  time := s.time

/-- One step of `timer_routine`. -/
def stepTimer (s : Barrier n) : Option (Barrier n) :=
  match s.timer with
  | .head => some { s with timer := .check (attached n) 0 0 }
  | .check (d :: rest) fsh event =>
    if !s.done d && !s.fsh d then some { s with timer := .asleep d rest fsh event }
    else some { s with timer := .check rest (if s.fsh d then fsh + 1 else fsh) (event + 1) }
  | .check [] fsh event =>
    some { s with time := s.time + 1, timer := .release (attached n) fsh event }
  | .asleep _ _ _ _ => none
  | .release (d :: rest) fsh event =>
    some { s with
      done := Function.update s.done d false
      device := Function.update s.device d (wakeDevice (s.device d))
      timer := .release rest fsh event }
  | .release [] fsh event => some { s with timer := if fsh = event then .exited else .head }
  | .exited => none

/-- What happens next: a critical section of a device or of the timer, or a wake-up
without a signal. -/
inductive Action (n : Nat) where
  | nextSlot (d : Fin n)
  | testDone (d : Fin n)
  | detachEvent (d : Fin n)
  | timer
  | spurious (d : Fin n)
  | spuriousTimer (d : Fin n)

/-- Any interleaving of the timer with the calls of the devices. -/
def system (n : Nat) : TransitionSystem (Barrier n) (Action n) where
  init s := s = start n
  step s
    | .nextSlot d => if s.device d = .outside then some (s.nextSlot d) else none
    | .testDone d => if s.device d = .testing then some (s.testDone d) else none
    | .detachEvent d => if s.device d = .outside then some (s.detachEvent d) else none
    | .timer => s.stepTimer
    | .spurious d =>
      if s.device d = .asleep then
        some { s with device := Function.update s.device d .testing }
      else none
    | .spuriousTimer d => some { s with timer := wakeTimer s.timer d }

/-- A call of `next_slot` has set `done`, or has returned. -/
inductive Event (n : Nat) where
  | call (d : Fin n)
  | ret (d : Fin n)
  deriving DecidableEq

def event (s : Barrier n) : Action n → Option (Event n)
  | .nextSlot d => some (.call d)
  | .testDone d => if s.done d then none else some (.ret d)
  | .detachEvent _ | .timer | .spurious _ | .spuriousTimer _ => none

/-- How often device `d` has called `next_slot`. -/
def calls (es : List (Event n)) (d : Fin n) : Nat := es.count (.call d)

/-- How often `next_slot` has returned to device `d`. -/
def returns (es : List (Event n)) (d : Fin n) : Nat := es.count (.ret d)

/-- The timer has turned to the new slot, and device `d` has yet to be released. -/
def pending (s : Barrier n) (d : Fin n) : Bool :=
  match s.timer with
  | .release rest _ _ => d ∈ rest
  | _ => false

/-- A device outside `next_slot` has returned once in each slot but the first. Inside it
the device has called once more, and the slot of that call is over when it is pending or
released. -/
def InStep (called returned time : Nat) (pc : DevicePc) (done pending : Bool) : Prop :=
  match pc with
  | .outside => done = false ∧ pending = false ∧ called = time ∧ returned = time
  | .testing | .asleep =>
    (pending = true → done = true) ∧ called = returned + 1 ∧
      if done = true ∧ pending = false then returned = time else called = time
  | .detached => done = false

/-- What the timer has seen before it comes to `rest`. -/
def Seen (s : Barrier n) (rest : List (Fin n)) (fsh event : Nat) : Prop :=
  ∃ checked, checked ++ rest = attached n ∧ (∀ d ∈ checked, s.done d = true ∨ s.fsh d = true) ∧
    fsh ≤ checked.countP s.fsh ∧ event = checked.length

/-- What the position of the timer says about the flags. -/
def Walk (s : Barrier n) : Prop :=
  match s.timer with
  | .head => True
  | .check rest fsh event => s.Seen rest fsh event
  | .asleep d rest fsh event => s.Seen (d :: rest) fsh event ∧ s.done d = false ∧ s.fsh d = false
  | .release rest fsh event => (∃ released, released ++ rest = attached n) ∧
      fsh ≤ (attached n).countP s.fsh ∧ event = n
  | .exited => ∀ d, s.fsh d = true

/-- The invariant, with the calls and returns so far. -/
structure Lockstep (es : List (Event n)) (s : Barrier n) : Prop where
  devices : ∀ d, InStep (calls es d) (returns es d) s.time (s.device d) (s.done d) (s.pending d)
  fsh : ∀ d, s.fsh d = true ↔ s.device d = .detached
  asleep : ∀ d, s.device d = .asleep → s.done d = true
  walk : s.Walk

theorem mem_attached (d : Fin n) : d ∈ attached n := by simp [attached]

theorem nodup_attached (n : Nat) : (attached n).Nodup :=
  List.nodup_reverse.mpr (List.nodup_finRange n)

theorem length_attached (n : Nat) : (attached n).length = n := by simp [attached]

theorem lockstep_start (n : Nat) : Lockstep [] (start n) where
  devices := fun _ => ⟨rfl, rfl, rfl, rfl⟩
  fsh := by simp [start]
  asleep := by simp [start]
  walk := trivial

/-- A wake-up of the timer does not change what it has to release. -/
theorem pending_wakeTimer {s t : Barrier n} {d : Fin n} (timer : t.timer = wakeTimer s.timer d)
    (e : Fin n) : t.pending e = s.pending e := by
  simp only [pending, timer]
  cases at_timer : s.timer with
  | asleep f rest fsh event =>
      by_cases same : f = d
      · simp only [wakeTimer, if_pos same]
      · simp only [wakeTimer, if_neg same]
  | _ => rfl

theorem Seen.mono {s t : Barrier n} {rest : List (Fin n)} {fsh event : Nat}
    (seen : s.Seen rest fsh event) (done : ∀ d, s.done d = true → t.done d = true)
    (gone : ∀ d, s.fsh d = true → t.fsh d = true) : t.Seen rest fsh event := by
  obtain ⟨checked, split, ready, count, length⟩ := seen
  refine ⟨checked, split, ?_, ?_, length⟩
  · intro d member
    exact (ready d member).imp (done d) (gone d)
  · exact count.trans (List.countP_mono_left fun d _ => gone d)

/-- A device that raises its flags wakes the timer when it sleeps on them. -/
theorem Walk.wake {s t : Barrier n} {d : Fin n} (walk : s.Walk)
    (timer : t.timer = wakeTimer s.timer d) (done : ∀ e, s.done e = true → t.done e = true)
    (gone : ∀ e, s.fsh e = true → t.fsh e = true)
    (others : ∀ e, e ≠ d → t.done e = s.done e ∧ t.fsh e = s.fsh e) : t.Walk := by
  unfold Walk at walk ⊢
  rw [timer]
  cases at_timer : s.timer with
  | head => trivial
  | check rest fsh event =>
      rw [at_timer] at walk
      exact walk.mono done gone
  | asleep e rest fsh event =>
      rw [at_timer] at walk
      obtain ⟨seen, waits⟩ := walk
      by_cases same : e = d
      · simp only [wakeTimer, if_pos same]
        exact seen.mono done gone
      · simp only [wakeTimer, if_neg same]
        obtain ⟨done_same, fsh_same⟩ := others e same
        rw [done_same, fsh_same]
        exact ⟨seen.mono done gone, waits⟩
  | release rest fsh event =>
      rw [at_timer] at walk
      obtain ⟨split, count, length⟩ := walk
      exact ⟨split, count.trans (List.countP_mono_left fun e _ => gone e), length⟩
  | exited =>
      rw [at_timer] at walk
      exact fun e => gone e (walk e)

theorem calls_call (es : List (Event n)) (d e : Fin n) :
    calls (es ++ [.call d]) e = calls es e + (if e = d then 1 else 0) ∧
      returns (es ++ [.call d]) e = returns es e := by
  constructor
  · by_cases same : e = d
    · simp [calls, same]
    · simp [calls, same, Ne.symm same]
  · simp [returns]

theorem returns_ret (es : List (Event n)) (d e : Fin n) :
    returns (es ++ [.ret d]) e = returns es e + (if e = d then 1 else 0) ∧
      calls (es ++ [.ret d]) e = calls es e := by
  constructor
  · by_cases same : e = d
    · simp [returns, same]
    · simp [returns, same, Ne.symm same]
  · simp [calls]

theorem Lockstep.nextSlot {es : List (Event n)} {s : Barrier n} {d : Fin n}
    (lockstep : Lockstep es s) (outside : s.device d = .outside) :
    Lockstep (es ++ [.call d]) (s.nextSlot d) := by
  have pending : ∀ e, (s.nextSlot d).pending e = s.pending e := pending_wakeTimer rfl
  have waits := lockstep.devices d
  rw [outside] at waits
  obtain ⟨lowered, quiet, called, rets⟩ := waits
  refine ⟨?_, ?_, ?_, ?_⟩
  · intro e
    obtain ⟨more, returned⟩ := calls_call es d e
    rw [more, returned, pending]
    by_cases same : e = d
    · subst same
      simp only [Barrier.nextSlot, Function.update_self, if_true, quiet]
      refine ⟨by simp, by omega, ?_⟩
      simpa using rets
    · simp only [Barrier.nextSlot, Function.update_of_ne same, if_neg same, Nat.add_zero]
      exact lockstep.devices e
  · intro e
    rw [show (s.nextSlot d).fsh = s.fsh from rfl, lockstep.fsh e]
    by_cases same : e = d
    · subst same
      simp [Barrier.nextSlot, outside]
    · simp only [Barrier.nextSlot, Function.update_of_ne same]
  · intro e asleep
    by_cases same : e = d
    · subst same
      exact Function.update_self ..
    · simp only [Barrier.nextSlot, Function.update_of_ne same] at asleep ⊢
      exact lockstep.asleep e asleep
  · apply lockstep.walk.wake rfl
    · intro e raised
      by_cases same : e = d
      · subst same
        exact Function.update_self ..
      · simpa only [Barrier.nextSlot, Function.update_of_ne same] using raised
    · exact fun e gone => gone
    · exact fun e other => ⟨Function.update_of_ne other .., rfl⟩

/-- The thread of a device goes to `pc`. -/
def goDevice (s : Barrier n) (d : Fin n) (pc : DevicePc) : Barrier n :=
  { s with device := Function.update s.device d pc }

/-- A device goes on inside `next_slot`, or returns from it. -/
theorem Lockstep.goDevice {es es' : List (Event n)} {s : Barrier n} {d : Fin n} {pc : DevicePc}
    (lockstep : Lockstep es s) (inside : s.device d ≠ .detached) (stays : pc ≠ .detached)
    (asleep : pc = .asleep → s.done d = true)
    (here : InStep (calls es' d) (returns es' d) s.time pc (s.done d) (s.pending d))
    (others : ∀ e, e ≠ d → calls es' e = calls es e ∧ returns es' e = returns es e) :
    Lockstep es' (s.goDevice d pc) := by
  have pending : ∀ e, (s.goDevice d pc).pending e = s.pending e := fun _ => rfl
  refine ⟨?_, ?_, ?_, lockstep.walk⟩
  · intro e
    rw [pending]
    by_cases same : e = d
    · subst same
      simpa only [Barrier.goDevice, Function.update_self] using here
    · obtain ⟨called, returned⟩ := others e same
      rw [called, returned]
      simpa only [Barrier.goDevice, Function.update_of_ne same] using lockstep.devices e
  · intro e
    by_cases same : e = d
    · subst same
      simpa [Barrier.goDevice, stays, inside] using lockstep.fsh e
    · simpa only [Barrier.goDevice, Function.update_of_ne same] using lockstep.fsh e
  · intro e sleeps
    by_cases same : e = d
    · subst same
      simp only [Barrier.goDevice, Function.update_self] at sleeps
      exact asleep sleeps
    · simp only [Barrier.goDevice, Function.update_of_ne same] at sleeps
      exact lockstep.asleep e sleeps

theorem Lockstep.testDone {es : List (Event n)} {s : Barrier n} {d : Fin n}
    (lockstep : Lockstep es s) (testing : s.device d = .testing) :
    Lockstep (es ++ (s.event (.testDone d)).toList) (s.testDone d) := by
  have inside := lockstep.devices d
  rw [testing] at inside
  cases done : s.done d with
  | true =>
      have same : s.testDone d = s.goDevice d .asleep := by
        rw [Barrier.testDone, done]
        rfl
      rw [same, event, done, if_pos rfl, Option.toList_none, List.append_nil]
      exact lockstep.goDevice (by simp [testing]) (by simp) (fun _ => done) inside
        fun _ _ => ⟨rfl, rfl⟩
  | false =>
      have same : s.testDone d = s.goDevice d .outside := by
        rw [Barrier.testDone, done]
        rfl
      rw [same, event, done, if_neg (by simp), Option.toList_some]
      obtain ⟨released, called, slot⟩ := inside
      have quiet : s.pending d = false := by
        by_contra waits
        rw [done] at released
        exact absurd (released (by simpa using waits)) (by simp)
      rw [done, if_neg (by simp)] at slot
      refine lockstep.goDevice (by simp [testing]) (by simp) (by simp) ?_ ?_
      · obtain ⟨more, same⟩ := returns_ret es d d
        rw [more, same, if_pos rfl]
        exact ⟨done, quiet, slot, by omega⟩
      · intro e other
        obtain ⟨more, same⟩ := returns_ret es d e
        rw [if_neg other] at more
        exact ⟨same, more⟩

theorem Lockstep.detachEvent {es : List (Event n)} {s : Barrier n} {d : Fin n}
    (lockstep : Lockstep es s) (outside : s.device d = .outside) :
    Lockstep es (s.detachEvent d) := by
  have pending : ∀ e, (s.detachEvent d).pending e = s.pending e := pending_wakeTimer rfl
  have here := lockstep.devices d
  rw [outside] at here
  refine ⟨?_, ?_, ?_, ?_⟩
  · intro e
    rw [pending]
    by_cases same : e = d
    · subst same
      simp only [Barrier.detachEvent, Function.update_self]
      exact here.1
    · simp only [Barrier.detachEvent, Function.update_of_ne same]
      exact lockstep.devices e
  · intro e
    by_cases same : e = d
    · subst same
      simp [Barrier.detachEvent]
    · simp only [Barrier.detachEvent, Function.update_of_ne same]
      exact lockstep.fsh e
  · intro e asleep
    by_cases same : e = d
    · subst same
      simp [Barrier.detachEvent] at asleep
    · simp only [Barrier.detachEvent, Function.update_of_ne same] at asleep ⊢
      exact lockstep.asleep e asleep
  · apply lockstep.walk.wake rfl
    · exact fun e raised => raised
    · intro e gone
      by_cases same : e = d
      · subst same
        exact Function.update_self ..
      · simpa only [Barrier.detachEvent, Function.update_of_ne same] using gone
    · exact fun e other => ⟨rfl, Function.update_of_ne other ..⟩

/-- The timer goes on, and nothing but its position changes. -/
theorem Lockstep.goTimer {es : List (Event n)} {s : Barrier n} {pc : BarrierPc n}
    (lockstep : Lockstep es s) (pending : ∀ d, ({ s with timer := pc } : Barrier n).pending d =
      s.pending d) (walk : ({ s with timer := pc } : Barrier n).Walk) :
    Lockstep es { s with timer := pc } where
  devices := fun d => pending d ▸ lockstep.devices d
  fsh := lockstep.fsh
  asleep := lockstep.asleep
  walk := walk

/-- The timer has seen all devices through with the slot, and opens the next one. -/
theorem Lockstep.openSlot {es : List (Event n)} {s : Barrier n} {fsh event : Nat}
    (lockstep : Lockstep es s) (timer : s.timer = .check [] fsh event) :
    Lockstep es { s with time := s.time + 1, timer := .release (attached n) fsh event } := by
  have walk := lockstep.walk
  rw [Walk, timer] at walk
  obtain ⟨checked, split, ready, count, length⟩ := walk
  rw [List.append_nil] at split
  rw [split] at ready count length
  have quiet : ∀ d, s.pending d = false := fun d => by rw [Barrier.pending, timer]
  refine ⟨?_, lockstep.fsh, lockstep.asleep,
    ⟨⟨[], rfl⟩, count, length.trans (length_attached n)⟩⟩
  intro d
  have before := lockstep.devices d
  have waits : ({ s with
      time := s.time + 1, timer := .release (attached n) fsh event } : Barrier n).pending d =
        true := decide_eq_true (mem_attached d)
  have gone := lockstep.fsh d
  rw [waits]
  rw [quiet] at before
  cases pc : s.device d with
  | outside =>
      -- a device outside has not called in this slot, and was not passed by the timer
      rw [pc] at before gone
      obtain done | fsh := ready d (mem_attached d)
      · rw [before.1] at done
        cases done
      · cases gone.mp fsh
  | detached =>
      rw [pc] at before
      exact before
  | _ =>
      rw [pc] at before gone
      have done : s.done d = true := by
        obtain done | fsh := ready d (mem_attached d)
        · exact done
        · cases gone.mp fsh
      obtain ⟨_, called, slot⟩ := before
      rw [done, if_pos ⟨rfl, rfl⟩] at slot
      refine ⟨fun _ => done, called, ?_⟩
      rw [if_neg (by simp)]
      show _ = s.time + 1
      omega

/-- The timer releases a device. -/
theorem Lockstep.release {es : List (Event n)} {s : Barrier n} {d : Fin n} {rest : List (Fin n)}
    {fsh event : Nat} (lockstep : Lockstep es s) (timer : s.timer = .release (d :: rest) fsh event) :
    Lockstep es { s with
      done := Function.update s.done d false
      device := Function.update s.device d (wakeDevice (s.device d))
      timer := .release rest fsh event } := by
  have walk := lockstep.walk
  rw [Walk, timer] at walk
  obtain ⟨⟨released, split⟩, count, length⟩ := walk
  have absent : d ∉ rest := by
    have nodup := nodup_attached n
    rw [← split] at nodup
    exact (List.nodup_cons.mp (List.nodup_append.mp nodup).2.1).1
  refine ⟨?_, ?_, ?_, ⟨⟨released ++ [d], by rw [List.append_assoc]; exact split⟩, count, length⟩⟩
  · intro e
    have before := lockstep.devices e
    by_cases same : e = d
    · subst same
      have waits : s.pending e = true := by simp [Barrier.pending, timer]
      have quiet : decide (e ∈ rest) = false := decide_eq_false absent
      rw [waits] at before
      simp only [Barrier.pending, Function.update_self, quiet]
      cases pc : s.device e with
      | outside =>
          rw [pc] at before
          cases before.2.1
      | detached => rfl
      | _ =>
          rw [pc] at before
          obtain ⟨_, called, slot⟩ := before
          rw [if_neg (by simp)] at slot
          exact ⟨by simp, called, by rw [if_neg (by simp)]; exact slot⟩
    · have pending : decide (e ∈ rest) = s.pending e := by simp [Barrier.pending, timer, same]
      rw [← pending] at before
      simpa only [Barrier.pending, Function.update_of_ne same] using before
  · intro e
    by_cases same : e = d
    · subst same
      simp only [Function.update_self, lockstep.fsh e]
      cases s.device e <;> simp [wakeDevice]
    · simpa only [Function.update_of_ne same] using lockstep.fsh e
  · intro e asleep
    by_cases same : e = d
    · subst same
      simp only [Function.update_self] at asleep
      cases pc : s.device e <;> simp [wakeDevice, pc] at asleep
    · simp only [Function.update_of_ne same] at asleep ⊢
      exact lockstep.asleep e asleep

/-- Every step of the timer keeps the invariant. -/
theorem Lockstep.stepTimer {es : List (Event n)} {s t : Barrier n} (lockstep : Lockstep es s)
    (step : s.stepTimer = some t) : Lockstep es t := by
  have walk := lockstep.walk
  unfold Walk at walk
  unfold Barrier.stepTimer at step
  cases timer : s.timer with
  | head =>
      simp only [timer, Option.some.injEq] at step
      subst step
      exact lockstep.goTimer (fun d => by simp [pending, timer])
        ⟨[], rfl, by simp, Nat.zero_le _, rfl⟩
  | check rest fsh event =>
      cases rest with
      | nil =>
          simp only [timer, Option.some.injEq] at step
          subst step
          exact lockstep.openSlot timer
      | cons d rest =>
          rw [timer] at walk
          simp only [timer] at step
          split at step
          · rename_i waits
            cases step
            simp only [Bool.and_eq_true, Bool.not_eq_true'] at waits
            exact lockstep.goTimer (fun e => by simp [pending, timer]) ⟨walk, waits⟩
          · rename_i ready
            cases step
            obtain ⟨checked, split, seen, count, length⟩ := walk
            refine lockstep.goTimer (fun e => by simp [pending, timer])
              ⟨checked ++ [d], by rw [List.append_assoc]; exact split, ?_, ?_, by simp [length]⟩
            · intro e member
              obtain old | new := List.mem_append.mp member
              · exact seen e old
              · rw [List.mem_singleton.mp new]
                simpa [or_iff_not_imp_left] using ready
            · rw [List.countP_append, List.countP_singleton]
              change _ ≤ checked.countP s.fsh + if s.fsh d = true then 1 else 0
              split <;> omega
  | asleep d rest fsh event => simp [timer] at step
  | release rest fsh event =>
      cases rest with
      | nil =>
          rw [timer] at walk
          simp only [timer, Option.some.injEq] at step
          subst step
          refine lockstep.goTimer ?_ ?_
          · intro d
            split <;> simp [pending, timer]
          · by_cases all : fsh = event
            · -- as many devices were seen detached as there are
              rw [if_pos all]
              intro d
              have full : (attached n).countP s.fsh = (attached n).length := by
                have bound := List.countP_le_length (p := s.fsh) (l := attached n)
                rw [length_attached] at bound ⊢
                omega
              exact List.countP_eq_length.mp full d (mem_attached d)
            · rw [if_neg all]
              trivial
      | cons d rest =>
          simp only [timer, Option.some.injEq] at step
          subst step
          exact lockstep.release timer
  | exited => simp [timer] at step

theorem Lockstep.step {es : List (Event n)} {s t : Barrier n} {a : Action n}
    (lockstep : Lockstep es s) (step : (system n).step s a = some t) :
    Lockstep (es ++ (s.event a).toList) t := by
  cases a with
  | nextSlot d =>
      simp only [system, Option.ite_none_right_eq_some, Option.some.injEq] at step
      obtain ⟨outside, rfl⟩ := step
      exact lockstep.nextSlot outside
  | testDone d =>
      simp only [system, Option.ite_none_right_eq_some, Option.some.injEq] at step
      obtain ⟨testing, rfl⟩ := step
      exact lockstep.testDone testing
  | detachEvent d =>
      simp only [system, Option.ite_none_right_eq_some, Option.some.injEq] at step
      obtain ⟨outside, rfl⟩ := step
      simpa [event] using lockstep.detachEvent outside
  | timer => simpa [event] using lockstep.stepTimer step
  | spurious d =>
      simp only [system, Option.ite_none_right_eq_some, Option.some.injEq] at step
      obtain ⟨asleep, rfl⟩ := step
      have here := lockstep.devices d
      rw [asleep] at here
      rw [event, Option.toList_none, List.append_nil]
      exact lockstep.goDevice (by simp [asleep]) (by simp) (by simp) here fun _ _ => ⟨rfl, rfl⟩
  | spuriousTimer d =>
      simp only [system, Option.some.injEq] at step
      subst step
      rw [event, Option.toList_none, List.append_nil]
      refine lockstep.goTimer (pending_wakeTimer rfl) (lockstep.walk.wake (d := d) rfl ?_ ?_ ?_)
      · exact fun _ raised => raised
      · exact fun _ gone => gone
      · exact fun _ _ => ⟨rfl, rfl⟩

theorem lockstep_of_run {s : Barrier n} {as : List (Action n)}
    (run : (system n).run (start n) as = some s) :
    Lockstep ((system n).trace event (start n) as) s :=
  TransitionSystem.trace_invariant (fun _ _ _ _ lockstep step => lockstep.step step)
    (lockstep_start n) run

/-- A slot is opened when each device that is not detached has called in the present
one. -/
theorem Lockstep.called {es : List (Event n)} {s t : Barrier n} {a : Action n}
    (lockstep : Lockstep es s) (step : (system n).step s a = some t) (tick : t.time ≠ s.time) :
    t.time = s.time + 1 ∧ ∀ d, s.device d ≠ .detached → calls es d = s.time + 1 := by
  have walk := lockstep.walk
  unfold Walk at walk
  cases a with
  | timer =>
      change s.stepTimer = some t at step
      unfold Barrier.stepTimer at step
      cases timer : s.timer with
      | check rest fsh event =>
          cases rest with
          | nil =>
              simp only [timer, Option.some.injEq] at step
              subst step
              rw [timer] at walk
              obtain ⟨checked, split, ready, _⟩ := walk
              rw [List.append_nil] at split
              refine ⟨rfl, fun d stays => ?_⟩
              have quiet : s.pending d = false := by rw [pending, timer]
              have here := lockstep.devices d
              rw [quiet] at here
              have done : s.done d = true := by
                obtain done | fsh := ready d (split ▸ mem_attached d)
                · exact done
                · exact absurd ((lockstep.fsh d).mp fsh) stays
              cases pc : s.device d with
              | outside =>
                  rw [pc, done] at here
                  cases here.1
              | detached => exact absurd pc stays
              | _ =>
                  rw [pc] at here
                  obtain ⟨_, called, slot⟩ := here
                  rw [done, if_pos ⟨rfl, rfl⟩] at slot
                  omega
          | cons d rest =>
              simp only [timer] at step
              split at step <;> cases step <;> exact absurd rfl tick
      | release rest fsh event =>
          cases rest <;> simp only [timer, Option.some.injEq] at step <;> subst step <;>
            exact absurd rfl tick
      | head =>
          simp only [timer, Option.some.injEq] at step
          subst step
          exact absurd rfl tick
      | _ => simp [timer] at step
  | spuriousTimer d =>
      simp only [system, Option.some.injEq] at step
      subst step
      exact absurd rfl tick
  | _ =>
      simp only [system, Option.ite_none_right_eq_some, Option.some.injEq] at step
      obtain ⟨_, rfl⟩ := step
      exact absurd rfl tick

/-- A device returns from `next_slot` in the slot it has waited for. -/
theorem Lockstep.returned {es : List (Event n)} {s t : Barrier n} {d : Fin n}
    (lockstep : Lockstep es s) (step : (system n).step s (.testDone d) = some t)
    (ret : s.event (.testDone d) = some (.ret d)) : s.time = returns es d + 1 := by
  simp only [system, Option.ite_none_right_eq_some, Option.some.injEq] at step
  obtain ⟨testing, rfl⟩ := step
  have released : s.done d = false := by
    by_contra waits
    simp [event, waits] at ret
  have here := lockstep.devices d
  rw [testing, released] at here
  obtain ⟨_, called, slot⟩ := here
  rw [if_neg (by simp)] at slot
  omega

/-- The timer clears `done` under `timer_lock` only while the device cannot set it under
`event_lock`. -/
theorem Lockstep.release_inside {es : List (Event n)} {s : Barrier n} {d : Fin n}
    {rest : List (Fin n)} {fsh event : Nat} (lockstep : Lockstep es s)
    (timer : s.timer = .release (d :: rest) fsh event) : s.device d ≠ .outside := by
  intro outside
  have waits : s.pending d = true := by simp [pending, timer]
  have here := lockstep.devices d
  rw [outside, waits] at here
  cases here.2.1

/-- The threads are never stuck: while all devices are inside `next_slot` or detached, the
timer or a device goes on without a wake-up from nowhere. -/
theorem Lockstep.progress {es : List (Event n)} {s : Barrier n} (lockstep : Lockstep es s)
    (unfinished : s.timer ≠ .exited) (inside : ∀ d, s.device d ≠ .outside) :
    (∃ t, (system n).step s .timer = some t) ∨ ∃ d t, (system n).step s (.testDone d) = some t := by
  have walk := lockstep.walk
  unfold Walk at walk
  cases timer : s.timer with
  | asleep d rest fsh event =>
      rw [timer] at walk
      obtain ⟨_, lowered, attached⟩ := walk
      right
      refine ⟨d, s.testDone d, if_pos ?_⟩
      cases pc : s.device d with
      | testing => rfl
      | outside => exact absurd pc (inside d)
      | asleep =>
          rw [lockstep.asleep d pc] at lowered
          cases lowered
      | detached =>
          rw [(lockstep.fsh d).mpr pc] at attached
          cases attached
  | exited => exact absurd timer unfinished
  | head => exact .inl ⟨_, by simp only [system, Barrier.stepTimer, timer]; rfl⟩
  | check rest fsh event =>
      left
      cases rest with
      | nil => exact ⟨_, by simp only [system, Barrier.stepTimer, timer]; rfl⟩
      | cons d rest =>
          simp only [system, Barrier.stepTimer, timer]
          split <;> exact ⟨_, rfl⟩
  | release rest fsh event =>
      left
      cases rest <;> exact ⟨_, by simp only [system, Barrier.stepTimer, timer]; rfl⟩

/-- In every run: a slot is opened when each device that is not detached has called
`next_slot` for the present one; the `k`-th return to a device is in slot `k`; a thread
asleep has its condition still to wait for; the timer ends when all devices are detached,
and until then some thread goes on. -/
theorem lock_step (n : Nat) (as : List (Action n)) (s : Barrier n)
    (run : (system n).run (start n) as = some s) :
    (∀ a t, (system n).step s a = some t → t.time ≠ s.time → t.time = s.time + 1 ∧
        ∀ d, s.device d ≠ .detached →
          calls ((system n).trace event (start n) as) d = s.time + 1) ∧
      (∀ d t, (system n).step s (.testDone d) = some t →
        s.event (.testDone d) = some (.ret d) →
          s.time = returns ((system n).trace event (start n) as) d + 1) ∧
      (∀ d, s.device d = .asleep → s.done d = true) ∧
      (∀ d rest fsh event, s.timer = .asleep d rest fsh event →
        s.done d = false ∧ s.fsh d = false) ∧
      (s.timer = .exited → ∀ d, s.device d = .detached) ∧
      (s.timer ≠ .exited → (∀ d, s.device d ≠ .outside) →
        (∃ t, (system n).step s .timer = some t) ∨
          ∃ d t, (system n).step s (.testDone d) = some t) := by
  have lockstep := lockstep_of_run run
  have walk := lockstep.walk
  unfold Walk at walk
  refine ⟨fun _ _ step tick => lockstep.called step tick,
    fun _ _ step ret => lockstep.returned step ret, lockstep.asleep, ?_, ?_,
    lockstep.progress⟩
  · intro d rest fsh event timer
    rw [timer] at walk
    exact walk.2
  · intro timer d
    rw [timer] at walk
    exact (lockstep.fsh d).mp (walk d)

/-- The timer falls asleep on device 1; both devices call, and device 1 returns and calls
again before the timer has released device 0. -/
def fastDevice : List (Action 2) :=
  [.timer, .timer, .nextSlot 1, .nextSlot 0, .testDone 0, .timer, .timer, .timer, .timer,
    .testDone 1, .nextSlot 1, .testDone 1, .timer]

theorem lock_step_fast : ∃ s, (system 2).run (start 2) fastDevice = some s ∧
    ∀ d, s.device d = .asleep → s.done d = true := by
  have runs : ((system 2).run (start 2) fastDevice).isSome = true := by decide
  obtain ⟨s, run⟩ := Option.isSome_iff_exists.mp runs
  obtain ⟨_, _, asleep, _⟩ := lock_step 2 fastDevice s run
  exact ⟨s, run, asleep⟩

end Barrier
end SimpleOs
