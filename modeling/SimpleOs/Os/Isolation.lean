import SimpleOs.Os.FinalMemory
import SimpleOs.Os.Private

/-!
# Processes that share memory run as if alone

A program alone is its instructions on a `Private` memory: no frames, no other process, no
schedule. In the simulator the processes share RAM, a swap device and the CPUs. If RAM has a
frame for every page that the programs use when each runs alone, then in every run of the
simulator, under every schedule, each process has read the bytes it reads alone and finds
its memory and its regions as it does alone. And no step of a thread fails in memory that does
not fail alone.
-/

namespace SimpleOs

open Mem (Build Byte Machine MemCall Memphy PlainIndex Private memSystem)

variable {cfg : Config} {b : Build}

/-! ## A program alone -/

/-- The library call of an instruction that a program alone makes. -/
def Inst.alone (inst : Inst b) : Option (MemCall b Unit) := inst.call () 0 fun _ => 0

/-- The memory of a program alone after so many instructions, and the bytes that it has read. -/
def alone (text : Nat → Inst b) : Nat → Option (Private b × List Byte)
  | 0 => some (.init b, [])
  | n + 1 => (alone text n).bind fun (s, reads) =>
    match (text n).alone with
    | none => some (s, reads)
    | some call => (s.step call).map fun t => (t, reads ++ (s.delivers call).toList)

/-- A private memory does not see which process calls, and what the code reads unset. -/
theorem Inst.call_cases {P : Type} (inst : Inst b) (proc : P) (overlay : b.Word)
    (junk : Nat → Byte) :
    (inst.call proc overlay junk = none ∧ inst.alone = none) ∨
      ∃ call made, inst.call proc overlay junk = some call ∧ inst.alone = some made ∧
        call.caller = proc ∧ call.rgid = made.rgid ∧ ∀ s : Private b,
          s.step call = s.step made ∧ s.address call = s.address made ∧
            s.delivers call = s.delivers made := by
  cases inst
  · exact .inl ⟨rfl, rfl⟩
  all_goals exact .inr ⟨_, _, rfl, rfl, rfl, rfl, fun _ => ⟨rfl, rfl, rfl⟩⟩

/-- A program that comes to its end alone has come through all that is before. -/
theorem alone_isSome_of_le {text : Nat → Inst b} {n m : Nat} (le : n ≤ m)
    (whole : (alone text m).isSome = true) : (alone text n).isSome = true := by
  induction m, le using Nat.le_induction with
  | base => exact whole
  | succ m _ ih =>
      refine ih ?_
      cases before : alone text m with
      | none => simp [alone, before] at whole
      | some _ => rfl

namespace OsMem

/-- What the programs use alone: symbols that lie over no other field, and the addresses of
`pages`. -/
def Uses (text : cfg.Proc → Nat → Inst b) (pages : Finset (cfg.Proc × Fin (2 ^ b.indexBits))) :
    Prop :=
  ∀ p, ∀ n < cfg.size p, ∀ call ∈ (text p n).alone, PlainIndex call.rgid ∧
    ∀ s ∈ (alone (text p) n).map Prod.fst, ∀ addr ∈ s.address call,
      b.OnBus addr ∧ (p, b.page addr) ∈ pages

/-- The byte that a step reads, and for which process. -/
def delivers (text : cfg.Proc → Nat → Inst b) (s : OsMem cfg b) (a : Action cfg b) :
    Option (cfg.Proc × Byte) :=
  (s.call text a).bind fun call => (call.delivers s.machine).map fun byte => (call.caller, byte)

/-- The bytes that a process has read. -/
def readsOf (p : cfg.Proc) (reads : List (cfg.Proc × Byte)) : List Byte :=
  (reads.filter fun read => read.1 = p).map Prod.snd

variable {text : cfg.Proc → Nat → Inst b} {pages : Finset (cfg.Proc × Fin (2 ^ b.indexBits))}
  {s t : OsMem cfg b} {a : Action cfg b} {n : Nat}

/-- What each process has read so far, and its memory, is what it has alone. -/
structure AsAlone (text : cfg.Proc → Nat → Inst b)
    (pages : Finset (cfg.Proc × Fin (2 ^ b.indexBits))) (n : Nat) (reads : List (cfg.Proc × Byte))
    (s : OsMem cfg b) (view : cfg.Proc → Private b) : Prop where
  presents : s.machine.Presents n pages view
  each : ∀ p, alone (text p) (s.os.dispatch.kernel.pcOf p) = some (view p, readsOf p reads)

theorem readsOf_append (p : cfg.Proc) (reads more : List (cfg.Proc × Byte)) :
    readsOf p (reads ++ more) = readsOf p reads ++ readsOf p more := by
  simp [readsOf]

/-- An instruction is executed as it would be alone, or it fails as it would alone. -/
theorem AsAlone.perform (entries : n ≤ b.frames) (room : pages.card ≤ n) (uses : Uses text pages)
    (reachable : (Os.system cfg).Reachable s.os) {reads : List (cfg.Proc × Byte)}
    {view : cfg.Proc → Private b} (asAlone : AsAlone text pages n reads s view) {p : cfg.Proc}
    {k : Nat} (executes : s.executed a = some (p, k)) :
    (alone (text p) (s.os.dispatch.kernel.pcOf p + 1) = none ∧
        serve s.machine (s.call text a) = none) ∨
      ∃ x m, serve s.machine (s.call text a) = some m ∧
        m.Presents n pages (Function.update view p x) ∧
        alone (text p) (s.os.dispatch.kernel.pcOf p + 1) =
          some (x, readsOf p (reads ++ (s.delivers text a).toList)) ∧
        ∀ read ∈ s.delivers text a, read.1 = p := by
  obtain ⟨i, thread, pc⟩ := Os.executed_eq_some.mp executes
  obtain ⟨-, rfl, more⟩ := (Os.owned_of_reachable reachable).2.fetched i p k pc
  have before := asAlone.each p
  have made : s.call text a =
      (text p (s.os.dispatch.kernel.pcOf p)).call p a.overlay a.junk := by
    rw [OsMem.call, thread]
    simp only [pc]
  obtain ⟨calm, quiet⟩ | ⟨call, solo, calls, solos, mine, index, views⟩ :=
    (text p (s.os.dispatch.kernel.pcOf p)).call_cases p a.overlay a.junk
  · rw [calm] at made
    refine .inr ⟨view p, s.machine, by rw [made]; rfl, ?_, ?_, ?_⟩
    · rw [Function.update_eq_self]
      exact asAlone.presents
    · simp [alone, before, quiet, delivers, made]
    · simp [delivers, made]
  · rw [calls] at made
    obtain ⟨plain, inside⟩ := uses p _ more solo solos
    obtain ⟨moves, address, byte⟩ := views (view p)
    have within : ∀ addr ∈ (view p).address call, b.OnBus addr ∧ (p, b.page addr) ∈ pages := by
      rw [address]
      exact inside (view p) (by simp [before])
    obtain ⟨fails, crashed⟩ | ⟨x, m, moved, served, presents, delivered⟩ :=
      asAlone.presents.step entries room mine (index ▸ plain) within
    · rw [moves] at fails
      refine .inl ⟨by simp [alone, before, solos, fails], ?_⟩
      rw [made]
      exact crashed
    · rw [moves] at moved
      rw [byte] at delivered
      have shown : s.delivers text a =
          ((view p).delivers solo).map fun byte => (p, byte) := by
        simp [delivers, made, delivered, mine]
      refine .inr ⟨x, m, ?_, presents, ?_, ?_⟩
      · rw [made]
        exact served
      · rw [shown, readsOf_append]
        cases read : (view p).delivers solo <;>
          simp [alone, before, solos, moved, read, readsOf]
      · rw [shown]
        simp

/-- A step that executes nothing makes no call. -/
theorem call_of_not_executed (quiet : s.executed a = none) : s.call text a = none := by
  cases made : s.call text a with
  | none => rfl
  | some call =>
      obtain ⟨i, k, thread, executes⟩ := call_eq_some made
      rw [executed, Os.executed_eq_some.mpr ⟨i, thread, executes⟩] at quiet
      cases quiet

theorem AsAlone.step (entries : n ≤ b.frames) (room : pages.card ≤ n) (uses : Uses text pages)
    (reachable : (Os.system cfg).Reachable s.os) {reads : List (cfg.Proc × Byte)}
    {view : cfg.Proc → Private b} (asAlone : AsAlone text pages n reads s view)
    (step : (system text).step s a = some t) :
    ∃ view', AsAlone text pages n (reads ++ (s.delivers text a).toList) t view' := by
  obtain ⟨threads, served⟩ := step_eq_some.mp step
  have counter := Os.pcOf_of_step threads
  cases executes : s.executed a with
  | none =>
      have quiet : s.call text a = none := call_of_not_executed executes
      rw [executed] at executes
      rw [quiet] at served
      have same : t.machine = s.machine := (Option.some.inj served).symm
      refine ⟨view, same ▸ asAlone.presents, fun p => ?_⟩
      rw [counter, executes]
      simpa [delivers, quiet] using asAlone.each p
  | some e =>
      obtain ⟨p, k⟩ := e
      obtain ⟨-, crashed⟩ | ⟨x, m, served', presents, alone, mine⟩ :=
        asAlone.perform entries room uses reachable executes
      · rw [crashed] at served
        cases served
      · rw [served] at served'
        cases served'
        rw [executed] at executes
        refine ⟨Function.update view p x, presents, fun q => ?_⟩
        rw [counter, executes]
        by_cases same : q = p
        · subst same
          simpa using alone
        · have others : readsOf q (s.delivers text a).toList = [] := by
            rw [readsOf, List.map_eq_nil_iff, List.filter_eq_nil_iff]
            intro read member
            rw [mine read (Option.mem_toList.mp member)]
            simpa using Ne.symm same
          rw [readsOf_append, others, List.append_nil]
          simpa [same] using asAlone.each q

theorem asAlone_of_run (entries : n ≤ b.frames) (room : pages.card ≤ n) (uses : Uses text pages)
    {memramsz memswpsz : Nat} (frames : n = memramsz / b.pageSz) {as : List (Action cfg b)}
    (run : (system text).run (start cfg b memramsz memswpsz) as = some s) :
    (Os.system cfg).Reachable s.os ∧
      ∃ view, AsAlone text pages n
        ((system text).trace (delivers text) (start cfg b memramsz memswpsz) as) s view := by
  refine TransitionSystem.trace_invariant (M := system text)
    (R := fun reads s => (Os.system cfg).Reachable s.os ∧ ∃ view, AsAlone text pages n reads s view)
    ?_ ?_ run
  · rintro reads s a t ⟨reachable, view, asAlone⟩ step
    exact ⟨reachable.step (step_eq_some.mp step).1,
      asAlone.step entries room uses reachable step⟩
  · subst frames
    have random : (Memphy.init b memramsz true).rdmflg = true := rfl
    exact ⟨.init rfl, fun _ => .init b, Machine.Presents.boot random rfl, fun _ => rfl⟩

/-- If RAM has a frame for each page that the programs use alone, and no more than an entry can
number, then under every schedule each process has read what it reads alone by then, and it has
the memory and the regions that it has alone. -/
theorem processes_as_alone (text : cfg.Proc → Nat → Inst b) (memramsz memswpsz : Nat)
    (entries : memramsz / b.pageSz ≤ b.frames)
    (pages : Finset (cfg.Proc × Fin (2 ^ b.indexBits)))
    (room : pages.card ≤ memramsz / b.pageSz) (uses : Uses text pages)
    (as : List (Action cfg b)) (s : OsMem cfg b)
    (run : (system text).run (start cfg b memramsz memswpsz) as = some s) :
    ∃ view : cfg.Proc → Private b,
      s.machine.Presents (memramsz / b.pageSz) pages view ∧
      ∀ p, alone (text p) (s.os.dispatch.kernel.pcOf p) =
        some (view p, readsOf p
          ((system text).trace (delivers text) (start cfg b memramsz memswpsz) as)) := by
  obtain ⟨-, view, asAlone⟩ := asAlone_of_run entries room uses rfl run
  exact ⟨view, asAlone.presents, asAlone.each⟩

/-- Both processes use address 0. -/
theorem uses_writeRead : Uses writeRead (Finset.univ ×ˢ {0}) := by
  intro p n more call made
  have first : n = 0 ∨ n = 1 := by
    have small : n < 2 - (p : Nat) := more
    omega
  obtain rfl | rfl := first
  · cases made
    refine ⟨by decide +revert, fun s before addr here => ?_⟩
    cases before
    cases here
    exact ⟨by decide, by decide +revert⟩
  · cases made
    refine ⟨by decide, fun s before addr here => ?_⟩
    cases before
    cases here
    exact ⟨by decide +revert, by decide +revert⟩

theorem processes_as_alone_writeRead : ∃ s,
    (system writeRead).run (start _ _ 512 512) (steps Os.bothRun) = some s ∧
      ∃ view : Dispatch.twoProcesses.Proc → Private .mm32,
        s.machine.Presents 2 (Finset.univ ×ˢ {0}) view ∧
        ∀ p, alone (writeRead p) (s.os.dispatch.kernel.pcOf p) =
          some (view p, readsOf p
            ((system writeRead).trace (delivers writeRead) (start _ _ 512 512)
              (steps Os.bothRun))) := by
  have runs : ((system writeRead).run (start _ _ 512 512) (steps Os.bothRun)).isSome = true := by
    decide +kernel
  obtain ⟨s, run⟩ := Option.isSome_iff_exists.mp runs
  exact ⟨s, run, processes_as_alone writeRead 512 512 (by decide) _ (by decide) uses_writeRead
    (steps Os.bothRun) s run⟩

/-- And if each program comes to its end alone, and the queues have room for all processes, no
thread fails in memory, and when the simulator is done each process has read all that it reads
alone. -/
theorem programs_complete (cfg : Config) (cpus : 1 ≤ cfg.numCpus) (few : cfg.numCpus ≤ 64)
    (fits : cfg.Fits) (b : Build) (text : cfg.Proc → Nat → Inst b) (memramsz memswpsz : Nat)
    (entries : memramsz / b.pageSz ≤ b.frames)
    (pages : Finset (cfg.Proc × Fin (2 ^ b.indexBits)))
    (room : pages.card ≤ memramsz / b.pageSz) (uses : Uses text pages)
    (whole : ∀ p, (alone (text p) (cfg.size p)).isSome = true)
    (as : List (Action cfg b)) (s : OsMem cfg b)
    (run : (system text).run (start cfg b memramsz memswpsz) as = some s) :
    (∀ a, ((system text).step s a).isSome = ((Os.system cfg).step s.os a.thread).isSome) ∧
      (s.Late as → ∃ view : cfg.Proc → Private b,
        s.machine.Presents (memramsz / b.pageSz) pages view ∧
        ∀ p, alone (text p) (cfg.size p) =
          some (view p, readsOf p
            ((system text).trace (delivers text) (start cfg b memramsz memswpsz) as))) := by
  obtain ⟨reachable, view, asAlone⟩ := asAlone_of_run entries room uses rfl run
  refine ⟨fun a => ?_, fun late => ⟨view, asAlone.presents, fun p => ?_⟩⟩
  · have serves : (serve s.machine (s.call text a)).isSome = true := by
      cases executes : s.executed a with
      | none => rw [call_of_not_executed executes, serve, Option.isSome_some]
      | some e =>
          obtain ⟨p, k⟩ := e
          obtain ⟨fails, -⟩ | ⟨x, m, served, -⟩ :=
            asAlone.perform entries room uses reachable executes
          · obtain ⟨i, thread, pc⟩ := Os.executed_eq_some.mp executes
            obtain ⟨-, rfl, more⟩ := (Os.owned_of_reachable reachable).2.fetched i p k pc
            have solo := alone_isSome_of_le more (whole p)
            rw [fails] at solo
            cases solo
          · rw [served, Option.isSome_some]
    obtain ⟨m, served⟩ := Option.isSome_iff_exists.mp serves
    cases moved : (Os.system cfg).step s.os a.thread <;> simp [system, moved, served]
  · have each := asAlone.each p
    rwa [pcOf_of_late cpus few fits run late p] at each

/-- At the end the first process has read the byte that it wrote, whatever the other wrote to the
same address. -/
theorem programs_complete_writeRead : ∃ s,
    (system writeRead).run (start _ _ 512 512) (steps Os.bothRun) = some s ∧
      ∀ p, readsOf p ((system writeRead).trace (delivers writeRead) (start _ _ 512 512)
        (steps Os.bothRun)) = if p.val = 0 then [7] else [] := by
  have runs : ((system writeRead).run (start _ _ 512 512) (steps Os.bothRun)).any (fun s =>
      s.os.still) = true := by
    decide +kernel
  obtain ⟨s, run, still⟩ := (Option.any_eq_true _ _).mp runs
  have complete := programs_complete Dispatch.twoProcesses (by decide) (by decide) (by decide) .mm32
    writeRead 512 512 (by decide) _ (by decide) uses_writeRead (by decide +kernel)
    (steps Os.bothRun) s run
  obtain ⟨view, -, each⟩ := complete.2 (.inr (.inr (Os.stuck_of_still still)))
  refine ⟨s, run, fun p => ?_⟩
  have reads : (alone (writeRead p) (Dispatch.twoProcesses.size p)).map Prod.snd =
      some (if p.val = 0 then [7] else []) := by
    decide +revert +kernel
  rw [each p] at reads
  exact Option.some.inj reads

end OsMem

end SimpleOs
