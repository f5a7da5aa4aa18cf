import SimpleOs.Mem.Exclusive
import SimpleOs.Os.Simulation

/-!
# The memory of finished processes

The threads of the simulator run programs of memory instructions. The counter that
`run` advances belongs to the process alone, and the library call of an instruction is
one critical section of `mmvm_lock`, so the two are one step here.

`cpu_routine` frees the PCB of a process that has finished. Nothing there calls
`free_pcb_memph`, so the frames of the process stay where they are: they are neither
free nor mapped by a process that is still there. All other steps keep the accounts,
and so does a finish where there is nothing to give back.
-/

namespace SimpleOs

open Mem (Build Byte Machine MemCall memSystem stock)

variable {cfg : Config} {b : Build}

/-- `struct inst_t`, an opcode with the arguments that `run` uses: those that work on the memory of
their process. The programs here have no SYSCALL. -/
inductive Inst (b : Build) where
  | calc
  | alloc (arg0 arg1 : b.Word)
  | free (arg0 : b.Word)
  | read (arg0 arg1 : b.Word)
  | write (arg0 arg1 arg2 : b.Word)

/-- The library call of an instruction in `run`. -/
def Inst.call {P : Type} (proc : P) (overlay : b.Word) (junk : Nat → Byte) :
    Inst b → Option (MemCall b P)
  | .calc => none
  | .alloc arg0 arg1 => some (.liballoc proc arg0 (arg1.setWidth 32).toInt)
  | .free arg0 => some (.libfree proc (arg0.setWidth 32).toInt)
  | .read arg0 arg1 => some (.libread proc (arg0.setWidth 32).toInt arg1 overlay junk)
  | .write arg0 arg1 arg2 =>
      some (.libwrite proc (arg0.setWidth 8) (arg1.setWidth 32).toInt arg2 overlay junk)

theorem Inst.caller_call {P : Type} {proc : P} {overlay : b.Word} {junk : Nat → Byte}
    {inst : Inst b} {call : MemCall b P} (made : inst.call proc overlay junk = some call) :
    call.caller = proc := by
  cases inst <;> cases made <;> rfl

/-- The threads and the memory they share. -/
structure OsMem (cfg : Config) (b : Build) where
  os : Os cfg
  machine : Machine b cfg.Proc

namespace OsMem

/-- A step of a thread, with what it finds in entry 30 of a symbol table and in
variables that are not set. -/
structure Action (cfg : Config) (b : Build) where
  thread : Os.Action cfg
  overlay : b.Word
  junk : Nat → Byte

/-- The devices are formatted before the threads start. -/
def start (cfg : Config) (b : Build) (memramsz memswpsz : Nat) : OsMem cfg b where
  os := Os.start cfg
  machine := .boot (.init b memramsz true) (.init b memswpsz true)

/-- The library call that a step makes. -/
def call (text : cfg.Proc → Nat → Inst b) (s : OsMem cfg b) (a : Action cfg b) :
    Option (MemCall b cfg.Proc) :=
  match a.thread with
  | .cpu i =>
    match (s.os.dispatch.cpu i).pc with
    | .execute proc pc => (text proc pc).call proc a.overlay a.junk
    | _ => none
  | _ => none

/-- The memory after a library call, if any. -/
def serve (m : Machine b cfg.Proc) : Option (MemCall b cfg.Proc) → Option (Machine b cfg.Proc)
  | none => some m
  | some call => (memSystem b cfg.Proc).step m call

/-- Any interleaving of all threads on programs with the code `text`. -/
def system (text : cfg.Proc → Nat → Inst b) : TransitionSystem (OsMem cfg b) (Action cfg b) where
  init s := ∃ memramsz memswpsz, s = start cfg b memramsz memswpsz
  step s a := do
    let os ← (Os.system cfg).step s.os a.thread
    let machine ← serve s.machine (s.call text a)
    some ⟨os, machine⟩

/-- The process whose PCB a step frees, because it has finished. -/
def finishing (s : OsMem cfg b) (a : Action cfg b) : Option cfg.Proc :=
  match a.thread with
  | .cpu i =>
    match (s.os.dispatch.cpu i).pc, (s.os.dispatch.cpu i).held with
    | .check, some p => if s.os.dispatch.kernel.pcOf p = cfg.size p then some p else none
    | _, _ => none
  | _ => none

/-- The process has no page, neither in RAM nor in swap. -/
def Unmapped (s : OsMem cfg b) (p : cfg.Proc) : Prop :=
  ∀ page, b.pagePresent ((s.machine.mm p).pgd page) = false ∧
    b.pageSwapped ((s.machine.mm p).pgd page) = false

/-- The pages of the processes that have not finished. -/
def livePages (s : OsMem cfg b) : Finset (cfg.Proc × Fin (2 ^ b.indexBits)) :=
  Finset.univ.filter fun page => s.os.dispatch.kernel.freed page.1 = false

/-- The frames missing from the free lists are those of the processes that have not
finished. -/
structure Returned (n k : Nat) (s : OsMem cfg b) : Prop where
  ram : (s.machine.mram.freeFpList ++
    s.livePages.toList.flatMap (s.machine.held b.frameOf)).Perm (stock b n)
  swap : (s.machine.activeMswp.freeFpList ++
    s.livePages.toList.flatMap (s.machine.held b.swapOf)).Perm (stock b k)

/-- A step that finishes no process with pages, and takes no frame whose number does not
fit in an entry. -/
structure Clean (text : cfg.Proc → Nat → Inst b) (s : OsMem cfg b) (a : Action cfg b) : Prop where
  finish : ∀ p ∈ s.finishing a, s.Unmapped p
  fits : ∀ call ∈ s.call text a, call.Fits s.machine

/-! ## What a step does -/

section Steps

variable {text : cfg.Proc → Nat → Inst b} {s t : OsMem cfg b} {a : Action cfg b}

theorem step_eq_some : (system text).step s a = some t ↔
    (Os.system cfg).step s.os a.thread = some t.os ∧
      serve s.machine (s.call text a) = some t.machine := by
  obtain ⟨os, machine⟩ := t
  simp [system, Option.bind_eq_some_iff]

/-- A call is made by the process that a CPU executes. -/
theorem call_eq_some {call : MemCall b cfg.Proc} (made : s.call text a = some call) :
    ∃ i pc, a.thread = .cpu i ∧ (s.os.dispatch.cpu i).pc = .execute call.caller pc := by
  rw [OsMem.call] at made
  split at made
  next i thread =>
    split at made
    next proc pc executes =>
      rw [Inst.caller_call made]
      exact ⟨i, pc, thread, executes⟩
    next => cases made
  next => cases made

theorem finishing_eq_some {p : cfg.Proc} : s.finishing a = some p ↔
    ∃ i, a.thread = .cpu i ∧ (s.os.dispatch.cpu i).pc = .check ∧
      (s.os.dispatch.cpu i).held = some p ∧ s.os.dispatch.kernel.pcOf p = cfg.size p := by
  rw [finishing]
  constructor
  · intro finishes
    split at finishes
    next i thread =>
      split at finishes
      next q check held =>
        obtain ⟨finished, same⟩ := Option.ite_none_right_eq_some.mp finishes
        cases same
        exact ⟨i, thread, check, held, finished⟩
      next => cases finishes
    next => cases finishes
  · rintro ⟨i, thread, check, held, finished⟩
    simp [thread, check, held, finished]

/-- A PCB is only freed by the CPU that finds its process finished. -/
theorem freed_step (loading : s.os.Loading) (step : (Os.system cfg).step s.os a.thread = some t.os)
    {p : cfg.Proc} (dead : t.os.dispatch.kernel.freed p = true) :
    s.os.dispatch.kernel.freed p = true ∨ s.finishing a = some p := by
  obtain ⟨-, ⟨same, -⟩ | ⟨d, thread, ran⟩⟩ := loading.step step
  · rw [same] at dead
    exact .inl dead
  · cases d with
    | ld =>
        obtain ⟨more, after⟩ | after := Dispatch.step_ld ran <;> rw [after] at dead <;>
          exact .inl dead
    | cpu i =>
        obtain ⟨k, c, stepped, after⟩ := Dispatch.step_cpu.mp ran
        rw [after, Dispatch.setCpu_kernel] at dead
        have mine : a.thread = .cpu i := by
          cases who : a.thread <;> rw [who] at thread <;> cases thread
          rfl
        cases cpuStep_effect stepped with
        | keep _ _ freed => exact .inl (freed ▸ dead)
        | put q _ _ _ _ _ _ freed => exact .inl (freed ▸ dead)
        | dispatch l q rest _ _ _ _ freed => exact .inl (freed ▸ dead)
        | free q check held finished _ _ freed =>
            rw [freed] at dead
            by_cases same : p = q
            · subst same
              exact .inr (finishing_eq_some.mpr ⟨i, mine, check, held, finished⟩)
            · rw [Function.update_of_ne same] at dead
              exact .inl dead

theorem freed_of_finishing (step : (Os.system cfg).step s.os a.thread = some t.os) {p : cfg.Proc}
    (finishes : s.finishing a = some p) : t.os.dispatch.kernel.freed p = true := by
  obtain ⟨i, thread, check, held, finished⟩ := finishing_eq_some.mp finishes
  have current : (s.os.dispatch.cpu i).proc = some p := by
    rw [Cpu.held, check] at held
    exact held
  rw [thread] at step
  obtain ⟨-, k, c, ran, after⟩ := Os.stepCpu_eq_some.mp step
  simp only [cpuStep, check, current, finished, if_true, Option.some.injEq, Prod.mk.injEq] at ran
  obtain ⟨rfl, -⟩ := ran
  rw [after]
  exact Function.update_self ..

/-- While a CPU frees a PCB, memory is left alone. -/
theorem call_of_finishing {p : cfg.Proc} (finishes : s.finishing a = some p) :
    s.call text a = none := by
  obtain ⟨i, thread, check, -⟩ := finishing_eq_some.mp finishes
  simp [OsMem.call, thread, check]

end Steps

/-! ## The accounts of a run -/

/-- What holds while finished processes have no pages. -/
structure Kept (n k : Nat) (s : OsMem cfg b) : Prop where
  reachable : (Os.system cfg).Reachable s.os
  frames : s.machine.Kept n k
  unmapped : ∀ p, s.os.dispatch.kernel.freed p = true → s.Unmapped p

section Accounts

variable {text : cfg.Proc → Nat → Inst b} {s t : OsMem cfg b} {a : Action cfg b} {n k : Nat}
  {holds : b.Word → List b.Word}

theorem count_livePages (f : b.Word) : (s.livePages.toList.flatMap (s.machine.held holds)).count f =
    ∑ page ∈ s.livePages, (s.machine.held holds page).count f := by
  rw [List.count_flatMap, Finset.sum_map_toList]
  rfl

/-- The frames of the processes that have not finished are all there are where the others
have none. -/
theorem count_live_eq (empty : ∀ page ∉ s.livePages, s.machine.held holds page = []) (f : b.Word) :
    (s.livePages.toList.flatMap (s.machine.held holds)).count f =
      Custody.occurrences (s.machine.held holds) f := by
  rw [count_livePages, Custody.occurrences]
  apply Finset.sum_subset (Finset.subset_univ _)
  intro page _ dead
  rw [empty page dead, List.count_nil]

theorem Kept.returned (kept : Kept n k s) : s.Returned n k := by
  have dead : ∀ page ∉ s.livePages, s.Unmapped page.1 := by
    intro page finished
    apply kept.unmapped
    simpa [livePages] using finished
  constructor
  · apply List.perm_iff_count.mpr
    intro f
    have account := kept.frames.ram.frames f
    rw [List.count_append, count_live_eq]
    · simpa using account
    · intro page finished
      exact Mem.frameOf_absent (dead page finished page.2).1
  · apply List.perm_iff_count.mpr
    intro f
    have account := kept.frames.swap f
    rw [List.count_append, count_live_eq]
    · simpa using account
    · intro page finished
      exact Mem.swapOf_resident (dead page finished page.2).2

/-- Where the accounts are right, what has finished has no pages. -/
theorem Returned.unmapped (returned : s.Returned n k) (frames : s.machine.Kept n k)
    {p : cfg.Proc} (dead : s.os.dispatch.kernel.freed p = true) : s.Unmapped p := by
  have finished : ∀ page, (p, page) ∉ s.livePages := by
    intro page
    simp [livePages, dead]
  have empty : ∀ holds : b.Word → List b.Word, (∀ f, (s.livePages.toList.flatMap
      (s.machine.held holds)).count f = Custody.occurrences (s.machine.held holds) f) →
      ∀ page, holds ((s.machine.mm p).pgd page) = [] := by
    intro holds same page
    apply List.eq_nil_iff_forall_not_mem.mpr
    intro f member
    have live := same f
    rw [count_livePages, Custody.occurrences] at live
    have more := Finset.sum_lt_sum_of_subset (f := fun page => (s.machine.held holds page).count f)
      (Finset.subset_univ s.livePages) (Finset.mem_univ (p, page)) (finished page)
      (List.count_pos_iff.mpr member) fun _ _ _ => Nat.zero_le _
    exact absurd live more.ne
  have ram := empty b.frameOf fun f => by
    have account := frames.ram.frames f
    have total := List.perm_iff_count.mp returned.ram f
    rw [List.count_append] at total
    simp only [List.count_nil, Nat.add_zero] at account
    omega
  have swap := empty b.swapOf fun f => by
    have account := frames.swap f
    have total := List.perm_iff_count.mp returned.swap f
    rw [List.count_append] at total
    simp only [List.count_nil, Nat.add_zero] at account
    omega
  intro page
  have resident : b.pageSwapped ((s.machine.mm p).pgd page) = false := by
    by_contra swapped
    have held := swap page
    rw [Build.swapOf, if_pos (eq_true_of_ne_false swapped)] at held
    cases held
  refine ⟨?_, resident⟩
  by_contra present
  have held := ram page
  have online : b.online ((s.machine.mm p).pgd page) = true := by
    simp [Build.online, eq_true_of_ne_false present, resident]
  rw [Mem.frameOf_online online] at held
  cases held

/-- The process that makes a call is in custody, so its PCB is not freed. -/
theorem Kept.caller_alive (kept : Kept n k s) {call : MemCall b cfg.Proc}
    (made : s.call text a = some call) : s.os.dispatch.kernel.freed call.caller = false := by
  obtain ⟨owned, fetched⟩ := Os.owned_of_reachable kept.reachable
  obtain ⟨i, pc, -, executes⟩ := call_eq_some made
  by_contra freed
  have none := (owned.gone call.caller (eq_true_of_ne_false freed)).2
  refine Custody.occurrences_ne_zero (i := .inr i) ?_ none
  rw [Dispatch.places_inr, (fetched.fetched i _ pc executes).1]
  exact List.mem_singleton_self _

theorem Kept.step (kept : Kept n k s) (clean : s.Clean text a)
    (step : (system text).step s a = some t) : Kept n k t := by
  obtain ⟨threads, served⟩ := step_eq_some.mp step
  have loading := (Os.dispatch_reachable kept.reachable).2
  have reachable := kept.reachable.step threads
  cases made : s.call text a with
  | none =>
      rw [made] at served
      have same : t.machine = s.machine := (Option.some.inj served).symm
      refine ⟨reachable, same ▸ kept.frames, ?_⟩
      intro p dead
      rw [Unmapped, same]
      obtain before | finishes := freed_step loading threads dead
      · exact kept.unmapped p before
      · exact clean.finish p finishes
  | some call =>
      rw [made] at served
      refine ⟨reachable, kept.frames.step (clean.fits call made) served, ?_⟩
      intro p dead
      obtain before | finishes := freed_step loading threads dead
      · have other : p ≠ call.caller := by
          rintro rfl
          rw [kept.caller_alive made] at before
          cases before
        rw [Unmapped, (Machine.Beside.step kept.frames.krnlMm served).mm p other]
        exact kept.unmapped p before
      · rw [call_of_finishing finishes] at made
        cases made

/-- A finish keeps the accounts exactly where the process has no pages. -/
theorem Kept.finish_iff (kept : Kept n k s) {p : cfg.Proc} (finishes : s.finishing a = some p)
    (step : (system text).step s a = some t) : t.Returned n k ↔ s.Unmapped p := by
  have quiet : s.call text a = none := call_of_finishing finishes
  obtain ⟨threads, served⟩ := step_eq_some.mp step
  rw [quiet] at served
  have same : t.machine = s.machine := (Option.some.inj served).symm
  constructor
  · intro returned
    have empty := returned.unmapped (same ▸ kept.frames) (freed_of_finishing threads finishes)
    rwa [Unmapped, same] at empty
  · intro unmapped
    refine (kept.step ⟨?_, ?_⟩ step).returned
    · intro q other
      rw [Option.mem_def, finishes] at other
      cases other
      exact unmapped
    · intro call made
      rw [Option.mem_def, quiet] at made
      cases made

end Accounts

/-! ## Two runs -/

-- The instance for options is named where the one for all words would be found.
instance (m : Machine b cfg.Proc) : Decidable m.FrameFits :=
  haveI : Decidable (∀ f ∈ m.mram.freeFpList.head?, f.toNat < b.frames) :=
    Option.decidableForallMem _
  haveI : Decidable (∀ f ∈ m.activeMswp.freeFpList.head?, f.toNat < b.swapFrames) :=
    Option.decidableForallMem _
  decidable_of_iff ((∀ f ∈ m.mram.freeFpList.head?, f.toNat < b.frames) ∧
      (m.mram.freeFpList = [] → ∀ f ∈ m.activeMswp.freeFpList.head?, f.toNat < b.swapFrames))
    ⟨fun fits => ⟨fits.1, fits.2⟩, fun fits => ⟨fits.ram, fits.swap⟩⟩

instance (m : Machine b cfg.Proc) (p : cfg.Proc) (addr : b.Word) : Decidable (m.FaultFits p addr) :=
  inferInstanceAs (Decidable (_ = false → m.FrameFits))

instance (m : Machine b cfg.Proc) : (call : MemCall b cfg.Proc) → Decidable (call.Fits m)
  | .liballoc .. => .isTrue trivial
  | .libfree .. => .isTrue trivial
  | .libread .. => Option.decidableForallMem _
  | .libwrite .. => Option.decidableForallMem _

instance (s : OsMem cfg b) (p : cfg.Proc) : Decidable (s.Unmapped p) :=
  inferInstanceAs (Decidable (∀ page, b.pagePresent ((s.machine.mm p).pgd page) = false ∧
    b.pageSwapped ((s.machine.mm p).pgd page) = false))

instance (text : cfg.Proc → Nat → Inst b) (s : OsMem cfg b) (a : Action cfg b) :
    Decidable (s.Clean text a) :=
  haveI : Decidable (∀ p ∈ s.finishing a, s.Unmapped p) :=
    Option.decidableForallMem _
  decidable_of_iff ((∀ p ∈ s.finishing a, s.Unmapped p) ∧
      ∀ call ∈ s.call text a, call.Fits s.machine)
    ⟨fun clean => ⟨clean.1, clean.2⟩, fun clean => ⟨clean.finish, clean.fits⟩⟩

/-- The steps of the threads, where no variable is read unset. -/
def steps (threads : List (Os.Action cfg)) : List (Action cfg .mm32) :=
  threads.map fun thread => ⟨thread, 0, fun _ => 0⟩

/-- The only CPU finds no process, the loader adds one, and in the two slots that follow
the CPU executes its two instructions. -/
def writingRun : List (Os.Action Dispatch.loneProcess) :=
  let cpu : Nat → List (Os.Action Dispatch.loneProcess) :=
    fun n => List.replicate n (.cpu Dispatch.loneCpu)
  cpu 5 ++ List.replicate 7 .ld ++ List.replicate 6 .timer ++ [.ld, .timer] ++ cpu 9 ++
    List.replicate 5 .ld ++ List.replicate 8 .timer ++ cpu 9

/-- In the slot after that the CPU finds the process finished. -/
def finishedRun : List (Os.Action Dispatch.loneProcess) :=
  writingRun ++ List.replicate 11 .timer ++ List.replicate 3 (.cpu Dispatch.loneCpu)

end OsMem

end SimpleOs
