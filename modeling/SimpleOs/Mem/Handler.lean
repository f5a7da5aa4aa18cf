import SimpleOs.Mem.Syscall

/-!
# Where a system call brings the kernel down

The handler of system call 17 works on a process descriptor that has no `mm`. Each operation
is followed here into the helper it calls, with the `NULL` tests that the helper makes: whether
the handler returns, which bytes of the devices it looks at, and whether `regs->a3` has a value
afterwards. The loader sets the devices of the kernel before it passes on a process, so every
`SYSCALL` instruction finds them.
-/

namespace SimpleOs.Mem

variable {b : Build} {P : Type}

/-- `pte_set_entry` for a `caller->mm` that may be `NULL`: `mm.c` tests the pointer, `mm64.c`
does not. -/
def pteSetEntryOf (mm : Option (Mm b)) (pgn pteVal : b.Word) : Option (Option (Mm b) × Int) :=
  match mm with
  | none => if b.refuses then some (none, -1) else none
  | some mm =>
      if b.outOfTable pgn then some (some mm, -1) else some (some (mm.pteSetEntry pgn pteVal), 0)

/-- The loop of `vmap_pgd_memset` from page `pgit` on. Only `mm64.c` looks at what
`pte_set_entry` returns. The product is one of two `int`s. -/
def vmapPgdMemsetOf (addr : b.Word) : (pgit left : Nat) → Option (Mm b) →
    Option (Option (Mm b) × Int)
  | _, 0, mm => some (mm, 0)
  | pgit, left + 1, mm =>
      let offset := (BitVec.ofNat 32 pgit * BitVec.ofNat 32 b.pageSz).signExtend b.width
      match pteSetEntryOf mm (b.pagingPgn (addr + offset)) 0 with
      | none => none
      | some (mm, code) =>
          if b.refuses = false ∧ code < 0 then some (mm, -1)
          else vmapPgdMemsetOf addr (pgit + 1) left mm

/-- Without an `mm` the 32-bit build goes through all pages and sets nothing, and the other
faults at the first page. -/
theorem vmapPgdMemsetOf_null (addr : b.Word) (pgit left : Nat) :
    vmapPgdMemsetOf addr pgit left none =
      if b.refuses then some (none, 0) else if 0 < left then none else some (none, 0) := by
  induction left generalizing pgit with
  | zero => simp [vmapPgdMemsetOf]
  | succ left ih =>
      rw [vmapPgdMemsetOf, pteSetEntryOf]
      cases refuses : b.refuses with
      | false => simp
      | true => simpa [refuses] using ih (pgit + 1)

/-- What that makes of a value to go on with. -/
theorem map_vmapPgdMemsetOf_null {α : Type} (addr : b.Word) (pgnum : Int) (x : α) :
    (vmapPgdMemsetOf addr 0 pgnum.toNat none).map (fun _ => x) =
      if b.refuses then some x else if 0 < pgnum then none else some x := by
  have pages : 0 < pgnum.toNat ↔ 0 < pgnum := by omega
  rw [vmapPgdMemsetOf_null]
  simp only [pages]
  split
  · rfl
  · split <;> rfl

/-- The byte of storage that `MEMPHY_read` or `MEMPHY_write` looks at. Both make the same
tests, also where they leave the access to `MEMPHY_seq_read` or `MEMPHY_seq_write`. -/
def Memphy.touched (mp : Memphy b) (addr : b.Word) : List Nat :=
  if mp.rdmflg then if mp.maxsz ≤ addr.toNat then [] else [addr.toNat]
  else if mp.rdmflg then [addr.toNat] else []

section Touched

variable (mp : Memphy b) (addr : b.Word)

theorem Memphy.touched_eq_nil_iff_read : mp.touched addr = [] ↔ mp.read addr = none := by
  rw [touched, read, seqRead]
  split
  · split <;> simp
  · simp

theorem Memphy.touched_eq_nil_iff_write (data : Byte) :
    mp.touched addr = [] ↔ mp.write addr data = none := by
  rw [touched, write, seqWrite]
  split
  · split <;> simp
  · simp

theorem Memphy.lt_of_touched {a : Nat} (touched : a ∈ mp.touched addr) : a < mp.maxsz := by
  rw [Memphy.touched] at touched
  split at touched
  · split at touched
    next => cases touched
    next inside =>
      obtain rfl := List.mem_singleton.mp touched
      exact Nat.not_le.mp inside
  · cases touched

end Touched

/-- The bytes of a frame that `__swap_cp_page` looks at. Its loop changes neither the flag nor
the size of a device. -/
def Memphy.touchedFrame (mp : Memphy b) (fpn : b.Word) : List Nat :=
  (List.range b.pageSz).flatMap fun i => mp.touched (cell fpn i)

/-- The kernel with what `ld_routine` has set up. -/
structure Kernel (b : Build) (P : Type) where
  machine : Machine b P
  /-- Whether `krnl->mram` and `krnl->active_mswp` point to the devices. -/
  attached : Bool
  /-- The processes that were passed to `add_proc`. -/
  loaded : P → Bool

/-- What the handler of a system call leaves behind. -/
structure Outcome (b : Build) (P : Type) where
  machine : Machine b P
  ret : Int
  /-- `regs->a3`, `none` for a value that nothing has set. -/
  a3 : Option b.Word
  /-- The bytes of RAM that were looked at, and those of the swap device. -/
  ram : List Nat
  swap : List Nat

/-- A handler that only changes the machine. -/
def Outcome.plain (a3 : b.Word) (m : Machine b P) : Outcome b P := ⟨m, 0, some a3, [], []⟩

/-- `caller` of a call. -/
def UserCall.caller : UserCall b P → P
  | .mem call => call.caller
  | .libsyscall proc .. => proc

namespace Kernel

variable [DecidableEq P]

/-- `__sys_memmap`. `MEMPHY_read` and `MEMPHY_write` give up on a device that is `NULL`, and a
read that gives up leaves `value` as it is. -/
def sysMemmap (s : Kernel b P) (a1 a2 a3 : b.Word) (junk : Nat → Byte) :
    Option (Outcome b P) :=
  let m := s.machine
  let memop := a1.setWidth 32
  if memop = sysmemMapOp then
    (vmapPgdMemsetOf a2 0 (a3.setWidth 32).toInt.toNat none).map fun _ => .plain a3 m
  else if memop = sysmemIncOp then
    (m.incVmaLimit (a2.setWidth 32).toInt a3).map fun (m, _) => .plain a3 m
  else if memop = sysmemSwpOp then
    if s.attached then
      some { Outcome.plain a3 (m.mmSwapPage a2 a3 junk) with
        ram := m.mram.touchedFrame a2, swap := m.activeMswp.touchedFrame a3 }
    else some (.plain a3 m)
  else if memop = sysmemIoRead then
    if s.attached then
      some { Outcome.plain a3 m with
        a3 := (m.mram.read a2).map (BitVec.signExtend b.width), ram := m.mram.touched a2 }
    else some { Outcome.plain a3 m with a3 := none }
  else if memop = sysmemIoWrite then
    if s.attached then
      some { Outcome.plain a3 { m with mram := m.mram.store a2 (a3.setWidth 8) } with
        ram := m.mram.touched a2 }
    else some (.plain a3 m)
  else some (.plain a3 m)

/-- `syscall` -/
def syscall (s : Kernel b P) (nr : BitVec 32) (a1 a2 a3 : b.Word) (junk : Nat → Byte) :
    Option (Outcome b P) :=
  if nr = 0 then some (.plain a3 s.machine)
  else if nr = 17 then s.sysMemmap a1 a2 a3 junk
  else some (.plain a3 s.machine)

/-- The handler returns, it has looked at bytes of the devices only, and `regs` is defined. -/
def Safe (s : Kernel b P) (nr : BitVec 32) (a1 a2 a3 : b.Word) (junk : Nat → Byte) : Prop :=
  ∃ o, s.syscall nr a1 a2 a3 junk = some o ∧ (∀ a ∈ o.ram, a < s.machine.mram.maxsz) ∧
    (∀ a ∈ o.swap, a < s.machine.activeMswp.maxsz) ∧ o.a3 ≠ none

/-- The calls that go wrong: in the MM64 build to initialise the entries of at least one page,
and to read where RAM has ended. -/
def Crashes (s : Kernel b P) (nr : BitVec 32) (a1 a2 a3 : b.Word) : Prop :=
  nr = 17 ∧ (a1.setWidth 32 = sysmemMapOp ∧ b.refuses = false ∧ 0 < (a3.setWidth 32).toInt ∨
    a1.setWidth 32 = sysmemIoRead ∧ s.machine.mram.maxsz ≤ a2.toNat)

instance (s : Kernel b P) (nr : BitVec 32) (a1 a2 a3 : b.Word) :
    Decidable (s.Crashes nr a1 a2 a3) := inferInstanceAs (Decidable (_ ∧ (_ ∨ _)))

inductive Event (b : Build) (P : Type) where
  /-- A round of `ld_routine`. -/
  | ld (proc : P)
  | user (call : UserCall b P)

/-- After `init_memphy`, before the threads start. -/
def start (b : Build) (P : Type) (memramsz memswpsz : Nat) : Kernel b P where
  machine := .boot (.init b memramsz true) (.init b memswpsz true)
  attached := false
  loaded := fun _ => false

/-- The loader, and the memory instructions of the processes that it has loaded. -/
def system (b : Build) (P : Type) [DecidableEq P] : TransitionSystem (Kernel b P) (Event b P) where
  init s := ∃ memramsz memswpsz, s = start b P memramsz memswpsz
  step s
    | .ld proc =>
        if s.loaded proc then none
        else some ⟨s.machine.setMm proc (.init b), true, Function.update s.loaded proc true⟩
    | .user call =>
        if s.loaded call.caller then
          ((userSystem b P).step s.machine call).map fun m => { s with machine := m }
        else none

section Calls

variable {s : Kernel b P} {nr : BitVec 32} {a1 a2 a3 : b.Word} {junk : Nat → Byte}

/-- With devices this is `syscall` as before, looked at more closely. -/
theorem syscall_forget (attached : s.attached = true) :
    (s.syscall nr a1 a2 a3 junk).map (fun o => (o.machine, o.ret)) =
      s.machine.syscall nr a1 a2 a3 junk := by
  have memmap : (s.sysMemmap a1 a2 a3 junk).map (fun o => (o.machine, o.ret)) =
      s.machine.sysMemmap a1 a2 a3 junk := by
    simp only [sysMemmap, Machine.sysMemmap, map_vmapPgdMemsetOf_null, Machine.vmapPgdMemset,
      attached, if_true]
    split
    next =>
      split
      next => rfl
      next => split <;> rfl
    next =>
    split
    next =>
      rw [Option.map_map]
      rfl
    next =>
    split
    next => rfl
    next =>
    split
    next => rfl
    next => split <;> rfl
  rw [syscall, Machine.syscall, ← memmap]
  split
  next => rfl
  next => split <;> rfl

/-- The handler of an operation that comes to an end is safe if what it leaves is. -/
theorem safe_iff_of_eq {o : Outcome b P} (handled : s.syscall nr a1 a2 a3 junk = some o)
    (ram : ∀ a ∈ o.ram, a < s.machine.mram.maxsz)
    (swap : ∀ a ∈ o.swap, a < s.machine.activeMswp.maxsz) :
    s.Safe nr a1 a2 a3 junk ↔ o.a3 ≠ none := by
  constructor
  · rintro ⟨o', result, -, -, defined⟩
    obtain rfl := Option.some.inj (handled.symm.trans result)
    exact defined
  · exact fun defined => ⟨o, handled, ram, swap, defined⟩

theorem safe_of_plain {m : Machine b P} (handled : s.syscall nr a1 a2 a3 junk = some (.plain a3 m)) :
    s.Safe nr a1 a2 a3 junk :=
  (safe_iff_of_eq handled (List.forall_mem_nil _) (List.forall_mem_nil _)).mpr
    (Option.some_ne_none a3)

omit [DecidableEq P] in
theorem lt_of_touchedFrame {mp : Memphy b} {fpn : b.Word} :
    ∀ a ∈ mp.touchedFrame fpn, a < mp.maxsz := by
  intro a touched
  obtain ⟨i, -, touched⟩ := List.mem_flatMap.mp touched
  exact mp.lt_of_touched _ touched

/-- Operation by operation. -/
theorem safe_iff (attached : s.attached = true) (unset : s.machine.krnlMm = none)
    (random : s.machine.mram.rdmflg = true) :
    s.Safe nr a1 a2 a3 junk ↔ ¬ s.Crashes nr a1 a2 a3 := by
  by_cases memmap : nr = 17
  · subst memmap
    have served : s.syscall 17 a1 a2 a3 junk = s.sysMemmap a1 a2 a3 junk := rfl
    rw [sysMemmap] at served
    simp only [map_vmapPgdMemsetOf_null, Machine.incVmaLimit_of_unset unset, attached, if_true,
      Option.map_some] at served
    have crashes (op) (memop : a1.setWidth 32 = op) : s.Crashes 17 a1 a2 a3 ↔
        op = sysmemMapOp ∧ b.refuses = false ∧ 0 < (a3.setWidth 32).toInt ∨
          op = sysmemIoRead ∧ s.machine.mram.maxsz ≤ a2.toNat := by
      simp [Crashes, memop]
    split at served
    next mapOp =>
      rw [crashes _ mapOp]
      by_cases fault : b.refuses = false ∧ 0 < (a3.setWidth 32).toInt
      · rw [fault.1, if_neg (by decide), if_pos fault.2] at served
        refine iff_of_false ?_ fun safe => safe (.inl ⟨rfl, fault⟩)
        rintro ⟨o, result, -⟩
        cases served.symm.trans result
      · refine iff_of_true (safe_of_plain (m := s.machine) (served.trans ?_)) ?_
        · cases refuses : b.refuses with
          | true => rfl
          | false => exact if_neg fun pages => fault ⟨refuses, pages⟩
        · rintro (⟨-, reached⟩ | ⟨other, -⟩)
          · exact fault reached
          · exact absurd other (by decide)
    next notMap =>
    split at served
    next incOp =>
      rw [crashes _ incOp]
      exact iff_of_true (safe_of_plain served) (by simp [sysmemIncOp, sysmemMapOp, sysmemIoRead])
    next =>
    split at served
    next swpOp =>
      rw [crashes _ swpOp, safe_iff_of_eq served lt_of_touchedFrame lt_of_touchedFrame]
      exact iff_of_true (Option.some_ne_none a3) (by simp [sysmemSwpOp, sysmemMapOp, sysmemIoRead])
    next =>
    split at served
    next ioRead =>
      rw [crashes _ ioRead, safe_iff_of_eq served (fun _ => s.machine.mram.lt_of_touched a2)
        (List.forall_mem_nil _)]
      have inside := Memphy.read_ne_none random a2
      simp only [Option.map_eq_none_iff, ne_eq] at inside ⊢
      rw [inside]
      simp [sysmemMapOp, sysmemIoRead]
    next notRead =>
    have fine : ¬ s.Crashes 17 a1 a2 a3 := by
      rw [crashes _ rfl]
      exact fun crash => crash.elim (fun map => notMap map.1) fun read => notRead read.1
    split at served
    next ioWrite =>
      rw [safe_iff_of_eq served (fun _ => s.machine.mram.lt_of_touched a2)
        (List.forall_mem_nil _)]
      exact iff_of_true (Option.some_ne_none a3) fine
    next => exact iff_of_true (safe_of_plain served) fine
  · have ignored : s.syscall nr a1 a2 a3 junk = some (.plain a3 s.machine) := by
      rw [syscall, if_neg memmap, ite_self]
    exact iff_of_true (safe_of_plain ignored) fun crashes => memmap crashes.1

end Calls

/-- A process was loaded only after the devices were set, and they are read at random. -/
structure Ready (s : Kernel b P) : Prop where
  attached : ∀ p, s.loaded p = true → s.attached = true
  krnlMm : s.machine.krnlMm = none
  ramRdm : s.machine.mram.rdmflg = true

omit [DecidableEq P] in
theorem ready_start (memramsz memswpsz : Nat) : (start b P memramsz memswpsz).Ready :=
  ⟨fun _ loaded => absurd loaded Bool.false_ne_true, rfl, rfl⟩

theorem Ready.step {s t : Kernel b P} {event : Event b P} (ready : s.Ready)
    (step : (system b P).step s event = some t) : t.Ready := by
  cases event with
  | ld proc =>
      obtain ⟨-, after⟩ := Option.ite_none_left_eq_some.mp step
      obtain rfl := Option.some.inj after
      exact ⟨fun _ _ => rfl, ready.krnlMm, ready.ramRdm⟩
  | user call =>
      obtain ⟨-, stepped⟩ := Option.ite_none_right_eq_some.mp step
      obtain ⟨m, called, rfl⟩ := Option.map_eq_some_iff.mp stepped
      have kinds := kinds_userSystem ready.krnlMm called
      have random : m.mram.rdmflg = s.machine.mram.rdmflg :=
        congrArg (fun kinds => kinds.1.1) kinds
      exact ⟨ready.attached, krnlMm_userSystem ready.krnlMm called, random.trans ready.ramRdm⟩

theorem ready_of_reachable {s : Kernel b P} (reachable : (system b P).Reachable s) : s.Ready := by
  refine reachable.invariant ?_ fun _ _ _ _ ready step => ready.step step
  rintro _ ⟨memramsz, memswpsz, rfl⟩
  exact ready_start memramsz memswpsz

/-- A `SYSCALL` instruction of a loaded process is safe exactly if it neither asks the MM64 build
to initialise entries nor reads where RAM has ended. -/
theorem syscall_safe_iff {s : Kernel b P} (reachable : (system b P).Reachable s) {p : P}
    (loaded : s.loaded p = true) (nr : BitVec 32) (a1 a2 a3 : b.Word) (junk : Nat → Byte) :
    s.Safe nr a1 a2 a3 junk ↔ ¬ s.Crashes nr a1 a2 a3 := by
  have ready := ready_of_reachable reachable
  exact safe_iff (ready.attached p loaded) ready.krnlMm ready.ramRdm

/-- The kernel after the loader has passed on one process. -/
def oneLoaded (b : Build) : Kernel b Unit :=
  ⟨(start b Unit 512 512).machine.setMm () (.init b), true,
    Function.update (fun _ => false) () true⟩

theorem reachable_oneLoaded (b : Build) : (system b Unit).Reachable (oneLoaded b) :=
  .step (a := .ld ()) (.init ⟨512, 512, rfl⟩) rfl

theorem syscall_safe_read : (oneLoaded .mm32).Safe 17 4 0 0 fun _ => 0 :=
  (syscall_safe_iff (reachable_oneLoaded .mm32) (p := ()) rfl 17 4 0 0 _).mpr (by decide)

/-- In the MM64 build `SYSCALL 17 1 0 1` looks into a `NULL` page table. -/
theorem memset_crashes : ¬ ∀ (s : Kernel .mm64 Unit) (p : Unit), (system .mm64 Unit).Reachable s →
    s.loaded p = true → ∀ (nr : BitVec 32) (a1 a2 a3 : Build.mm64.Word),
      s.Safe nr a1 a2 a3 fun _ => 0 := by
  intro all
  obtain ⟨o, handled, -⟩ := all (oneLoaded .mm64) () (reachable_oneLoaded .mm64) rfl 17 1 0 1
  have fault : (oneLoaded .mm64).syscall 17 1 0 1 (fun _ => 0) = none := rfl
  rw [fault] at handled
  cases handled

end Kernel

end SimpleOs.Mem
