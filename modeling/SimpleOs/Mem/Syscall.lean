import SimpleOs.Mem.Coherence
import SimpleOs.Mem.Fault

/-!
# System calls of user programs

`libsyscall` hands three raw arguments to the kernel, which trusts them: system
call 17 reads and writes RAM at physical addresses and copies frames by number,
for whoever asks. A process sees the call of another one exactly where that call
writes a byte of RAM behind one of its pages.
-/

namespace SimpleOs.Mem

variable {b : Build} {P : Type}

/-- `SYSMEM_MAP_OP` -/
def sysmemMapOp : BitVec 32 := 1

/-- `SYSMEM_INC_OP` -/
def sysmemIncOp : BitVec 32 := 2

/-- `SYSMEM_SWP_OP` -/
def sysmemSwpOp : BitVec 32 := 3

/-- `SYSMEM_IO_READ` -/
def sysmemIoRead : BitVec 32 := 4

/-- `SYSMEM_IO_WRITE` -/
def sysmemIoWrite : BitVec 32 := 5

namespace Machine

section Calls

variable [DecidableEq P]

/-- `vmap_pgd_memset` for a caller whose `mm` is `NULL`: `mm.c` sets no entry, `mm64.c`
looks into the `NULL` for the first page. -/
def vmapPgdMemset (m : Machine b P) (pgnum : Int) : Option (Machine b P) :=
  if b.refuses then some m else if 0 < pgnum then none else some m

/-- `__sys_memmap` with its return value. It works on a process descriptor of its own,
which has no `mm`. -/
def sysMemmap (m : Machine b P) (a1 a2 a3 : b.Word) (junk : Nat → Byte) :
    Option (Machine b P × Int) :=
  let memop := a1.setWidth 32
  if memop = sysmemMapOp then (m.vmapPgdMemset (a3.setWidth 32).toInt).map fun m => (m, 0)
  else if memop = sysmemIncOp then
    (m.incVmaLimit (a2.setWidth 32).toInt a3).map fun (m, _) => (m, 0)
  else if memop = sysmemSwpOp then some (m.mmSwapPage a2 a3 junk, 0)
  else if memop = sysmemIoRead then some (m, 0)
  else if memop = sysmemIoWrite then
    some ({ m with mram := m.mram.store a2 (a3.setWidth 8) }, 0)
  else some (m, 0)

/-- `syscall`: the table has `listsyscall` and `memmap`, the other numbers go to
`__sys_ni_syscall`. -/
def syscall (m : Machine b P) (nr : BitVec 32) (a1 a2 a3 : b.Word) (junk : Nat → Byte) :
    Option (Machine b P × Int) :=
  if nr = 0 then some (m, 0)
  else if nr = 17 then m.sysMemmap a1 a2 a3 junk
  else some (m, 0)

/-- `libsyscall`, as `run` calls it for a `SYSCALL` instruction. The kernel never looks
at the process. -/
def libsyscall (m : Machine b P) (_caller : P) (syscallIdx : BitVec 32) (a1 a2 a3 : b.Word)
    (junk : Nat → Byte) : Option (Machine b P × Int) := m.syscall syscallIdx a1 a2 a3 junk

end Calls

/-- `pg_setval` writes through the same entry point. -/
theorem sysMemmap_ioWrite [DecidableEq P] (m : Machine b P) (phyaddr : b.Word) (value : Byte)
    (junk : Nat → Byte) :
    m.sysMemmap (sysmemIoWrite.setWidth b.width) phyaddr (value.signExtend b.width) junk =
      some (m.ioWrite phyaddr value, 0) := by
  have memop : (sysmemIoWrite.setWidth b.width).setWidth 32 = sysmemIoWrite := by
    rw [BitVec.setWidth_setWidth_of_le _ b.wellFormed.int]
    exact BitVec.setWidth_eq _
  rw [sysMemmap]
  simp only [memop]
  rfl

section Cases

variable [DecidableEq P] {m m' : Machine b P} {caller : P} {nr : BitVec 32} {a1 a2 a3 : b.Word}
  {junk : Nat → Byte} {ret : Int}

/-- What a system call can do: nothing, or copy a frame to swap, or write one byte of RAM. -/
inductive SyscallEffect (m : Machine b P) (nr : BitVec 32) (a1 a2 a3 : b.Word)
    (junk : Nat → Byte) : Machine b P → Prop
  | nothing : ¬ (nr = 17 ∧ a1.setWidth 32 = sysmemIoWrite) → SyscallEffect m nr a1 a2 a3 junk m
  | swpOp : ¬ (nr = 17 ∧ a1.setWidth 32 = sysmemIoWrite) →
      SyscallEffect m nr a1 a2 a3 junk (m.mmSwapPage a2 a3 junk)
  | ioWrite : nr = 17 → a1.setWidth 32 = sysmemIoWrite →
      SyscallEffect m nr a1 a2 a3 junk { m with mram := m.mram.store a2 (a3.setWidth 8) }

theorem sysMemmap_effect (unset : m.krnlMm = none)
    (done : m.sysMemmap a1 a2 a3 junk = some (m', ret)) :
    SyscallEffect m 17 a1 a2 a3 junk m' := by
  have notWrite : ∀ {op}, a1.setWidth 32 = op → op ≠ sysmemIoWrite →
      ¬ ((17 : BitVec 32) = 17 ∧ a1.setWidth 32 = sysmemIoWrite) := by
    rintro _ rfl other ⟨-, write⟩
    exact other write
  rw [sysMemmap] at done
  dsimp only at done
  split at done
  next memop =>
    obtain ⟨after, filled, same⟩ := Option.map_eq_some_iff.mp done
    obtain ⟨rfl, -⟩ := Prod.mk.inj same
    rw [vmapPgdMemset] at filled
    have unchanged : after = m := by
      split at filled
      · exact (Option.some.inj filled).symm
      · split at filled
        · cases filled
        · exact (Option.some.inj filled).symm
    rw [unchanged]
    exact .nothing (notWrite memop (by decide))
  next =>
  split at done
  next memop =>
    rw [incVmaLimit_of_unset unset] at done
    obtain ⟨rfl, -⟩ := Prod.mk.inj (Option.some.inj done)
    exact .nothing (notWrite memop (by decide))
  next =>
  split at done
  next memop =>
    obtain ⟨rfl, -⟩ := Prod.mk.inj (Option.some.inj done)
    exact .swpOp (notWrite memop (by decide))
  next =>
  split at done
  next memop =>
    obtain ⟨rfl, -⟩ := Prod.mk.inj (Option.some.inj done)
    exact .nothing (notWrite memop (by decide))
  next =>
  split at done
  next memop =>
    obtain ⟨rfl, -⟩ := Prod.mk.inj (Option.some.inj done)
    exact .ioWrite rfl memop
  next other =>
    obtain ⟨rfl, -⟩ := Prod.mk.inj (Option.some.inj done)
    exact .nothing fun write => other write.2

theorem libsyscall_effect (unset : m.krnlMm = none)
    (done : m.libsyscall caller nr a1 a2 a3 junk = some (m', ret)) :
    SyscallEffect m nr a1 a2 a3 junk m' := by
  rw [libsyscall, syscall] at done
  split at done
  next listsyscall =>
    obtain ⟨rfl, -⟩ := Prod.mk.inj (Option.some.inj done)
    refine .nothing fun write => ?_
    rw [listsyscall] at write
    exact absurd write.1 (by decide)
  next =>
  split at done
  next memmap =>
    rw [memmap]
    exact sysMemmap_effect unset done
  next other =>
    obtain ⟨rfl, -⟩ := Prod.mk.inj (Option.some.inj done)
    exact .nothing fun write => other write.1

end Cases

/-- The machines agree on everything but bytes. -/
structure SameShape (m m' : Machine b P) : Prop where
  mm : m'.mm = m.mm
  ramFree : m'.mram.freeFpList = m.mram.freeFpList
  swapFree : m'.activeMswp.freeFpList = m.activeMswp.freeFpList
  kinds : m'.kinds = m.kinds
  krnlMm : m'.krnlMm = m.krnlMm

variable {m m' : Machine b P} {nr : BitVec 32} {a1 a2 a3 : b.Word} {junk : Nat → Byte}

theorem SyscallEffect.sameShape (effect : SyscallEffect m nr a1 a2 a3 junk m') :
    SameShape m m' := by
  cases effect with
  | nothing => exact ⟨rfl, rfl, rfl, rfl, rfl⟩
  | swpOp =>
      refine ⟨rfl, rfl, m.activeMswp.freeFpList_swapCpPage m.mram a2 a3 junk, ?_, rfl⟩
      exact Prod.ext rfl (m.activeMswp.kind_swapCpPage m.mram a2 a3 junk)
  | ioWrite =>
      exact ⟨rfl, m.mram.freeFpList_store _ _, rfl, Prod.ext (m.mram.kind_store _ _) rfl, rfl⟩

namespace SameShape

theorem kept [Fintype P] {n k : Nat} (same : SameShape m m') (kept : Kept n k m) : Kept n k m' := by
  refine ⟨kept.ram.congr same.ramFree ?_ ?_, ?_, same.krnlMm.trans kept.krnlMm⟩
  · intro p
    rw [same.mm]
  · intro p
    rw [same.mm]
  · rw [SwapKept, same.swapFree]
    exact kept.swap.congr fun p => by rw [same.mm]

/-- Which frame a fault gets does not depend on bytes. -/
theorem takeFrame [DecidableEq P] (same : SameShape m m') (p : P) :
    (m'.takeFrame p junk).map Prod.snd = (m.takeFrame p junk).map Prod.snd := by
  rw [Machine.takeFrame, Machine.takeFrame, Memphy.getFreefp, Memphy.getFreefp, same.ramFree]
  cases m.mram.freeFpList with
  | cons fpn rest => simp only [Option.map_some]
  | nil =>
      simp only [swapOut, same.mm]
      cases findVictimPage (m.mm p).fifoPgn with
      | none => simp only [Option.map_none]
      | some found =>
          cases found with
          | none => simp only [Option.map_some]
          | some victim =>
              simp only [activeMswp_setMm, Memphy.getFreefp, same.swapFree, mm_setMm_self]
              cases m.activeMswp.freeFpList with
              | nil => simp only [Option.map_some]
              | cons swpfpn rest => simp only [Option.map_some]

end SameShape

section Getval

variable [DecidableEq P] {p : P} {addr : b.Word}

/-- The physical address at which `pg_getval` reads a page that is present. -/
def presentAddr (m : Machine b P) (p : P) (addr : b.Word) : b.Word :=
  phyaddr (b.pagingFpn ((m.mm p).pteGetEntry (b.pagingPgn addr))) (b.pagingOffst addr)

variable [Fintype P] {n k : Nat} (ramFits : n ≤ b.frames) (swapFits : k ≤ b.swapFrames)

include ramFits swapFits

omit [DecidableEq P] [Fintype P] ramFits swapFits in
/-- What RAM reads as after a byte was written to it. -/
theorem read_store (mp : Memphy b) (rdm : mp.rdmflg = true) (at' x : b.Word) (data : Byte) :
    (mp.store at' data).read x =
      if x = at' ∧ at'.toNat < mp.maxsz then some data else mp.read x := by
  have kind := Prod.mk.inj (mp.kind_store at' data)
  have random : (mp.store at' data).rdmflg = true := kind.1.trans rdm
  rw [Memphy.read, Memphy.read, if_pos random, if_pos rdm, kind.2]
  by_cases onDevice : at'.toNat < mp.maxsz
  · rw [Memphy.storage_store rdm onDevice, Function.update_apply]
    by_cases here : x = at'
    · subst here
      simp [onDevice]
    · have apart : x.toNat ≠ at'.toNat := fun same => here (BitVec.eq_of_toNat_eq same)
      simp [here, apart]
  · have unchanged : mp.store at' data = mp := by
      rw [Memphy.store, Memphy.write, if_pos rdm, if_pos (Nat.not_lt.mp onDevice)]
      rfl
    simp [unchanged, onDevice]

end Getval

end Machine

inductive UserCall (b : Build) (P : Type) where
  | mem (call : MemCall b P)
  | libsyscall (proc : P) (syscallIdx : BitVec 32) (a1 a2 a3 : b.Word) (junk : Nat → Byte)

/-- The memory instructions of user programs, `SYSCALL` included. -/
def userSystem (b : Build) (P : Type) [DecidableEq P] :
    TransitionSystem (Machine b P) (UserCall b P) where
  init m := ∃ mram activeMswp, m = .boot mram activeMswp
  step m
    | .mem call => (memSystem b P).step m call
    | .libsyscall proc syscallIdx a1 a2 a3 junk =>
        (m.libsyscall proc syscallIdx a1 a2 a3 junk).map Prod.fst

section Runs

open Machine

variable [Fintype P] [DecidableEq P] {m m' : Machine b P}

omit [Fintype P] in
/-- User programs leave the sizes of the devices and how they are accessed. -/
theorem kinds_userSystem (unset : m.krnlMm = none)
    {call : UserCall b P} (step : (userSystem b P).step m call = some m') : m'.kinds = m.kinds := by
  cases call with
  | mem call => exact (Beside.step unset step).kinds
  | libsyscall proc syscallIdx a1 a2 a3 junk =>
      obtain ⟨⟨_, ret⟩, done, rfl⟩ := Option.map_eq_some_iff.mp step
      exact (libsyscall_effect unset done).sameShape.kinds

omit [Fintype P] in
theorem krnlMm_userSystem (unset : m.krnlMm = none)
    {call : UserCall b P} (step : (userSystem b P).step m call = some m') : m'.krnlMm = none := by
  cases call with
  | mem call => exact (Beside.step unset step).krnlMm.trans unset
  | libsyscall proc syscallIdx a1 a2 a3 junk =>
      obtain ⟨⟨_, ret⟩, done, rfl⟩ := Option.map_eq_some_iff.mp step
      exact (libsyscall_effect unset done).sameShape.krnlMm.trans unset

/-- Process `false` has written a byte to its first page. -/
def oneByte : List (UserCall .mm32 Bool) :=
  [.mem (.liballoc false 256 0), .mem (.libwrite false 7 0 0 0 fun _ => 0)]

end Runs

end SimpleOs.Mem
