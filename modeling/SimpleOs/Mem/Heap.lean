import SimpleOs.Lib.Transition
import SimpleOs.Mem.Region

/-!
# Heap regions alias

What `liballoc` and `libfree` are to keep: the live regions of a process and its
free regions do not overlap, and the live ones lie in area 0 below its break. The
break never moves, because `inc_vma_limit` works on `krnl->mm`, which is never
set, and gives up; `__alloc` ignores that and hands out the bytes from the old
break on, every time.
-/

namespace SimpleOs.Mem

variable {b : Build} {P : Type} [DecidableEq P]

namespace Region

def Nonempty (rg : Region b) : Prop := rg.rgStart < rg.rgEnd

/-- No address lies in both regions. -/
def Disjoint (rg rg' : Region b) : Prop :=
  ∀ addr : b.Word, ¬ ((rg.rgStart ≤ addr ∧ addr < rg.rgEnd) ∧ rg'.rgStart ≤ addr ∧ addr < rg'.rgEnd)

end Region

/-- The regions of a process are sound with respect to its area 0. -/
structure HeapSound (mm : Mm b) (vma : Vma b) : Prop where
  live : ∀ i j, i ≠ j → (mm.symrgtbl i).Nonempty → (mm.symrgtbl j).Nonempty →
    (mm.symrgtbl i).Disjoint (mm.symrgtbl j)
  live_free : ∀ i, (mm.symrgtbl i).Nonempty → ∀ rg ∈ vma.vmFreergList,
    (mm.symrgtbl i).Disjoint rg
  free : vma.vmFreergList.Pairwise Region.Disjoint
  inside : ∀ i, (mm.symrgtbl i).Nonempty →
    vma.vmStart ≤ (mm.symrgtbl i).rgStart ∧ (mm.symrgtbl i).rgEnd ≤ vma.sbrk

/-- Every process has an area 0 in which its regions are sound. -/
def Machine.HeapsSound (m : Machine b P) : Prop :=
  ∀ p, ∃ vma rest, (m.mm p).mmap = vma :: rest ∧ HeapSound (m.mm p) vma

inductive HeapCall (b : Build) (P : Type) where
  | liballoc (proc : P) (size : b.Word) (regIndex : Fin pagingMaxSymtblSz)
  | libfree (proc : P) (regIndex : Fin pagingMaxSymtblSz)

/-- Processes that allocate and free regions, one call at a time. -/
def heapSystem (b : Build) (P : Type) [DecidableEq P] :
    TransitionSystem (Machine b P) (HeapCall b P) where
  init m := ∃ mram activeMswp, m = .boot mram activeMswp
  step m
    | .liballoc proc size regIndex => (m.liballoc proc size (regIndex.val : Int)).map Prod.fst
    | .libfree proc regIndex => (m.libfree proc (regIndex.val : Int)).map Prod.fst

/-- The heaps are sound at the start and after every call. -/
def SoundThroughout : Machine b P → List (HeapCall b P) → Prop
  | m, [] => m.HeapsSound
  | m, call :: calls => m.HeapsSound ∧
      ∀ m', (heapSystem b P).step m call = some m' → SoundThroughout m' calls

/-- An allocation whose size is zero as an `int`. -/
def HeapCall.NoBytes : HeapCall b P → Prop
  | .liballoc _ size _ => size.toNat % 2 ^ 32 = 0
  | .libfree _ _ => True

/-- An `rgid` is only allocated while it is not live, and sizes are positive. -/
def Disciplined : List (P × Fin pagingMaxSymtblSz) → List (HeapCall b P) → Prop
  | _, [] => True
  | live, .liballoc proc size regIndex :: calls =>
      size ≠ 0 ∧ (proc, regIndex) ∉ live ∧ Disciplined ((proc, regIndex) :: live) calls
  | live, .libfree proc regIndex :: calls =>
      Disciplined (live.filter (· ≠ (proc, regIndex))) calls

/-- The regions of every process are as `init_mm` left them. -/
structure Untouched (m : Machine b P) : Prop where
  mmap : ∀ p, (m.mm p).mmap = [⟨0, 0, 0, 0, [⟨0, 0⟩]⟩]
  symrgtbl : ∀ p i, (m.mm p).symrgtbl i = ⟨0, 0⟩
  krnlMm : m.krnlMm = none

omit [DecidableEq P] in
theorem untouched_boot (mram activeMswp : Memphy b) :
    Untouched (Machine.boot mram activeMswp : Machine b P) :=
  ⟨fun _ => rfl, fun _ _ => rfl, rfl⟩

omit [DecidableEq P] in
theorem Untouched.heapsSound {m : Machine b P} (untouched : Untouched m) : m.HeapsSound := by
  have empty : ∀ p i, ¬ ((m.mm p).symrgtbl i).Nonempty := by
    intro p i
    rw [untouched.symrgtbl p i]
    exact BitVec.lt_irrefl _
  intro p
  refine ⟨_, [], untouched.mmap p, ?_, ?_, ?_, ?_⟩
  · intro i j _ live
    exact absurd live (empty p i)
  · intro i live
    exact absurd live (empty p i)
  · exact List.pairwise_singleton _ _
  · intro i live
    exact absurd live (empty p i)

theorem viaInt_eq_zero (size : b.Word) : b.viaInt size = 0 ↔ size.toNat % 2 ^ 32 = 0 := by
  have wide : ∀ v : BitVec 32, v.signExtend b.width = 0 → v = 0 := by
    intro v zero
    apply BitVec.eq_of_getLsbD_eq
    intro i below
    have bit : (v.signExtend b.width).getLsbD i = false := by
      rw [zero]
      exact BitVec.getLsbD_zero
    rw [BitVec.getLsbD_signExtend, if_pos below] at bit
    have inWord : i < b.width := below.trans_le b.wellFormed.int
    simpa [inWord] using bit
  have low : (size.setWidth 32 = 0) ↔ size.toNat % 2 ^ 32 = 0 := by
    rw [← BitVec.toNat_inj, BitVec.toNat_setWidth]
    rfl
  rw [← low]
  refine ⟨wide _, ?_⟩
  intro zero
  rw [Build.viaInt, zero]
  exact BitVec.eq_of_toNat_eq (by simp [BitVec.toNat_signExtend])

theorem viaInt_zero : b.viaInt 0 = 0 := (viaInt_eq_zero 0).mpr (by simp)

section Calls

variable {m : Machine b P} {proc : P}

theorem setSymrg_fin (mm : Mm b) (i : Fin pagingMaxSymtblSz) (rg : Region b) :
    setSymrg mm (i.val : Int) rg = some { mm with symrgtbl := Function.update mm.symrgtbl i rg } := by
  have inside : (0 : Int) ≤ i.val ∧ (i.val : Int) < pagingMaxSymtblSz := by omega
  have same : Fin.ofNat pagingMaxSymtblSz (i.val : Int).toNat = i := by
    ext
    simp
  rw [setSymrg, Build.symslot_of_inTable inside, same]

/-- First fit in one empty region serves requests for no bytes only. -/
theorem fitRegion_empty (size : b.Word) :
    fitRegion size [⟨0, 0⟩] = if size = 0 then some (⟨0, 0⟩, [⟨0, 0⟩]) else none := by
  by_cases bytes : size = 0
  · subst bytes
    simp [fitRegion]
  · have large : ¬ (0 : b.Word) + size ≤ 0 := by
      intro below
      apply bytes
      simpa using below
    rw [fitRegion, if_neg large, if_neg bytes]
    rfl

/-- The start of the empty region is not the mark of no region. -/
theorem zero_ne_allOnes (b : Build) : (0 : b.Word) ≠ BitVec.allOnes b.width := by
  intro same
  have bit := congrArg (fun v => v.getLsbD 0) same
  have positive : 0 < b.width := lt_of_lt_of_le (by decide) b.wellFormed.int
  simp [positive] at bit

theorem getFreeVmrgArea_untouched (size : b.Word) :
    getFreeVmrgArea [⟨0, 0, 0, 0, [⟨0, 0⟩]⟩] 0 size =
      some ([⟨0, 0, 0, 0, [⟨0, 0⟩]⟩], if b.viaInt size = 0 then some ⟨0, 0⟩ else none) := by
  have found : ([⟨0, 0, 0, 0, [⟨0, 0⟩]⟩] : List (Vma b))[0]?.bind (fun vma =>
      fitRegion (b.viaInt size) vma.vmFreergList) =
      if b.viaInt size = 0 then some (⟨0, 0⟩, [⟨0, 0⟩]) else none := fitRegion_empty (b.viaInt size)
  rw [getFreeVmrgArea, getVmaByNum_low le_rfl]
  dsimp only
  rw [found]
  by_cases bytes : b.viaInt size = 0
  · rw [if_pos bytes, if_pos bytes]
    exact if_neg (zero_ne_allOnes b)
  · rw [if_neg bytes, if_neg bytes]

/-- While `krnl->mm` is `NULL` the break stays, so a request for bytes gets those
from address 0 on. -/
theorem Untouched.liballoc (untouched : Untouched m) (size : b.Word)
    (i : Fin pagingMaxSymtblSz) :
    m.liballoc proc size (i.val : Int) =
      some (m.setMm proc { m.mm proc with
        symrgtbl := Function.update (m.mm proc).symrgtbl i
          (if b.viaInt size = 0 then ⟨0, 0⟩ else ⟨0, size⟩) }, 0) := by
  have mmap := untouched.mmap proc
  have search := getFreeVmrgArea_untouched size
  rw [← mmap] at search
  have same : m.setMm proc { m.mm proc with mmap := (m.mm proc).mmap } = m := m.setMm_mm proc
  have first : getVmaByNum (m.mm proc).mmap 0 = some (some 0) := by
    rw [mmap]
    exact getVmaByNum_low le_rfl
  have area : (m.mm proc).mmap[0]? = some ⟨0, 0, 0, 0, [⟨0, 0⟩]⟩ := by
    rw [mmap]
    rfl
  rw [Machine.liballoc, Machine.alloc, search]
  simp only [Option.bind_eq_bind, Option.bind_some, same]
  by_cases bytes : b.viaInt size = 0
  · rw [if_pos bytes, if_pos bytes]
    simp only [setSymrg_fin, Option.bind_some]
  · rw [if_neg bytes, if_neg bytes]
    simp only [first, Option.bind_some, area, viaInt_zero, zero_add, setSymrg_fin,
      Machine.incVmaLimit_of_unset untouched.krnlMm]

/-- There is nothing to free. -/
theorem Untouched.libfree (untouched : Untouched m) (i : Fin pagingMaxSymtblSz) :
    m.libfree proc (i.val : Int) = some (m, -1) := by
  have low : ¬ ((i.val : Int) < 0 ∨ (pagingMaxSymtblSz : Int) < i.val) := by omega
  have other : (i.val : Int) ≠ pagingMaxSymtblSz := by omega
  rw [Machine.libfree, Machine.free, if_neg low, if_neg other]
  simp only [untouched.symrgtbl, and_self, if_true]

end Calls

theorem SoundThroughout.sound {m : Machine b P} {calls : List (HeapCall b P)}
    (sound : SoundThroughout m calls) : m.HeapsSound := by
  cases calls with
  | nil => exact sound
  | cons call calls => exact sound.1

/-- A region of no bytes leaves the heap as it was. -/
theorem Untouched.symrg_empty {m : Machine b P} (untouched : Untouched m) (proc : P)
    (i : Fin pagingMaxSymtblSz) :
    Untouched (m.setMm proc { m.mm proc with
      symrgtbl := Function.update (m.mm proc).symrgtbl i ⟨0, 0⟩ }) := by
  have same : Function.update (m.mm proc).symrgtbl i ⟨0, 0⟩ = (m.mm proc).symrgtbl := by
    rw [← untouched.symrgtbl proc i]
    exact Function.update_eq_self i _
  rw [same]
  exact (m.setMm_mm proc).symm ▸ untouched

/-- A region of some bytes lies above a break of zero. -/
theorem Untouched.not_sound {m : Machine b P} (untouched : Untouched m) (proc : P)
    (i : Fin pagingMaxSymtblSz) {size : b.Word} (bytes : size ≠ 0) :
    ¬ (m.setMm proc { m.mm proc with
      symrgtbl := Function.update (m.mm proc).symrgtbl i ⟨0, size⟩ }).HeapsSound := by
  intro sound
  obtain ⟨vma, rest, areas, regions⟩ := sound proc
  have inside := regions.inside i
  rw [Machine.mm_setMm_self] at areas inside
  change (m.mm proc).mmap = vma :: rest at areas
  rw [untouched.mmap proc] at areas
  obtain ⟨rfl, -⟩ := List.cons.inj areas
  simp only [Function.update_self] at inside
  have positive : (0 : b.Word) < size := (BitVec.pos_iff_ne_zero size).mpr bytes
  exact absurd (inside positive).2 (BitVec.not_le.mpr positive)

/-- The regions stay as they were while no call asks for bytes, and the first that
does leaves a region above the break. -/
theorem soundThroughout_iff {m : Machine b P} (untouched : Untouched m)
    (calls : List (HeapCall b P)) :
    SoundThroughout m calls ↔ ∀ call ∈ calls, call.NoBytes := by
  induction calls generalizing m with
  | nil => simpa [SoundThroughout] using untouched.heapsSound
  | cons call calls ih =>
      rw [List.forall_mem_cons, SoundThroughout]
      cases call with
      | libfree proc i =>
          have step : (heapSystem b P).step m (.libfree proc i) = some m := by
            simp [heapSystem, untouched.libfree]
          simp only [step, Option.some.injEq, forall_eq', ih untouched, HeapCall.NoBytes,
            untouched.heapsSound]
      | liballoc proc size i =>
          have step : (heapSystem b P).step m (.liballoc proc size i) =
              some (m.setMm proc { m.mm proc with
                symrgtbl := Function.update (m.mm proc).symrgtbl i
                  (if b.viaInt size = 0 then ⟨0, 0⟩ else ⟨0, size⟩) }) := by
            simp [heapSystem, untouched.liballoc]
          have condition : (HeapCall.liballoc proc size i : HeapCall b P).NoBytes ↔
              b.viaInt size = 0 := (viaInt_eq_zero size).symm
          simp only [step, Option.some.injEq, forall_eq', condition, untouched.heapsSound, true_and]
          by_cases none : b.viaInt size = 0
          · simp only [none, if_true, ih (untouched.symrg_empty proc i), true_and]
          · have bytes : size ≠ 0 := by
              rintro rfl
              exact none viaInt_zero
            simp only [none, if_false, false_and, iff_false]
            exact fun sound => untouched.not_sound proc i bytes sound.sound

/-- From `init_mm` on, whatever the processes and the devices: the heaps are sound
throughout a run of calls exactly when every allocation in it has size zero as an
`int`. -/
theorem heap_sound_iff (mram activeMswp : Memphy b) (calls : List (HeapCall b P)) :
    SoundThroughout (Machine.boot mram activeMswp) calls ↔ ∀ call ∈ calls, call.NoBytes :=
  soundThroughout_iff (untouched_boot mram activeMswp) calls

theorem SoundThroughout.run {m m' : Machine b P} {calls : List (HeapCall b P)}
    (sound : SoundThroughout m calls) (run : (heapSystem b P).run m calls = some m') :
    m'.HeapsSound := by
  induction calls generalizing m with
  | nil =>
      cases run
      exact sound
  | cons call calls ih =>
      obtain ⟨next, step, rest⟩ := TransitionSystem.run_cons_eq_some.mp run
      exact ih (sound.2 next step) rest

/-- The first two lines of `m0s`. -/
def m0s : List (HeapCall .mm32 Unit) := [.liballoc () 300 0, .liballoc () 100 1]

/-- After them both regions start at address 0. -/
theorem heap_aliases : ¬ ∀ calls : List (HeapCall .mm32 Unit), Disciplined [] calls →
    SoundThroughout (Machine.boot (.init .mm32 4096 true) (.init .mm32 4096 true)) calls := by
  intro sound
  have replay : ((heapSystem .mm32 Unit).run
      (Machine.boot (.init .mm32 4096 true) (.init .mm32 4096 true)) m0s).any (fun m =>
        decide ((m.mm ()).symrgtbl 0 = ⟨0, 300⟩ ∧ (m.mm ()).symrgtbl 1 = ⟨0, 100⟩)) = true := by
    decide +kernel
  obtain ⟨m, run, regions⟩ := (Option.any_eq_true _ _).mp replay
  obtain ⟨first, second⟩ := of_decide_eq_true regions
  have disciplined : Disciplined [] m0s := ⟨by decide, by decide, by decide, by decide, trivial⟩
  obtain ⟨vma, rest, -, apart⟩ := (sound m0s disciplined).run run ()
  have live := apart.live 0 1 (by decide)
  rw [first, second] at live
  exact live (show (0 : BitVec 32) < 300 by decide) (show (0 : BitVec 32) < 100 by decide) 0
    (by decide +kernel)

end SimpleOs.Mem
