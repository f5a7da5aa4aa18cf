import SimpleOs.Mem.Carve

/-!
# Freeing and allocating again

`__free` pushes the region of a symbol on the free list of area 0, and `__alloc` serves a
request from there where it can. Below the bus width and for sizes that are an `int` the
two undo each other: a region that was freed is the first that the next request for no
more bytes gets, and what an allocation took off the list comes back when it is freed.
-/

namespace SimpleOs.Mem

variable {b : Build} {P : Type} [DecidableEq P]

/-- The addresses that the page table covers. -/
def Build.busSize (b : Build) : Nat := 2 ^ (b.indexBits + b.pageBits)

/-- The region lies below the bus width. -/
def Region.OnBus (rg : Region b) : Prop := rg.first ≤ b.busSize ∧ rg.last ≤ b.busSize

instance (rg : Region b) : Decidable rg.OnBus := inferInstanceAs (Decidable (_ ∧ _))

/-- A positive `int` comes back from the conversion. -/
theorem viaInt_of_lt {size : b.Word} (small : size.toNat < 2 ^ 31) : b.viaInt size = size := by
  have low : (size.setWidth 32).toNat = size.toNat := by
    rw [BitVec.toNat_setWidth]
    exact Nat.mod_eq_of_lt (small.trans (by decide))
  have sign : (size.setWidth 32).msb = false := by
    rw [BitVec.msb_eq_false_iff_two_mul_lt, low]
    omega
  rw [Build.viaInt, BitVec.signExtend_eq_setWidth_of_msb_false sign]
  apply BitVec.eq_of_toNat_eq
  rw [BitVec.toNat_setWidth, low, Nat.mod_eq_of_lt size.isLt]

/-- On either bus there is room above for a positive `int`. -/
theorem Region.OnBus.not_wraps {rg : Region b} (builds : b = .mm32 ∨ b = .mm64) (onBus : rg.OnBus)
    {size : b.Word} (small : size.toNat < 2 ^ 31) : ¬ rg.Wraps size := by
  have room : b.busSize + 2 ^ 31 ≤ 2 ^ b.width := by
    obtain rfl | rfl := builds <;> decide
  have low := onBus.1
  rw [Region.Wraps]
  omega

/-- The test of the search is exact on the bus. -/
theorem Region.OnBus.fits_iff {rg : Region b} (builds : b = .mm32 ∨ b = .mm64) (onBus : rg.OnBus)
    {size : b.Word} (small : size.toNat < 2 ^ 31) :
    rg.rgStart + size ≤ rg.rgEnd ↔ rg.Long size.toNat := by
  have value : (rg.rgStart + size).toNat = rg.first + size.toNat := by
    rw [Region.toNat_add, Nat.mod_eq_of_lt (Nat.lt_of_not_le (onBus.not_wraps builds small))]
  rw [BitVec.le_def, value]
  exact Iff.rfl

theorem Region.Long.nonempty {rg : Region b} {size : b.Word} (bytes : size ≠ 0)
    (long : rg.Long size.toNat) : rg.first < rg.last := by
  have positive : 0 < size.toNat := Nat.pos_of_ne_zero fun zero => bytes (BitVec.eq_of_toNat_eq zero)
  rw [Region.Long] at long
  omega

namespace Machine

variable {m : Machine b P} {p : P} {vma : Vma b} {r : Fin pagingMaxSymtblSz}

@[simp] theorem setMm_setMm (m : Machine b P) (p : P) (mm mm' : Mm b) :
    (m.setMm p mm).setMm p mm' = m.setMm p mm' := by
  simp [setMm]

/-- What `__free` does to a symbol, by its entry. -/
theorem free_fin (m : Machine b P) (p : P) (r : Fin pagingMaxSymtblSz) :
    m.free p (r.val : Int) =
      if (m.mm p).symrgtbl r = ⟨0, 0⟩ then some (m, -1)
      else some (m.setMm p (enlistVmFreergList
        { m.mm p with symrgtbl := Function.update (m.mm p).symrgtbl r ⟨0, 0⟩ }
        ((m.mm p).symrgtbl r)), 0) := by
  have low : ¬ ((r.val : Int) < 0 ∨ (pagingMaxSymtblSz : Int) < r.val) := by omega
  have other : (r.val : Int) ≠ pagingMaxSymtblSz := by omega
  have same : Fin.ofNat pagingMaxSymtblSz (r.val : Int).toNat = r := by
    ext
    simp
  have unused : (m.mm p).symrgtbl r = ⟨0, 0⟩ ↔
      ((m.mm p).symrgtbl r).rgStart = 0 ∧ ((m.mm p).symrgtbl r).rgEnd = 0 :=
    Region.mk.injEq _ _ 0 0 ▸ Iff.rfl
  rw [free, if_neg low, if_neg other, same]
  simp only [unused]

/-- The free list of the only area of a process and one symbol are set. -/
def setRegions (m : Machine b P) (p : P) (vma : Vma b) (rgs : List (Region b))
    (r : Fin pagingMaxSymtblSz) (rg : Region b) : Machine b P :=
  m.setMm p { m.mm p with
    mmap := [{ vma with vmFreergList := rgs }]
    symrgtbl := Function.update (m.mm p).symrgtbl r rg }

section SetRegions

variable (m : Machine b P) (p : P) (vma : Vma b) (rgs : List (Region b)) (r : Fin pagingMaxSymtblSz)
  (rg : Region b)

@[simp] theorem mmap_setRegions :
    ((m.setRegions p vma rgs r rg).mm p).mmap = [{ vma with vmFreergList := rgs }] := by
  rw [setRegions, mm_setMm_self]

@[simp] theorem symrgtbl_setRegions :
    ((m.setRegions p vma rgs r rg).mm p).symrgtbl = Function.update (m.mm p).symrgtbl r rg := by
  rw [setRegions, mm_setMm_self]

@[simp] theorem pgd_setRegions : ((m.setRegions p vma rgs r rg).mm p).pgd = (m.mm p).pgd := by
  rw [setRegions, mm_setMm_self]

end SetRegions

/-- A region with bytes in it goes to the free list of the area. -/
theorem free_of_nonempty (one : (m.mm p).mmap = [vma])
    (nonempty : ((m.mm p).symrgtbl r).first < ((m.mm p).symrgtbl r).last) :
    m.free p (r.val : Int) =
      some (m.setRegions p vma ((m.mm p).symrgtbl r :: vma.vmFreergList) r ⟨0, 0⟩, 0) := by
  have live : (m.mm p).symrgtbl r ≠ ⟨0, 0⟩ := by
    intro empty
    rw [empty] at nonempty
    exact absurd nonempty (Nat.lt_irrefl _)
  have some : ¬ ((m.mm p).symrgtbl r).rgEnd ≤ ((m.mm p).symrgtbl r).rgStart :=
    Nat.not_le.mpr nonempty
  rw [free_fin, if_neg live, enlistVmFreergList, if_neg some]
  simp only [one, setRegions]

/-- An allocation that the free list serves. -/
theorem alloc_of_fit (one : (m.mm p).mmap = [vma]) (id : vma.vmId = 0) {size : b.Word}
    (kept : b.viaInt size = size) {newrg : Region b} {rest : List (Region b)}
    (fit : fitRegion size vma.vmFreergList = some (newrg, rest))
    (low : newrg.rgStart ≠ BitVec.allOnes b.width) :
    m.alloc p 0 (r.val : Int) size = some (m.setRegions p vma rest r newrg, 0) := by
  have search := getFreeVmrgArea_of_some (getVmaByNum_low id.ge) rfl (kept.symm ▸ fit)
  rw [if_neg low] at search
  rw [alloc, one, search]
  simp only [Option.bind_eq_bind, Option.bind_some, mm_setMm_self, setSymrg_fin, setMm_setMm]
  rfl

/-- `done` differs from `m` in the free list of area 0 and in two symbols at most, of which the
second has `size` bytes from the start of what was the region of the first. -/
structure Reused (m done : Machine b P) (p : P) (vma : Vma b) (r r' : Fin pagingMaxSymtblSz)
    (size : Nat) : Prop where
  first : ((done.mm p).symrgtbl r').first = ((m.mm p).symrgtbl r).first
  last : ((done.mm p).symrgtbl r').last = ((m.mm p).symrgtbl r).first + size
  areas : ∃ rgs, (done.mm p).mmap = [{ vma with vmFreergList := rgs }]
  pgd : (done.mm p).pgd = (m.mm p).pgd
  symrgtbl : ∀ i, i ≠ r → i ≠ r' → (done.mm p).symrgtbl i = (m.mm p).symrgtbl i

/-- The region of `r` is freed, and the next request for no more bytes gets its start. -/
theorem free_then_alloc (one : (m.mm p).mmap = [vma]) (id : vma.vmId = 0) {size : b.Word}
    (bytes : size ≠ 0) (small : size.toNat < 2 ^ 31) (long : ((m.mm p).symrgtbl r).Long size.toNat)
    (r' : Fin pagingMaxSymtblSz) :
    ∃ freed done, m.free p (r.val : Int) = some (freed, 0) ∧
      freed.alloc p 0 (r'.val : Int) size = some (done, 0) ∧
      Reused m done p vma r r' size.toNat := by
  have stop := Region.toNat_add_of_long long
  have fits : ((m.mm p).symrgtbl r).rgStart + size ≤ ((m.mm p).symrgtbl r).rgEnd := by
    rw [BitVec.le_def, stop]
    exact long
  have freed := free_of_nonempty one (long.nonempty bytes)
  have pushed := mmap_setRegions m p vma ((m.mm p).symrgtbl r :: vma.vmFreergList) r ⟨0, 0⟩
  have low := long.ne_top bytes
  have served := alloc_of_fit (r := r') pushed id (viaInt_of_lt small) (fitRegion_of_fits fits _) low
  refine ⟨_, _, freed, served, ?_⟩
  constructor
  · simp [Region.first]
  · simpa [Region.last] using stop
  · simp
  · simp
  · intro i other other'
    simp [other, other']

/-- What an allocation took from the free list for `r` is back in `freed`. -/
structure Restored (freed : Machine b P) (p : P) (vma : Vma b) (r : Fin pagingMaxSymtblSz) :
    Prop where
  bytes : ∃ rgs, (freed.mm p).mmap = [{ vma with vmFreergList := rgs }] ∧
    ∀ addr, (∃ rg ∈ rgs, rg.Contains addr) ↔ ∃ rg ∈ vma.vmFreergList, rg.Contains addr
  entry : (freed.mm p).symrgtbl r = ⟨0, 0⟩
  again : freed.free p (r.val : Int) = some (freed, -1)

/-- A request that the free list serves is freed again. -/
theorem alloc_then_free (builds : b = .mm32 ∨ b = .mm64) (one : (m.mm p).mmap = [vma])
    (id : vma.vmId = 0) (onBus : ∀ rg ∈ vma.vmFreergList, rg.OnBus) {size : b.Word}
    (bytes : size ≠ 0) (small : size.toNat < 2 ^ 31) {areas : List (Vma b)} {newrg : Region b}
    (search : getFreeVmrgArea (m.mm p).mmap 0 size = some (areas, some newrg)) :
    ∃ allocated freed, m.alloc p 0 (r.val : Int) size = some (allocated, 0) ∧
      allocated.free p (r.val : Int) = some (freed, 0) ∧ Restored freed p vma r := by
  have kept := viaInt_of_lt small
  obtain ⟨none, -⟩ | ⟨before, rg, after, list, -, fits, fit⟩ := fitRegion_cases size vma.vmFreergList
  · have failed := getFreeVmrgArea_of_none (getVmaByNum_low id.ge) rfl (kept.symm ▸ none)
    rw [one, failed] at search
    cases search
  · have long : rg.Long size.toNat := ((onBus rg (by simp [list])).fits_iff builds small).mp fits
    have stop := Region.toNat_add_of_long long
    have low := long.ne_top bytes
    have allocated := alloc_of_fit (r := r) one id kept fit low
    have entry : ((m.setRegions p vma (before ++ leftover size rg after) r
        ⟨rg.rgStart, rg.rgStart + size⟩).mm p).symrgtbl r = ⟨rg.rgStart, rg.rgStart + size⟩ := by
      rw [symrgtbl_setRegions]
      exact Function.update_self ..
    have taken : (⟨rg.rgStart, rg.rgStart + size⟩ : Region b).Long size.toNat := stop.ge
    have freed := free_of_nonempty (mmap_setRegions ..) (entry.symm ▸ taken.nonempty bytes)
    refine ⟨_, _, allocated, freed, ⟨_, mmap_setRegions .., ?_⟩, ?_, ?_⟩
    · intro addr
      have total : Region.cover (before ++ leftover size rg after) addr + _ = _ :=
        cover_taken long addr
      rw [← Intervals.cover_pos_iff, ← Intervals.cover_pos_iff, list, entry, Intervals.cover_cons,
        Nat.add_comm]
      exact iff_of_eq (congrArg (0 < ·) total)
    · simp
    · rw [free_fin]
      simp

/-- For either build and every state with one area 0, regions below the bus width and sizes that
are an `int`: `__free` and `__alloc` are inverse on the free list. -/
theorem free_alloc_inverse (builds : b = .mm32 ∨ b = .mm64) (one : (m.mm p).mmap = [vma])
    (id : vma.vmId = 0) (onBus : ∀ rg ∈ vma.vmFreergList, rg.OnBus) {size : b.Word}
    (bytes : size ≠ 0) (small : size.toNat < 2 ^ 31) (r : Fin pagingMaxSymtblSz) :
    (((m.mm p).symrgtbl r).Long size.toNat → ∀ r' : Fin pagingMaxSymtblSz,
      ∃ freed done, m.free p (r.val : Int) = some (freed, 0) ∧
        freed.alloc p 0 (r'.val : Int) size = some (done, 0) ∧
        Reused m done p vma r r' size.toNat) ∧
    ((∃ areas newrg, getFreeVmrgArea (m.mm p).mmap 0 size = some (areas, some newrg)) →
      ∃ allocated freed, m.alloc p 0 (r.val : Int) size = some (allocated, 0) ∧
        allocated.free p (r.val : Int) = some (freed, 0) ∧ Restored freed p vma r) :=
  ⟨fun long r' => free_then_alloc one id bytes small long r',
    fun ⟨_, _, search⟩ => alloc_then_free builds one id onBus bytes small search⟩

/-- An area of 512 bytes, of which the second half is free. -/
def halfFree : Vma .mm32 := ⟨0, 0, 512, 512, [⟨256, 512⟩]⟩

/-- One process with that area, whose symbol 0 has the first half. -/
def halves : Machine .mm32 Unit :=
  (boot (.init .mm32 4096 true) (.init .mm32 4096 true)).setMm () { Mm.init .mm32 with
    mmap := [halfFree]
    symrgtbl := Function.update (fun _ => ⟨0, 0⟩) 0 ⟨0, 256⟩ }

theorem free_alloc_inverse_halves :
    (∃ freed done, halves.free () ((0 : Fin pagingMaxSymtblSz).val : Int) = some (freed, 0) ∧
      freed.alloc () 0 ((1 : Fin pagingMaxSymtblSz).val : Int) 100 = some (done, 0) ∧
      Reused halves done () halfFree 0 1 100) ∧
    ∃ allocated freed,
      halves.alloc () 0 ((0 : Fin pagingMaxSymtblSz).val : Int) 100 = some (allocated, 0) ∧
      allocated.free () ((0 : Fin pagingMaxSymtblSz).val : Int) = some (freed, 0) ∧
      Restored freed () halfFree 0 := by
  obtain ⟨freed, served⟩ := free_alloc_inverse (m := halves) (p := ()) (.inl rfl) rfl
    (show halfFree.vmId = 0 from rfl) (by decide)
    (show (100 : Build.mm32.Word) ≠ 0 by decide) (by decide) 0
  exact ⟨freed (by decide) 1, served ⟨_, _, rfl⟩⟩

end Machine

end SimpleOs.Mem
