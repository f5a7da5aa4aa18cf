import SimpleOs.Mem.Machine

/-!
# Allocating and freeing regions

`__alloc` and `__free` of `libmem.c` with the path of `__alloc` through system
call 17 into `inc_vma_limit`, whose result `__alloc` drops.
-/

namespace SimpleOs.Mem

variable {b : Build}

/-- An `addr_t` passed as an `int` and used as an `addr_t` again. -/
def Build.viaInt (b : Build) (value : b.Word) : b.Word :=
  (value.setWidth 32).signExtend b.width

/-- `PAGING_PAGE_ALIGNSZ` -/
def Build.pageAlignsz (b : Build) (sz : b.Word) : b.Word :=
  (sz + word b b.pageSz - 1) / word b b.pageSz * word b b.pageSz

/-- The loop of `get_free_vmrg_area`: first fit. A region that fits exactly is
overwritten by its successor, or becomes empty where it has none. -/
def fitRegion (size : b.Word) : List (Region b) → Option (Region b × List (Region b))
  | [] => none
  | rg :: rest =>
      if rg.rgStart + size ≤ rg.rgEnd then
        let newrg : Region b := ⟨rg.rgStart, rg.rgStart + size⟩
        if rg.rgStart + size < rg.rgEnd then
          some (newrg, ⟨rg.rgStart + size, rg.rgEnd⟩ :: rest)
        else
          match rest with
          | next :: rest => some (newrg, next :: rest)
          | [] => some (newrg, [⟨rg.rgEnd, rg.rgEnd⟩])
      else (fitRegion size rest).map fun (newrg, rest) => (newrg, rg :: rest)

/-- `get_vma_by_num`: `NULL` where there is no area at all, a fault where the walk
runs off the list, else the place of the area. -/
def getVmaByNum (mmap : List (Vma b)) (vmaid : Int) : Option (Option Nat) :=
  match mmap with
  | [] => some none
  | _ => (mmap.findIdx? fun vma => decide (vmaid ≤ vma.vmId)).map some

section Number

variable {mmap : List (Vma b)} {vmaid : Int} {i : Nat}

theorem getVmaByNum_eq_none :
    getVmaByNum mmap vmaid = none ↔ mmap ≠ [] ∧ ∀ vma ∈ mmap, vma.vmId < vmaid := by
  cases mmap with
  | nil => simp [getVmaByNum]
  | cons first rest => simp [getVmaByNum, List.findIdx?_eq_none_iff]

theorem getVmaByNum_eq_null : getVmaByNum mmap vmaid = some none ↔ mmap = [] := by
  cases mmap with
  | nil => simp [getVmaByNum]
  | cons first rest => simp [getVmaByNum]

theorem getElem?_of_getVmaByNum (found : getVmaByNum mmap vmaid = some (some i)) :
    ∃ area, mmap[i]? = some area := by
  cases mmap with
  | nil => cases Option.some.inj found
  | cons first rest =>
      obtain ⟨j, here, same⟩ := Option.map_eq_some_iff.mp found
      obtain ⟨low, -⟩ := List.findIdx?_eq_some_iff_getElem.mp here
      obtain rfl := Option.some.inj same
      exact ⟨_, List.getElem?_eq_getElem low⟩

/-- A single area is found by its number and by every lower one. -/
theorem getVmaByNum_low {vma : Vma b} (low : vmaid ≤ vma.vmId) :
    getVmaByNum [vma] vmaid = some (some 0) := by
  simp [getVmaByNum, low]

end Number

/-- `enlist_vm_freerg_list` -/
def enlistVmFreergList (mm : Mm b) (rg : Region b) : Mm b :=
  if rg.rgEnd ≤ rg.rgStart then mm
  else
    match mm.mmap with
    | [] => mm
    | vma :: rest =>
        { mm with mmap := { vma with vmFreergList := rg :: vma.vmFreergList } :: rest }

section Enlist

variable (mm : Mm b) (rg : Region b)

@[simp] theorem pgd_enlistVmFreergList : (enlistVmFreergList mm rg).pgd = mm.pgd := by
  rw [enlistVmFreergList]
  split
  · rfl
  · split <;> rfl

@[simp] theorem fifoPgn_enlistVmFreergList : (enlistVmFreergList mm rg).fifoPgn = mm.fifoPgn := by
  rw [enlistVmFreergList]
  split
  · rfl
  · split <;> rfl

end Enlist

/-- `get_free_vmrg_area`: the areas after the search, and the region found. -/
def getFreeVmrgArea (mmap : List (Vma b)) (vmaid : Int) (size : b.Word) :
    Option (List (Vma b) × Option (Region b)) :=
  match getVmaByNum mmap vmaid with
  | none => none
  | some none => some (mmap, none)
  | some (some i) =>
      match mmap[i]?.bind fun vma => fitRegion (b.viaInt size) vma.vmFreergList with
      | none => some (mmap, none)
      | some (newrg, rest) =>
          let mmap := mmap.modify i fun vma => { vma with vmFreergList := rest }
          -- the region found is told from no region by its start
          if newrg.rgStart = BitVec.allOnes b.width then some (mmap, none)
          else some (mmap, some newrg)

/-- What lies at `symrgtbl[rgid]` in `mm_struct`. -/
inductive Symslot where
  | entry (i : Fin pagingMaxSymtblSz)
  | fifoPgn
  | unused
  | pgd
  | outside
  deriving DecidableEq

/-- `fifo_pgn` follows the table: it is entry 30 of the 32-bit build. Before the table and `mmap`
lies `pgd`, entry -1 of the 32-bit build. In the MM64 build entry -1 is `pmd` and `pt`, which
nothing reads, and entry -2 is `pgd` and `p4d`. -/
def Build.symslot (b : Build) (rgid : Int) : Symslot :=
  if 0 ≤ rgid ∧ rgid < pagingMaxSymtblSz then .entry (Fin.ofNat _ rgid.toNat)
  else if b.width = 32 then
    if rgid = pagingMaxSymtblSz then .fifoPgn
    else if rgid = -1 then .pgd
    else .outside
  else if rgid = -1 then .unused
  else if rgid = -2 then .pgd
  else .outside

theorem Build.symslot_of_inTable {rgid : Int} (inTable : 0 ≤ rgid ∧ rgid < pagingMaxSymtblSz) :
    b.symslot rgid = .entry (Fin.ofNat _ rgid.toNat) := by
  rw [symslot, if_pos inTable]

/-- Store the bounds of a region in `symrgtbl[rgid]`, which `__alloc` indexes unchecked. The
run ends where that loses the page table or leaves the structure. -/
def setSymrg (mm : Mm b) (rgid : Int) (rg : Region b) : Option (Mm b) :=
  match b.symslot rgid with
  | .entry i => some { mm with symrgtbl := Function.update mm.symrgtbl i rg }
  | .fifoPgn => some { mm with fifoPgn := ⟨[], decide (rg.rgStart ≠ 0 ∨ rg.rgEnd ≠ 0)⟩ }
  | .unused => some mm
  | .pgd => none
  | .outside => none

/-- `setSymrg` enters a region, or overwrites the FIFO list, which then lists nothing. -/
theorem setSymrg_cases {mm mm' : Mm b} {rgid : Int} {rg : Region b}
    (done : setSymrg mm rgid rg = some mm') :
    (∃ symrgtbl, mm' = { mm with symrgtbl := symrgtbl }) ∨
      ∃ wild, mm' = { mm with fifoPgn := ⟨[], wild⟩ } := by
  rw [setSymrg] at done
  split at done
  next => exact .inl ⟨_, (Option.some.inj done).symm⟩
  next => exact .inr ⟨_, (Option.some.inj done).symm⟩
  next => exact .inl ⟨mm.symrgtbl, (Option.some.inj done).symm⟩
  next => cases done
  next => cases done

namespace Machine

variable {P : Type} [DecidableEq P]

/-- `validate_overlap_vm_area` for the area at place `cur` -/
def validateOverlapVmArea (mmap : List (Vma b)) (cur : Nat) : Int :=
  match mmap[cur]? with
  | none => -1
  | some area =>
      if area.vmEnd ≤ area.vmStart then -1
      else if mmap.zipIdx.any fun (vma, i) =>
          i != cur && decide (area.vmStart < vma.vmEnd ∧ vma.vmStart < area.vmEnd) then -1
      else 0

/-- `vm_map_ram` as reached from a system call, where `caller->mm` is `NULL`. The
MM64 build maps nothing. In the 32-bit build frames that are short are lost, and
frames that suffice are put on a list through that `NULL`. -/
def vmMapRam (m : Machine b P) (incpgnum : Nat) : Option (Machine b P) :=
  if b.refuses then
    if incpgnum = 0 then some m
    else if incpgnum ≤ m.mram.freeFpList.length then none
    else some { m with mram := { m.mram with freeFpList := [] } }
  else some m

/-- `inc_vma_limit`. It works on `krnl->mm`; the result of `vm_map_ram` is
unsigned and passes for a success. -/
def incVmaLimit (m : Machine b P) (vmaid : Int) (incSz : b.Word) : Option (Machine b P × Int) :=
  match m.krnlMm with
  | none => some (m, -1)
  | some owner =>
      match getVmaByNum (m.mm owner).mmap vmaid with
      | none => none
      | some none => some (m, -1)
      | some (some i) =>
          let incAmt := b.pageAlignsz incSz
          let mmap := (m.mm owner).mmap.modify i fun vma =>
            { vma with vmEnd := vma.vmEnd + incAmt, sbrk := vma.sbrk + incSz }
          if validateOverlapVmArea mmap i < 0 then some (m, -1)
          else
            (vmMapRam (m.setMm owner { m.mm owner with mmap := mmap })
              (incAmt.toNat / b.pageSz)).map fun m => (m, 0)

theorem incVmaLimit_of_unset {m : Machine b P} (unset : m.krnlMm = none) (vmaid : Int)
    (incSz : b.Word) : m.incVmaLimit vmaid incSz = some (m, -1) := by
  rw [incVmaLimit, unset]

/-- `__alloc` -/
def alloc (m : Machine b P) (caller : P) (vmaid rgid : Int) (size : b.Word) :
    Option (Machine b P × Int) := do
  let (mmap, newrg) ← getFreeVmrgArea (m.mm caller).mmap vmaid size
  let m := m.setMm caller { m.mm caller with mmap := mmap }
  match newrg with
  | some newrg =>
      let mm ← setSymrg (m.mm caller) rgid newrg
      some (m.setMm caller mm, 0)
  | none =>
      match (← getVmaByNum (m.mm caller).mmap vmaid).bind fun i => (m.mm caller).mmap[i]? with
      | none => some (m, -1)
      | some curVma =>
          -- `old_sbrk` is an `int`
          let oldSbrk := b.viaInt curVma.sbrk
          let incSz := if b.refuses then b.pageAlignsz size else size
          let (m, _) ← m.incVmaLimit vmaid incSz
          let mm ← setSymrg (m.mm caller) rgid ⟨oldSbrk, oldSbrk + size⟩
          some (m.setMm caller mm, 0)

/-- `__free`. Its range check lets `rgid` 30 pass: in the 32-bit build that entry
is empty while `fifo_pgn` is `NULL`, otherwise the code leaves the structure. -/
def free (m : Machine b P) (caller : P) (rgid : Int) : Option (Machine b P × Int) :=
  if rgid < 0 ∨ pagingMaxSymtblSz < rgid then some (m, -1)
  else if rgid = pagingMaxSymtblSz then
    if b.width = 32 ∧ (m.mm caller).fifoPgn.pgns = [] ∧ (m.mm caller).fifoPgn.wild = false then
      some (m, -1)
    else none
  else
    let mm := m.mm caller
    let rg := mm.symrgtbl (Fin.ofNat _ rgid.toNat)
    if rg.rgStart = 0 ∧ rg.rgEnd = 0 then some (m, -1)
    else
      let mm := { mm with symrgtbl := Function.update mm.symrgtbl (Fin.ofNat _ rgid.toNat) ⟨0, 0⟩ }
      some (m.setMm caller (enlistVmFreergList mm rg), 0)

section Cases

variable {m m' : Machine b P} {caller : P} {rgid ret : Int}

/-- `__alloc` searches the free lists, and unless it fails enters a region. -/
theorem alloc_cases (unset : m.krnlMm = none) {vmaid : Int} {size : b.Word}
    (done : m.alloc caller vmaid rgid size = some (m', ret)) :
    ∃ mmap, let searched := m.setMm caller { m.mm caller with mmap := mmap }
      m' = searched ∨ ∃ rg mm, setSymrg (searched.mm caller) rgid rg = some mm ∧
        m' = searched.setMm caller mm := by
  obtain ⟨⟨mmap, newrg⟩, -, done⟩ := Option.bind_eq_some_iff.mp done
  refine ⟨mmap, ?_⟩
  cases newrg with
  | some newrg =>
      obtain ⟨mm, entered, same⟩ := Option.bind_eq_some_iff.mp done
      obtain ⟨rfl, -⟩ := Prod.mk.inj (Option.some.inj same)
      exact .inr ⟨newrg, mm, entered, rfl⟩
  | none =>
      obtain ⟨area, -, done⟩ := Option.bind_eq_some_iff.mp done
      split at done
      next =>
        obtain ⟨rfl, -⟩ := Prod.mk.inj (Option.some.inj done)
        exact .inl rfl
      next =>
        obtain ⟨⟨raised, code⟩, limit, done⟩ := Option.bind_eq_some_iff.mp done
        rw [incVmaLimit_of_unset (show (m.setMm caller _).krnlMm = none from unset)] at limit
        obtain ⟨rfl, -⟩ := Prod.mk.inj (Option.some.inj limit)
        obtain ⟨mm, entered, same⟩ := Option.bind_eq_some_iff.mp done
        obtain ⟨rfl, -⟩ := Prod.mk.inj (Option.some.inj same)
        exact .inr ⟨_, mm, entered, rfl⟩

/-- `__free` takes a region out of the table and enlists it. -/
theorem free_enlists (done : m.free caller rgid = some (m', ret)) :
    m' = m ∨ ∃ symrgtbl rg,
      m' = m.setMm caller (enlistVmFreergList { m.mm caller with symrgtbl := symrgtbl } rg) := by
  rw [free] at done
  split at done
  next =>
    obtain ⟨rfl, -⟩ := Prod.mk.inj (Option.some.inj done)
    exact .inl rfl
  next =>
    split at done
    next =>
      split at done
      next =>
        obtain ⟨rfl, -⟩ := Prod.mk.inj (Option.some.inj done)
        exact .inl rfl
      next => cases done
    next =>
      dsimp only at done
      split at done
      next =>
        obtain ⟨rfl, -⟩ := Prod.mk.inj (Option.some.inj done)
        exact .inl rfl
      next =>
        obtain ⟨rfl, -⟩ := Prod.mk.inj (Option.some.inj done)
        exact .inr ⟨_, _, rfl⟩

/-- `__free` touches neither the page table nor the FIFO list. -/
theorem free_cases (done : m.free caller rgid = some (m', ret)) :
    m' = m ∨ ∃ mm, mm.pgd = (m.mm caller).pgd ∧ mm.fifoPgn = (m.mm caller).fifoPgn ∧
      m' = m.setMm caller mm := by
  obtain rfl | ⟨symrgtbl, rg, rfl⟩ := free_enlists done
  · exact .inl rfl
  · let mm := enlistVmFreergList { m.mm caller with symrgtbl := symrgtbl } rg
    have pgd : mm.pgd = (m.mm caller).pgd := pgd_enlistVmFreergList _ _
    have fifo : mm.fifoPgn = (m.mm caller).fifoPgn := fifoPgn_enlistVmFreergList _ _
    exact .inr ⟨mm, pgd, fifo, rfl⟩

end Cases

/-- `liballoc` -/
def liballoc (m : Machine b P) (proc : P) (size : b.Word) (regIndex : Int) :
    Option (Machine b P × Int) := m.alloc proc 0 regIndex size

/-- `libfree` -/
def libfree (m : Machine b P) (proc : P) (regIndex : Int) : Option (Machine b P × Int) :=
  m.free proc regIndex

end Machine

end SimpleOs.Mem
