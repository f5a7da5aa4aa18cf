import SimpleOs.Os.Reclaim

/-!
# The bounds of the symbol table

Every memory instruction names its region by an index that comes from a register. `__free`
tests it and lets 30 pass, `__alloc` does not test it, `__read` uses the region without
looking whether it got one, and `__write` looks only after `get_vma_by_num`. The calls are run
here with a log of the entries of `symrgtbl` that they access.
-/

namespace SimpleOs

open Mem (Build Byte Machine MemCall memSystem pagingMaxSymtblSz setSymrg getVmaByNum
  getFreeVmrgArea)

variable {b : Build} {P : Type} [DecidableEq P]

namespace Mem.Machine

/-- `__alloc`, with the entries that it accesses. -/
def allocLogged (m : Machine b P) (caller : P) (vmaid rgid : Int) (size : b.Word) :
    List Int × Option (Machine b P × Int) :=
  match getFreeVmrgArea (m.mm caller).mmap vmaid size with
  | none => ([], none)
  | some (mmap, some newrg) =>
      let m := m.setMm caller { m.mm caller with mmap := mmap }
      ([rgid], (setSymrg (m.mm caller) rgid newrg).map fun mm => (m.setMm caller mm, 0))
  | some (mmap, none) =>
      let m := m.setMm caller { m.mm caller with mmap := mmap }
      match getVmaByNum (m.mm caller).mmap vmaid with
      | none => ([], none)
      | some place =>
          match place.bind fun i => (m.mm caller).mmap[i]? with
          | none => ([], some (m, -1))
          | some curVma =>
              let oldSbrk := b.viaInt curVma.sbrk
              match m.incVmaLimit vmaid (if b.refuses then b.pageAlignsz size else size) with
              | none => ([], none)
              | some (m, _) =>
                  ([rgid], (setSymrg (m.mm caller) rgid ⟨oldSbrk, oldSbrk + size⟩).map fun mm =>
                    (m.setMm caller mm, 0))

/-- `__free` past its own check, with the entry that it accesses. -/
def freeLogged (m : Machine b P) (caller : P) (rgid : Int) :
    List Int × Option (Machine b P × Int) :=
  if rgid < 0 ∨ pagingMaxSymtblSz < rgid then ([], some (m, -1))
  else ([rgid], m.free caller rgid)

/-- `__read`, with the entry that it accesses. -/
def readLogged (m : Machine b P) (caller : P) (rgid : Int) (offset overlay : b.Word)
    (junk : Nat → Byte) : List Int × Option (Machine b P × Int) :=
  match m.symrgStart caller rgid overlay with
  | none => ([], none)
  | some rgStart =>
      ([rgid], (m.pgGetval caller (rgStart + offset) junk).map fun (m, _) => (m, 0))

/-- `__write`, with the entry that it accesses. -/
def writeLogged (m : Machine b P) (caller : P) (vmaid rgid : Int) (offset overlay : b.Word)
    (value : Byte) (junk : Nat → Byte) : List Int × Option (Machine b P × Int) :=
  match m.symrgStart caller rgid overlay, getVmaByNum (m.mm caller).mmap vmaid with
  | _, none => ([], none)
  | none, _ => ([], some (m, -1))
  | _, some none => ([], some (m, -1))
  | some rgStart, some (some _) =>
      ([rgid], (m.pgSetval caller (rgStart + offset) value junk).map fun (m, _) => (m, 0))

section Forget

variable (m : Machine b P) (caller : P) (vmaid rgid : Int) (offset overlay : b.Word) (value : Byte)
  (junk : Nat → Byte)

theorem allocLogged_forget (size : b.Word) :
    (m.allocLogged caller vmaid rgid size).2 = m.alloc caller vmaid rgid size := by
  rw [allocLogged, alloc]
  cases search : getFreeVmrgArea (m.mm caller).mmap vmaid size with
  | none => rfl
  | some found =>
      obtain ⟨mmap, newrg⟩ := found
      cases newrg with
      | some newrg => exact Option.map_eq_bind
      | none =>
          dsimp only [Option.bind_eq_bind, Option.bind_some]
          cases getVmaByNum ((m.setMm caller { m.mm caller with mmap := mmap }).mm caller).mmap
              vmaid with
          | none => rfl
          | some place =>
              dsimp only [Option.bind_some]
              cases place.bind fun i =>
                  ((m.setMm caller { m.mm caller with mmap := mmap }).mm caller).mmap[i]? with
              | none => rfl
              | some curVma =>
                  dsimp only
                  cases (m.setMm caller { m.mm caller with mmap := mmap }).incVmaLimit vmaid
                      (if b.refuses then b.pageAlignsz size else size) with
                  | none => rfl
                  | some raised => exact Option.map_eq_bind

theorem freeLogged_forget : (m.freeLogged caller rgid).2 = m.free caller rgid := by
  rw [freeLogged]
  split
  next outside => rw [free, if_pos outside]
  next => rfl

theorem readLogged_forget :
    (m.readLogged caller rgid offset overlay junk).2 = m.read caller rgid offset overlay junk := by
  rw [readLogged, read]
  cases m.symrgStart caller rgid overlay <;> rfl

theorem writeLogged_forget : (m.writeLogged caller vmaid rgid offset overlay value junk).2 =
    m.write caller vmaid rgid offset overlay value junk := by
  rw [writeLogged, write]
  cases getVmaByNum (m.mm caller).mmap vmaid with
  | none => rfl
  | some place => cases m.symrgStart caller rgid overlay <;> cases place <;> rfl

end Forget

section Bounds

variable {m : Machine b P} {caller : P}

omit [DecidableEq P] in
/-- The search for a free region adds no area and drops none. -/
theorem getFreeVmrgArea_length {mmap mmap' : List (Mem.Vma b)} {vmaid : Int} {size : b.Word}
    {newrg : Option (Mem.Region b)}
    (search : getFreeVmrgArea mmap vmaid size = some (mmap', newrg)) :
    mmap'.length = mmap.length := by
  rw [getFreeVmrgArea] at search
  split at search
  next => cases search
  next =>
    obtain ⟨rfl, -⟩ := Prod.mk.inj (Option.some.inj search)
    rfl
  next =>
    split at search
    next =>
      obtain ⟨rfl, -⟩ := Prod.mk.inj (Option.some.inj search)
      rfl
    next =>
      dsimp only at search
      split at search <;>
      · obtain ⟨rfl, -⟩ := Prod.mk.inj (Option.some.inj search)
        rw [List.length_modify]

theorem allocLogged_of_nil (areas : (m.mm caller).mmap = []) (vmaid rgid : Int) (size : b.Word) :
    m.allocLogged caller vmaid rgid size = ([], some (m, -1)) := by
  have search : getFreeVmrgArea (m.mm caller).mmap vmaid size = some ([], none) := by
    rw [areas]
    rfl
  have same : m.setMm caller { m.mm caller with mmap := [] } = m := by
    rw [← areas]
    exact m.setMm_mm caller
  rw [allocLogged, search]
  dsimp only
  rw [same, areas]
  rfl

/-- With an area `__alloc` never gives up: it stores at its index, or faults before. -/
theorem allocLogged_of_areas (areas : (m.mm caller).mmap ≠ []) (vmaid rgid : Int)
    (size : b.Word) :
    m.allocLogged caller vmaid rgid size = ([], none) ∨
      (m.allocLogged caller vmaid rgid size).1 = [rgid] := by
  rw [allocLogged]
  split
  next => exact .inl rfl
  next => exact .inr rfl
  next mmap search =>
    have still : mmap ≠ [] := by
      rw [← List.length_pos_iff_ne_nil, getFreeVmrgArea_length search]
      exact List.length_pos_iff_ne_nil.mpr areas
    dsimp only
    rw [mm_setMm_self]
    split
    next => exact .inl rfl
    next place found =>
      cases place with
      | none => exact absurd (Mem.getVmaByNum_eq_null.mp found) still
      | some i =>
          obtain ⟨area, here⟩ := Mem.getElem?_of_getVmaByNum found
          dsimp only [Option.bind_some]
          rw [here]
          dsimp only
          split
          next => exact .inl rfl
          next => exact .inr rfl

end Bounds

end Mem.Machine

namespace Mem

/-- An entry that `symrgtbl` has. -/
def SymEntry (rgid : Int) : Prop := 0 ≤ rgid ∧ rgid < pagingMaxSymtblSz

instance (rgid : Int) : Decidable (SymEntry rgid) := inferInstanceAs (Decidable (_ ∧ _))

namespace MemCall

/-- The index that a call uses. -/
def rgid : MemCall b P → Int
  | .liballoc _ _ regIndex => regIndex
  | .libfree _ regIndex => regIndex
  | .libread _ source .. => source
  | .libwrite _ _ destination .. => destination

/-- A call, with the entries of the symbol table that it accesses. -/
def logged (m : Machine b P) : MemCall b P → List Int × Option (Machine b P × Int)
  | .liballoc proc size regIndex => m.allocLogged proc 0 regIndex size
  | .libfree proc regIndex => m.freeLogged proc regIndex
  | .libread proc source offset overlay junk => m.readLogged proc source offset overlay junk
  | .libwrite proc data destination offset overlay junk =>
      m.writeLogged proc 0 destination offset overlay data junk

/-- Only entries of the table are accessed, and an index that the table does not have is
rejected: the call returns `-1` and changes nothing. -/
structure InBounds (m : Machine b P) (call : MemCall b P) : Prop where
  accesses : ∀ rgid ∈ (call.logged m).1, SymEntry rgid
  rejects : ¬ SymEntry call.rgid → (call.logged m).2 = some (m, -1)

/-- Where the code tests enough. Without areas `__alloc` and `__write` give up before they use
the index. -/
def Checked (m : Machine b P) : MemCall b P → Prop
  | .liballoc proc _ regIndex => SymEntry regIndex ∨ (m.mm proc).mmap = []
  | .libfree _ regIndex => regIndex ≠ pagingMaxSymtblSz
  | .libread _ source .. => SymEntry source
  | .libwrite proc _ destination .. =>
      SymEntry destination ∨ (m.mm proc).mmap = [] ∨
        destination ≠ pagingMaxSymtblSz ∧ ∃ vma ∈ (m.mm proc).mmap, 0 ≤ vma.vmId

/-- The log is one of the call that the system makes. -/
theorem logged_forget (m : Machine b P) (call : MemCall b P) :
    (call.logged m).2.map Prod.fst = (memSystem b P).step m call := by
  cases call with
  | liballoc proc size regIndex => exact congrArg _ (m.allocLogged_forget proc 0 regIndex size)
  | libfree proc regIndex => exact congrArg _ (m.freeLogged_forget proc regIndex)
  | libread proc source offset overlay junk =>
      exact congrArg _ (m.readLogged_forget proc source offset overlay junk)
  | libwrite proc data destination offset overlay junk =>
      exact congrArg _ (m.writeLogged_forget proc 0 destination offset overlay data junk)

section Outcomes

variable {m : Machine b P} {call : MemCall b P}

/-- A call that gives up is in bounds whatever its index. -/
theorem inBounds_of_rejected (rejected : call.logged m = ([], some (m, -1))) : call.InBounds m :=
  ⟨by simp [rejected], fun _ => congrArg Prod.snd rejected⟩

/-- A call that faults should have been rejected unless its index is one of the table. -/
theorem inBounds_iff_of_fault (fault : call.logged m = ([], none)) :
    call.InBounds m ↔ SymEntry call.rgid := by
  constructor
  · intro bounds
    by_contra outside
    have rejected := bounds.rejects outside
    rw [fault] at rejected
    cases rejected
  · exact fun entry => ⟨by simp [fault], fun outside => absurd entry outside⟩

/-- A call that accesses its entry is in bounds if the table has that entry. -/
theorem inBounds_iff_of_access (access : (call.logged m).1 = [call.rgid]) :
    call.InBounds m ↔ SymEntry call.rgid := by
  constructor
  · exact fun bounds => bounds.accesses call.rgid (by simp [access])
  · exact fun entry => ⟨by simpa [access] using entry, fun outside => absurd entry outside⟩

end Outcomes

omit [DecidableEq P] in
theorem getVmaByNum_ne_none {mmap : List (Vma b)} {vmaid : Int}
    (returns : getVmaByNum mmap vmaid ≠ none) : mmap = [] ∨ ∃ vma ∈ mmap, vmaid ≤ vma.vmId := by
  rw [Ne, getVmaByNum_eq_none] at returns
  by_contra! neither
  exact returns neither

section Calls

variable {m : Machine b P} {proc : P} {regIndex : Int} {size offset overlay : b.Word} {data : Byte}
  {junk : Nat → Byte}

theorem liballoc_inBounds_iff : (liballoc proc size regIndex).InBounds m ↔
    (liballoc proc size regIndex : MemCall b P).Checked m := by
  by_cases areas : (m.mm proc).mmap = []
  · exact iff_of_true (inBounds_of_rejected (Machine.allocLogged_of_nil areas 0 regIndex size))
      (.inr areas)
  · have checked : (liballoc proc size regIndex : MemCall b P).Checked m ↔ SymEntry regIndex :=
      or_iff_left areas
    rw [checked]
    obtain fault | access := Machine.allocLogged_of_areas areas 0 regIndex size
    · exact inBounds_iff_of_fault fault
    · exact inBounds_iff_of_access access

theorem libfree_inBounds_iff : (libfree proc regIndex).InBounds m ↔
    (libfree proc regIndex : MemCall b P).Checked m := by
  have checked : (libfree proc regIndex : MemCall b P).Checked m ↔ regIndex ≠ pagingMaxSymtblSz :=
    .rfl
  rw [checked]
  by_cases outside : regIndex < 0 ∨ pagingMaxSymtblSz < regIndex
  · exact iff_of_true (inBounds_of_rejected (if_pos outside)) (by omega)
  · have access : ((libfree proc regIndex).logged m).1 = [regIndex] :=
      congrArg Prod.fst (if_neg outside)
    rw [inBounds_iff_of_access access]
    show 0 ≤ regIndex ∧ regIndex < pagingMaxSymtblSz ↔ _
    omega

theorem libread_inBounds_iff : (libread proc regIndex offset overlay junk).InBounds m ↔
    (libread proc regIndex offset overlay junk : MemCall b P).Checked m := by
  cases region : m.symrgStart proc regIndex overlay with
  | none =>
      -- the region is `NULL`, and `__read` looks into it
      refine inBounds_iff_of_fault ?_
      rw [logged, Machine.readLogged, region]
  | some rgStart =>
      refine inBounds_iff_of_access ?_
      rw [logged, Machine.readLogged, region, rgid]

theorem libwrite_inBounds_iff : (libwrite proc data regIndex offset overlay junk).InBounds m ↔
    (libwrite proc data regIndex offset overlay junk : MemCall b P).Checked m := by
  cases area : getVmaByNum (m.mm proc).mmap 0 with
  | none =>
      -- the lookup runs off the list before the region is looked at
      obtain ⟨areas, low⟩ := getVmaByNum_eq_none.mp area
      have fault : (libwrite proc data regIndex offset overlay junk).logged m = ([], none) := by
        rw [logged, Machine.writeLogged, area]
      refine (inBounds_iff_of_fault fault).trans (or_iff_left ?_).symm
      rintro (none | ⟨-, vma, member, high⟩)
      · exact areas none
      · exact (low vma member).not_ge high
  | some place =>
      cases region : m.symrgStart proc regIndex overlay with
      | none =>
          have outside := Machine.symrgStart_eq_none.mp region
          refine iff_of_true (inBounds_of_rejected ?_) ?_
          · rw [logged, Machine.writeLogged, area, region]
          · refine (getVmaByNum_ne_none (area ▸ Option.some_ne_none place)).elim (.inr ∘ .inl) ?_
            intro found
            exact .inr (.inr ⟨by omega, found⟩)
      | some rgStart =>
          have inside : ¬ (regIndex < 0 ∨ pagingMaxSymtblSz < regIndex) := by
            rw [← Machine.symrgStart_eq_none, region]
            exact Option.some_ne_none rgStart
          cases place with
          | none =>
              refine iff_of_true (inBounds_of_rejected ?_) (.inr (.inl (getVmaByNum_eq_null.mp area)))
              rw [logged, Machine.writeLogged, area, region]
          | some i =>
              have access : ((libwrite proc data regIndex offset overlay junk).logged m).1 =
                  [regIndex] := by
                rw [logged, Machine.writeLogged, area, region]
              refine (inBounds_iff_of_access access).trans ⟨.inl, ?_⟩
              rintro (entry | none | ⟨other, -⟩)
              · exact entry
              · rw [getVmaByNum_eq_null.mpr none] at area
                cases area
              · show 0 ≤ regIndex ∧ regIndex < pagingMaxSymtblSz
                omega

theorem inBounds_iff (call : MemCall b P) : call.InBounds m ↔ call.Checked m := by
  cases call with
  | liballoc proc size regIndex => exact liballoc_inBounds_iff
  | libfree proc regIndex => exact libfree_inBounds_iff
  | libread proc source offset overlay junk => exact libread_inBounds_iff
  | libwrite proc data destination offset overlay junk => exact libwrite_inBounds_iff

end Calls

end MemCall

end Mem

/-- The library call of an instruction stays in the symbol table and rejects any other index
exactly if the code tests enough for it: the index is one of the table, an index given to `FREE`
is not 30, or `ALLOC` or `WRITE` has no area to work on. `WRITE` also rejects every index but 30
where it finds area 0 or a later one. -/
theorem symbols_in_bounds_iff (m : Machine b P) (proc : P) (overlay : b.Word) (junk : Nat → Byte)
    (inst : Inst b) :
    (∀ call ∈ inst.call proc overlay junk, call.InBounds m) ↔
      ∀ call ∈ inst.call proc overlay junk, call.Checked m :=
  forall₂_congr fun call _ => call.inBounds_iff

/-- `free 30` looks at the word behind the table. -/
theorem free_reads_past_table : ¬ ∀ (m : Machine .mm32 Unit) (inst : Inst .mm32),
    ∀ call ∈ inst.call () 0 fun _ => 0, call.InBounds m := by
  intro all
  let m : Machine .mm32 Unit := .boot (.init .mm32 0 true) (.init .mm32 0 true)
  have bounds := all m (.free 30) _ rfl
  have entry : Mem.SymEntry 30 := bounds.accesses 30 (by decide)
  exact absurd entry (by decide)

end SimpleOs
