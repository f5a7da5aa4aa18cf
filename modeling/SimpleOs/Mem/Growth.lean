import SimpleOs.Mem.Frames

/-!
# Growing an area

`inc_vma_limit` with everything behind it: `alloc_pages_range` collects frames one by one,
`vmap_page_range` enters them for consecutive pages, and `vm_map_ram` puts the two
together, in the 32-bit build; in the MM64 build it collects none. The codes `-1` and
`-3000` come back in an `addr_t`, which is not negative, so that a growth is never rolled
back once its range has been found free.
-/

namespace SimpleOs.Mem

variable {b : Build} {P : Type} [DecidableEq P]

namespace Machine

/-- `alloc_pages_range`, with the frames that it has put on the list and its code. -/
def allocPagesRange (m : Machine b P) : (reqPgnum : Nat) → Machine b P × List b.Word × b.Word
  | 0 => (m, [], 0)
  | pgnum + 1 =>
      match m.mram.getFreefp with
      | none => (m, [], BitVec.ofInt b.width (-3000))
      | some (fpn, mram) =>
          let (m, frames, ret) := allocPagesRange { m with mram := mram } pgnum
          (m, fpn :: frames, ret)

/-- The page number that `vmap_page_range` computes for the page `pgit` of the range. -/
def rangePgn (addr : b.Word) (pgit : Nat) : b.Word :=
  b.pagingPgn (addr + word b pgit * word b b.pageSz)

/-- The loop of `vmap_page_range`. The page table and the FIFO list are those of
`caller->mm`. -/
def vmapPages (callerMm : Option P) (addr : b.Word) (pgnum : Nat) :
    (fpit : List b.Word) → (pgit : Nat) → Machine b P → Option (Machine b P)
  | [], _, m => some m
  | fpn :: rest, pgit, m =>
      if pgit < pgnum then
        match callerMm with
        | none => none
        | some p =>
            vmapPages callerMm addr pgnum rest (pgit + 1) (m.mapPage p (rangePgn addr pgit) fpn)
      else some m

/-- `vmap_page_range`, with the region it returns -/
def vmapPageRange (m : Machine b P) (callerMm : Option P) (addr : b.Word) (pgnum : Nat)
    (frames : List b.Word) : Option (Machine b P × Region b) :=
  (vmapPages callerMm addr pgnum frames 0 m).map fun m =>
    (m, ⟨addr, addr + word b pgnum * word b b.pageSz⟩)

/-- `vm_map_ram`. The MM64 build leaves the call of `alloc_pages_range` out. -/
def vmMapRamBy (m : Machine b P) (callerMm : Option P) (mapstart : b.Word) (incpgnum : Nat) :
    Option (Machine b P × b.Word) :=
  let (m, frmLst, retAlloc) := if b.refuses then m.allocPagesRange incpgnum else (m, [], 0)
  if retAlloc = BitVec.ofInt b.width (-3000) then some (m, BitVec.allOnes b.width)
  else (m.vmapPageRange callerMm mapstart incpgnum frmLst).map fun (m, _) => (m, 0)

omit [DecidableEq P] in
/-- Success is not the code of `alloc_pages_range` for want of frames. -/
theorem zero_ne_outOfFrames (builds : b = .mm32 ∨ b = .mm64) :
    (0 : b.Word) ≠ BitVec.ofInt b.width (-3000) := by
  obtain rfl | rfl := builds <;> decide

/-- `inc_amt / PAGING_PAGESZ` as an `int`; loops up to a negative number do nothing. -/
def incnumpage (incAmt : b.Word) : Nat :=
  ((incAmt / word b b.pageSz).setWidth 32).toInt.toNat

/-- The updates of `vm_end` and `sbrk` in `inc_vma_limit`. -/
def grow (incSz : b.Word) (vma : Vma b) : Vma b :=
  { vma with vmEnd := vma.vmEnd + b.pageAlignsz incSz, sbrk := vma.sbrk + incSz }

/-- `inc_vma_limit` of a caller with any `mm`. What `vm_map_ram` returns is never below zero. -/
def incVmaLimitBy (m : Machine b P) (callerMm : Option P) (vmaid : Int) (incSz : b.Word) :
    Option (Machine b P × Int) :=
  match m.krnlMm with
  | none => some (m, -1)
  | some owner =>
      match getVmaByNum (m.mm owner).mmap vmaid with
      | none => none
      | some none => some (m, -1)
      | some (some i) =>
          (m.mm owner).mmap[i]?.bind fun curVma =>
            let incAmt := b.pageAlignsz incSz
            let oldEnd := curVma.vmEnd
            let mmap := (m.mm owner).mmap.modify i (grow incSz)
            if validateOverlapVmArea mmap i < 0 then some (m, -1)
            else
              ((m.setMm owner { m.mm owner with mmap := mmap }).vmMapRamBy callerMm oldEnd
                (incnumpage incAmt)).map fun (m, _) => (m, 0)

omit [DecidableEq P] in
/-- The frames are popped in order, as many as there are. -/
theorem allocPagesRange_eq (m : Machine b P) (pgnum : Nat) :
    m.allocPagesRange pgnum =
      ({ m with mram := { m.mram with freeFpList := m.mram.freeFpList.drop pgnum } },
        m.mram.freeFpList.take pgnum,
        if pgnum ≤ m.mram.freeFpList.length then 0 else BitVec.ofInt b.width (-3000)) := by
  induction pgnum generalizing m with
  | zero => simp [allocPagesRange]
  | succ pgnum ih =>
      rw [allocPagesRange]
      split
      next none =>
        have empty := Memphy.getFreefp_eq_none.mp none
        have same : { m with mram := { m.mram with freeFpList := [] } } = m := by rw [← empty]
        simp [empty, same]
      next fpn mram popped =>
        obtain ⟨list, same⟩ := Memphy.getFreefp_cases popped
        rw [ih, list, same]
        simp

section Range

variable {m : Machine b P} {p : P} {addr : b.Word} {pgnum pgit : Nat} {frames : List b.Word}

/-- Mapping a page changes its entry, the FIFO list and nothing else. -/
theorem mapPage_frame (m : Machine b P) (p : P) (pgn fpn : b.Word) :
    (m.mapPage p pgn fpn).mram = m.mram ∧
      ((m.mapPage p pgn fpn).mm p).mmap = (m.mm p).mmap := by
  refine ⟨rfl, ?_⟩
  rw [mapPage, mm_setMm_self]
  exact mmap_setEntryBy

/-- With an `mm` to map to, the loop ends. -/
theorem vmapPages_returns (m : Machine b P) (p : P) (addr : b.Word) (pgnum : Nat)
    (frames : List b.Word) (pgit : Nat) :
    ∃ m', vmapPages (some p) addr pgnum frames pgit m = some m' ∧ m'.mram = m.mram ∧
      (m'.mm p).mmap = (m.mm p).mmap := by
  induction frames generalizing m pgit with
  | nil => exact ⟨m, rfl, rfl, rfl⟩
  | cons fpn rest ih =>
      rw [vmapPages]
      split
      next =>
        obtain ⟨mram, mmap⟩ := mapPage_frame m p (rangePgn addr pgit) fpn
        obtain ⟨m', run, mram', mmap'⟩ := ih (m.mapPage p (rangePgn addr pgit) fpn) (pgit + 1)
        exact ⟨m', run, mram'.trans mram, mmap'.trans mmap⟩
      next => exact ⟨m, rfl, rfl, rfl⟩

/-- The frames are mapped in order to pages with different entries. -/
theorem vmapPages_entries {m' : Machine b P}
    (run : vmapPages (some p) addr pgnum frames pgit m = some m')
    (room : pgit + frames.length ≤ pgnum)
    (apart : ∀ i < frames.length, ∀ j < frames.length,
      b.index (rangePgn addr (pgit + i)) = b.index (rangePgn addr (pgit + j)) → i = j)
    (fits : ∀ f ∈ frames, f.toNat < b.frames) :
    (∀ j, (∀ i < frames.length, b.index (rangePgn addr (pgit + i)) ≠ j) →
      (m'.mm p).pgd j = (m.mm p).pgd j) ∧
    ∀ i (h : i < frames.length),
      b.online ((m'.mm p).pgd (b.index (rangePgn addr (pgit + i)))) = true ∧
        b.pagingFpn ((m'.mm p).pgd (b.index (rangePgn addr (pgit + i)))) = frames[i] := by
  induction frames generalizing m pgit with
  | nil =>
      cases run
      exact ⟨fun _ _ => rfl, fun i h => absurd h (Nat.not_lt_zero i)⟩
  | cons fpn rest ih =>
      obtain ⟨below, fits⟩ := List.forall_mem_cons.mp fits
      rw [List.length_cons] at room apart
      rw [vmapPages, if_pos (by omega)] at run
      have shift : ∀ i, pgit + 1 + i = pgit + (i + 1) := by omega
      obtain ⟨others, mapped⟩ := ih run (by omega) (by
        intro i low j low' same
        rw [shift, shift] at same
        have next := apart (i + 1) (by omega) (j + 1) (by omega) same
        omega) fits
      have inTable : b.outOfTable (rangePgn addr pgit) = false := inTable_pagingPgn _
      have entries : ∀ j, ((m.mapPage p (rangePgn addr pgit) fpn).mm p).pgd j =
          if (p, j) = (p, b.index (rangePgn addr pgit)) then
            b.fpnEntry ((m.mm p).pteGetEntry (rangePgn addr pgit)) fpn
          else (m.mm p).pgd j := pgd_mapPage inTable p
      constructor
      · intro j away
        have here : (p, j) ≠ (p, b.index (rangePgn addr pgit)) := by
          intro same
          exact away 0 (by simp) (congrArg Prod.snd same).symm
        rw [others j, entries, if_neg here]
        intro i low
        rw [shift]
        exact away (i + 1) (by simpa using low)
      · intro i low
        cases i with
        | zero =>
            rw [Nat.add_zero, others, entries, if_pos rfl, List.getElem_cons_zero]
            · exact ⟨online_fpnEntry _ _, b.pagingFpn_fpnEntry _ below⟩
            · intro j low' same
              rw [shift] at same
              have next := apart (j + 1) (by omega) 0 (by omega) same
              omega
        | succ i =>
            rw [← shift, List.getElem_cons_succ]
            exact mapped i (by simpa using low)

end Range

end Machine

/-! ## Sizes in pages -/

section Sizes

variable {incSz : b.Word}

/-- The pages that the size takes. -/
def Build.pagesFor (b : Build) (incSz : b.Word) : Nat := (incSz.toNat + b.pageSz - 1) / b.pageSz

theorem pagesFor_isLeast (incSz : b.Word) :
    IsLeast { k | incSz.toNat ≤ k * b.pageSz } (b.pagesFor incSz) := by
  have positive := b.pageSz_pos
  constructor
  · show incSz.toNat ≤ b.pagesFor incSz * b.pageSz
    have above := Nat.lt_div_mul_add positive (a := incSz.toNat + b.pageSz - 1)
    rw [Build.pagesFor]
    omega
  · intro k enough
    change incSz.toNat ≤ k * b.pageSz at enough
    rw [Build.pagesFor, Nat.div_le_iff_le_mul_add_pred positive, Nat.mul_comm]
    omega

/-- A page size divides the size of the address space. -/
theorem pageSz_dvd (b : Build) : b.pageSz ∣ 2 ^ b.width :=
  Nat.pow_dvd_pow 2 (b.wellFormed.page.trans b.wellFormed.address.le)

/-- Where the pages end below the top, rounding up does not wrap. -/
theorem toNat_pageAlignsz (room : b.pagesFor incSz * b.pageSz < 2 ^ b.width) :
    (b.pageAlignsz incSz).toNat = b.pagesFor incSz * b.pageSz := by
  have positive := b.pageSz_pos
  have page := b.pageSz_lt
  have sum : incSz.toNat + b.pageSz - 1 < 2 ^ b.width := by
    obtain ⟨pages, total⟩ := pageSz_dvd b
    have above := Nat.lt_div_mul_add positive (a := incSz.toNat + b.pageSz - 1)
    rw [Build.pagesFor, total, Nat.mul_comm b.pageSz] at room
    have next : (incSz.toNat + b.pageSz - 1) / b.pageSz + 1 ≤ pages :=
      Nat.lt_of_mul_lt_mul_right room
    have whole := Nat.mul_le_mul_right b.pageSz next
    rw [Nat.add_mul, one_mul] at whole
    rw [total, Nat.mul_comm]
    omega
  have dividend : incSz + word b b.pageSz - 1 = word b (incSz.toNat + b.pageSz - 1) := by
    apply sub_eq_iff_eq_add.mpr
    have last : incSz.toNat + b.pageSz - 1 + 1 = incSz.toNat + b.pageSz := by omega
    have one : (1 : b.Word).toNat = 1 :=
      BitVec.toNat_one (Nat.zero_lt_of_lt b.wellFormed.word)
    apply BitVec.eq_of_toNat_eq
    simp only [word, BitVec.toNat_add, BitVec.toNat_ofNat, Nat.add_mod_mod, Nat.mod_add_mod]
    rw [one, last]
  rw [Build.pageAlignsz, dividend, BitVec.toNat_mul, BitVec.toNat_udiv, BitVec.toNat_ofNat,
    BitVec.toNat_ofNat, Nat.mod_eq_of_lt sum, Nat.mod_eq_of_lt page]
  exact Nat.mod_eq_of_lt room

/-- The end of an area grows by the pages exactly where it does not wrap. -/
theorem toNat_add_pageAlignsz (vmEnd : b.Word) :
    (vmEnd + b.pageAlignsz incSz).toNat = vmEnd.toNat + b.pagesFor incSz * b.pageSz ↔
      vmEnd.toNat + b.pagesFor incSz * b.pageSz < 2 ^ b.width := by
  constructor
  · intro same
    rw [← same]
    exact BitVec.isLt _
  · intro room
    rw [BitVec.toNat_add, toNat_pageAlignsz (Nat.lt_of_le_of_lt (Nat.le_add_left _ _) room)]
    exact Nat.mod_eq_of_lt room

/-- The number of pages, where it is an `int`. -/
theorem Machine.incnumpage_eq {incAmt : b.Word} (int : incAmt.toNat / b.pageSz < 2 ^ 31) :
    Machine.incnumpage incAmt = incAmt.toNat / b.pageSz := by
  have page := b.pageSz_lt
  have pages : ((incAmt / word b b.pageSz).setWidth 32).toNat = incAmt.toNat / b.pageSz := by
    rw [BitVec.toNat_setWidth, BitVec.toNat_udiv, BitVec.toNat_ofNat, Nat.mod_eq_of_lt page]
    exact Nat.mod_eq_of_lt (int.trans (by decide))
  rw [Machine.incnumpage, BitVec.toInt_eq_toNat_of_lt (by rw [pages]; omega), pages]
  rfl

theorem Machine.incnumpage_of_mm32 (incAmt : Build.mm32.Word) :
    Machine.incnumpage incAmt = incAmt.toNat / Build.mm32.pageSz := by
  have bound : incAmt.toNat < 2 ^ 32 := incAmt.isLt
  have size : Build.mm32.pageSz = 256 := rfl
  apply Machine.incnumpage_eq
  rw [size]
  omega

end Sizes

/-! ## The pages of a range -/

namespace Machine

section Pages

variable {m m' : Machine b P} {p : P} {lo hi : Nat}

/-- The entry of the page of an address. -/
def entryAt (m : Machine b P) (p : P) (addr : Nat) : b.Word :=
  (m.mm p).pteGetEntry (b.pagingPgn (word b addr))

/-- Each page with an address from `lo` up to `hi` is in one of these frames, and no two are in
the same one. -/
structure MappedTo (m : Machine b P) (p : P) (lo hi : Nat) (taken : List b.Word) : Prop where
  online : ∀ addr, lo ≤ addr → addr < hi → b.online (m.entryAt p addr) = true
  mem : ∀ addr, lo ≤ addr → addr < hi → b.pagingFpn (m.entryAt p addr) ∈ taken
  apart : ∀ addr addr', lo ≤ addr → addr < hi → lo ≤ addr' → addr' < hi →
    b.pagingFpn (m.entryAt p addr) = b.pagingFpn (m.entryAt p addr') →
      addr / b.pageSz = addr' / b.pageSz

omit [DecidableEq P] in
/-- Pages that the range meets are in frames of their own. -/
theorem MappedTo.own {taken : List b.Word} (mapped : m.MappedTo p lo hi taken) (count : Nat)
    (nonempty : lo < hi) (meets : ∀ i < count, (lo / b.pageSz + i) * b.pageSz < hi) :
    ∃ own : List b.Word, own.length = count ∧ own.Nodup ∧ own.Subperm taken ∧
      ∀ f ∈ own, f.toNat < b.frames := by
  -- the first address of the range on the page
  let first : Nat → Nat := fun i => max lo ((lo / b.pageSz + i) * b.pageSz)
  have above : ∀ i, lo ≤ first i := fun i => le_max_left _ _
  have below : ∀ i < count, first i < hi := fun i low => max_lt nonempty (meets i low)
  have page : ∀ i, first i / b.pageSz = lo / b.pageSz + i := by
    intro i
    have positive := b.pageSz_pos
    have start := Nat.div_mul_le_self lo b.pageSz
    have within := Nat.lt_div_mul_add positive (a := lo)
    obtain rfl | later := Nat.eq_zero_or_pos i
    · show max lo ((lo / b.pageSz + 0) * b.pageSz) / b.pageSz = _
      rw [Nat.add_zero, max_eq_left start]
    · have beyond : lo ≤ (lo / b.pageSz + i) * b.pageSz := by
        have step := Nat.mul_le_mul_right b.pageSz (show lo / b.pageSz + 1 ≤ lo / b.pageSz + i by omega)
        rw [Nat.add_mul, one_mul] at step
        omega
      show max lo ((lo / b.pageSz + i) * b.pageSz) / b.pageSz = _
      rw [max_eq_right beyond, Nat.mul_div_cancel _ positive]
  have distinct : ((List.range count).map fun i =>
      b.pagingFpn (m.entryAt p (first i))).Nodup := by
    apply List.Nodup.map_on _ List.nodup_range
    intro i low j low' same
    rw [List.mem_range] at low low'
    have pages := mapped.apart _ _ (above i) (below i low) (above j) (below j low') same
    rw [page, page] at pages
    exact Nat.add_left_cancel pages
  refine ⟨_, by simp, distinct, distinct.subperm ?_, ?_⟩
  · intro f member
    obtain ⟨i, low, rfl⟩ := List.mem_map.mp member
    exact mapped.mem _ (above i) (below i (List.mem_range.mp low))
  · intro f member
    obtain ⟨i, -, rfl⟩ := List.mem_map.mp member
    exact b.pagingFpn_lt _

omit [DecidableEq P] in
theorem MappedTo.of_le (nothing : hi ≤ lo) (taken : List b.Word) : m.MappedTo p lo hi taken :=
  ⟨fun _ above below => absurd (above.trans_lt below) nothing.not_gt,
    fun _ above below => absurd (above.trans_lt below) nothing.not_gt,
    fun _ _ above below => absurd (above.trans_lt below) nothing.not_gt⟩

end Pages

section MapRam

variable {m m' : Machine b P} {p : P} {vmEnd ret : b.Word} {pages : Nat}

/-- Each page with an address from `lo` up to `hi` is in RAM, in a frame of its own that was
free. -/
def RangeMapped (m m' : Machine b P) (p : P) (lo hi : Nat) : Prop :=
  ∃ taken, m.mram.freeFpList.Perm (taken ++ m'.mram.freeFpList) ∧ m'.MappedTo p lo hi taken

/-- Pages from a page boundary on find a frame each, in the build that maps: the free list
begins with that many frames, each once, with numbers that fit an entry. -/
structure FramesReady (m : Machine b P) (start pages : Nat) : Prop where
  maps : b.refuses = true
  aligned : b.pageSz ∣ start
  enough : pages ≤ m.mram.freeFpList.length
  nodup : (m.mram.freeFpList.take pages).Nodup
  fits : ∀ f ∈ m.mram.freeFpList.take pages, f.toNat < b.frames

/-- `vm_map_ram` returns. Where frames are short it has taken those there are. -/
theorem vmMapRamBy_returns (builds : b = .mm32 ∨ b = .mm64) (m : Machine b P) (p : P)
    (vmEnd : b.Word) (pages : Nat) :
    ∃ m' ret, m.vmMapRamBy (some p) vmEnd pages = some (m', ret) ∧
      (m'.mm p).mmap = (m.mm p).mmap ∧
      m'.mram.freeFpList =
        (if b.refuses then m.mram.freeFpList.drop pages else m.mram.freeFpList) ∧
      (b.refuses = true → pages ≤ m.mram.freeFpList.length →
        vmapPages (some p) vmEnd pages (m.mram.freeFpList.take pages) 0
          (m.allocPagesRange pages).1 = some m') := by
  have fine := zero_ne_outOfFrames builds
  by_cases maps : b.refuses = true
  · by_cases enough : pages ≤ m.mram.freeFpList.length
    · obtain ⟨m', run, mram, mmap⟩ := vmapPages_returns (m.allocPagesRange pages).1 p vmEnd pages
        (m.mram.freeFpList.take pages) 0
      have run' := run
      rw [allocPagesRange_eq] at run' mram mmap
      refine ⟨m', 0, ?_, mmap, ?_, fun _ _ => run⟩
      · rw [vmMapRamBy, if_pos maps, allocPagesRange_eq]
        dsimp only at run' ⊢
        rw [if_pos enough, if_neg fine, vmapPageRange, run']
        rfl
      · rw [mram, if_pos maps]
    · refine ⟨(m.allocPagesRange pages).1, BitVec.allOnes b.width, ?_, ?_, ?_, ?_⟩
      · rw [vmMapRamBy, if_pos maps, allocPagesRange_eq]
        dsimp only
        rw [if_neg enough, if_pos rfl]
      · rw [allocPagesRange_eq]
      · rw [allocPagesRange_eq, if_pos maps]
      · exact fun _ enough' => absurd enough' enough
  · refine ⟨m, 0, ?_, rfl, ?_, fun maps' => absurd maps' maps⟩
    · rw [vmMapRamBy, if_neg maps]
      dsimp only
      rw [if_neg fine, vmapPageRange, vmapPages]
      rfl
    · rw [if_neg maps]

omit [DecidableEq P] in
/-- What is mapped had its frames ready. -/
theorem RangeMapped.framesReady (mapped : RangeMapped m m' p vmEnd.toNat
      (vmEnd.toNat + pages * b.pageSz)) (nonempty : 0 < pages)
    (free : m'.mram.freeFpList =
      if b.refuses then m.mram.freeFpList.drop pages else m.mram.freeFpList) :
    m.FramesReady vmEnd.toNat pages := by
  obtain ⟨taken, left, mapped⟩ := mapped
  have positive := b.pageSz_pos
  have start := Nat.div_mul_le_self vmEnd.toNat b.pageSz
  have grows : vmEnd.toNat < vmEnd.toNat + pages * b.pageSz :=
    Nat.lt_add_of_pos_right (Nat.mul_pos nonempty positive)
  have meets : ∀ i < pages,
      (vmEnd.toNat / b.pageSz + i) * b.pageSz < vmEnd.toNat + pages * b.pageSz := by
    intro i low
    have step := Nat.mul_le_mul_right b.pageSz (Nat.succ_le_of_lt low)
    rw [Nat.succ_eq_add_one, Nat.add_mul, one_mul] at step
    rw [Nat.add_mul]
    omega
  obtain ⟨own, count, distinct, within, below⟩ := mapped.own pages grows meets
  have room := within.length_le
  rw [count] at room
  have total := left.length_eq
  rw [List.length_append] at total
  have enough : pages ≤ m.mram.freeFpList.length := by omega
  have maps : b.refuses = true := by
    by_contra other
    rw [free, if_neg other] at total
    omega
  rw [free, if_pos maps] at left total
  rw [List.length_drop] at total
  -- exactly as many were taken as there are pages
  have size : taken.length = pages := by omega
  have same : taken.Perm own :=
    (within.perm_of_length_le (by omega)).symm
  have first : (m.mram.freeFpList.take pages).Perm own := by
    refine List.Perm.trans ?_ same
    apply (List.perm_append_right_iff (m.mram.freeFpList.drop pages)).mp
    rw [List.take_append_drop]
    exact left
  refine ⟨maps, ?_, enough, ?_, ?_⟩
  · by_contra unaligned
    have inside : vmEnd.toNat / b.pageSz * b.pageSz < vmEnd.toNat :=
      lt_of_le_of_ne start fun same => unaligned ⟨_, by rw [Nat.mul_comm]; exact same.symm⟩
    -- one page more is met than frames were taken
    obtain ⟨own', count', -, within', -⟩ := mapped.own (pages + 1) grows (by
      intro i low
      have step := Nat.mul_le_mul_right b.pageSz (Nat.le_of_lt_succ low)
      rw [Nat.add_mul]
      omega)
    have room' := within'.length_le
    omega
  · exact first.nodup_iff.mpr distinct
  · exact fun f member => below f (first.subset member)

theorem toNat_rangePgn (aligned : b.pageSz ∣ vmEnd.toNat) {i : Nat}
    (room : vmEnd.toNat + i * b.pageSz < 2 ^ b.width) :
    (rangePgn vmEnd i).toNat =
      (vmEnd.toNat / b.pageSz + i) % 2 ^ (b.pgnHibit + 1 - b.pageBits) := by
  have start : (vmEnd + word b i * word b b.pageSz).toNat = vmEnd.toNat + i * b.pageSz := by
    rw [BitVec.toNat_add, BitVec.toNat_mul, BitVec.toNat_ofNat, BitVec.toNat_ofNat,
      Nat.mod_mul_mod, Nat.mul_mod_mod, Nat.add_mod_mod]
    exact Nat.mod_eq_of_lt room
  rw [rangePgn, b.toNat_pagingPgn, start]
  show (vmEnd.toNat + i * b.pageSz) / b.pageSz % _ = _
  rw [Nat.add_div_of_dvd_right aligned, Nat.mul_div_cancel _ b.pageSz_pos]

/-- The page number of an address in a range, by its place in the range. -/
theorem rangePgn_eq (aligned : b.pageSz ∣ vmEnd.toNat) {addr : Nat} (above : vmEnd.toNat ≤ addr)
    (below : addr < 2 ^ b.width) :
    rangePgn vmEnd (addr / b.pageSz - vmEnd.toNat / b.pageSz) = b.pagingPgn (word b addr) := by
  have pages := Nat.div_le_div_right (c := b.pageSz) above
  have start := Nat.div_mul_cancel aligned
  have place := Nat.div_mul_le_self addr b.pageSz
  apply BitVec.eq_of_toNat_eq
  rw [toNat_rangePgn aligned, b.toNat_pagingPgn, BitVec.toNat_ofNat, Nat.mod_eq_of_lt below,
    Nat.add_sub_cancel' pages]
  · rfl
  · rw [Nat.sub_mul, start]
    omega

/-- No two pages of a range that the table has room for share an entry. -/
theorem index_rangePgn_inj {vmEnd : Build.mm32.Word} (aligned : Build.mm32.pageSz ∣ vmEnd.toNat)
    (inside : ∀ i < pages, vmEnd.toNat + i * Build.mm32.pageSz < 2 ^ Build.mm32.width)
    (few : pages ≤ 2 ^ (Build.mm32.pgnHibit + 1 - Build.mm32.pageBits)) {i j : Nat}
    (low : i < pages) (low' : j < pages)
    (same : Build.mm32.index (rangePgn vmEnd i) = Build.mm32.index (rangePgn vmEnd j)) : i = j := by
  have number : (rangePgn vmEnd i).toNat = (rangePgn vmEnd j).toNat :=
    congrArg BitVec.toNat (index_injOn rfl (inTable_pagingPgn _) (inTable_pagingPgn _) same)
  rw [toNat_rangePgn aligned (inside i low), toNat_rangePgn aligned (inside j low')] at number
  exact Nat.ModEq.eq_of_lt_of_lt (Nat.ModEq.add_left_cancel' _ number)
    (low.trans_le few) (low'.trans_le few)

omit [DecidableEq P] in
/-- Frames that are ready are no more than an entry can number. -/
theorem FramesReady.le_frames {start : Nat} (ready : m.FramesReady start pages) :
    pages ≤ b.frames := by
  have inside : (m.mram.freeFpList.take pages).map BitVec.toNat ⊆ List.range b.frames := by
    intro number member
    obtain ⟨f, taken, rfl⟩ := List.mem_map.mp member
    exact List.mem_range.mpr (ready.fits f taken)
  have bound := ((ready.nodup.map fun _ _ => BitVec.eq_of_toNat_eq).subperm inside).length_le
  rwa [List.length_map, List.length_range, List.length_take_of_le ready.enough] at bound

/-- Frames that are ready are those that the pages are mapped to. -/
theorem FramesReady.rangeMapped {m m' : Machine .mm32 P} {vmEnd : Build.mm32.Word}
    (ready : m.FramesReady vmEnd.toNat pages)
    (room : vmEnd.toNat + pages * Build.mm32.pageSz < 2 ^ Build.mm32.width)
    (free : m'.mram.freeFpList = m.mram.freeFpList.drop pages)
    (run : vmapPages (some p) vmEnd pages (m.mram.freeFpList.take pages) 0
      (m.allocPagesRange pages).1 = some m') :
    RangeMapped m m' p vmEnd.toNat (vmEnd.toNat + pages * Build.mm32.pageSz) := by
  have count : (m.mram.freeFpList.take pages).length = pages :=
    List.length_take_of_le ready.enough
  -- there are fewer frames than pages in the table
  have few : pages ≤ 2 ^ (Build.mm32.pgnHibit + 1 - Build.mm32.pageBits) :=
    ready.le_frames.trans (by decide)
  have inside : ∀ i < pages,
      vmEnd.toNat + i * Build.mm32.pageSz < 2 ^ Build.mm32.width := by
    intro i low
    have before := Nat.mul_le_mul_right Build.mm32.pageSz (Nat.le_of_lt low)
    omega
  obtain ⟨-, mapped⟩ := vmapPages_entries run (by omega) (by
    intro i low j low' same
    rw [count] at low low'
    rw [Nat.zero_add, Nat.zero_add] at same
    exact index_rangePgn_inj ready.aligned inside few low low' same) ready.fits
  have start := Nat.div_mul_cancel ready.aligned
  have place : ∀ addr, vmEnd.toNat ≤ addr → addr < vmEnd.toNat + pages * Build.mm32.pageSz →
      ∃ i, ∃ low : i < (m.mram.freeFpList.take pages).length,
        addr / Build.mm32.pageSz = vmEnd.toNat / Build.mm32.pageSz + i ∧
        Build.mm32.online (m'.entryAt p addr) = true ∧
        Build.mm32.pagingFpn (m'.entryAt p addr) = (m.mram.freeFpList.take pages)[i] := by
    intro addr above below
    have first := Nat.div_le_div_right (c := Build.mm32.pageSz) above
    have last : addr / Build.mm32.pageSz < vmEnd.toNat / Build.mm32.pageSz + pages := by
      rw [Nat.div_lt_iff_lt_mul Build.mm32.pageSz_pos, Nat.add_mul, start]
      exact below
    have low : addr / Build.mm32.pageSz - vmEnd.toNat / Build.mm32.pageSz <
        (m.mram.freeFpList.take pages).length := by
      rw [count]
      omega
    have entry := mapped _ low
    rw [Nat.zero_add, rangePgn_eq ready.aligned above (below.trans room)] at entry
    refine ⟨_, low, by omega, ?_⟩
    rw [entryAt, pteGetEntry_eq (inTable_pagingPgn _)]
    exact entry
  refine ⟨m.mram.freeFpList.take pages, ?_, ?_, ?_, ?_⟩
  · rw [free, List.take_append_drop]
  · intro addr above below
    obtain ⟨-, -, -, online, -⟩ := place addr above below
    exact online
  · intro addr above below
    obtain ⟨i, low, -, -, fpn⟩ := place addr above below
    rw [fpn]
    exact List.getElem_mem low
  · intro addr addr' above below above' below' same
    obtain ⟨i, low, page, -, fpn⟩ := place addr above below
    obtain ⟨j, low', page', -, fpn'⟩ := place addr' above' below'
    rw [fpn, fpn'] at same
    rw [page, page', ready.nodup.getElem_inj_iff.mp same]

end MapRam

/-! ## A growth, as a whole -/

/-- The overlap check turns the grown area down. -/
def GrowthRefused (mmap : List (Vma b)) (i : Nat) (area : Vma b) (incSz : b.Word) : Prop :=
  area.vmEnd + b.pageAlignsz incSz ≤ area.vmStart ∨
    ∃ j other, j ≠ i ∧ mmap[j]? = some other ∧
      area.vmStart < other.vmEnd ∧ other.vmStart < area.vmEnd + b.pageAlignsz incSz

/-- The bounds stay within a word, and frames are ready for the pages, if there are any. -/
structure GrowthServed (m : Machine b P) (area : Vma b) (incSz : b.Word) : Prop where
  room : area.vmEnd.toNat + b.pagesFor incSz * b.pageSz < 2 ^ b.width
  sbrk : area.sbrk.toNat + incSz.toNat ≤ area.vmEnd.toNat + b.pagesFor incSz * b.pageSz
  frames : 0 < b.pagesFor incSz → m.FramesReady area.vmEnd.toNat (b.pagesFor incSz)

/-- The area at place `i`, once `area`, has grown in full. -/
def GrownBy (m m' : Machine b P) (p : P) (i : Nat) (area : Vma b) (incSz : b.Word) : Prop :=
  ∃ grown, (m'.mm p).mmap[i]? = some grown ∧
    (∃ pages, IsLeast { k | incSz.toNat ≤ k * b.pageSz } pages ∧
      grown.vmEnd.toNat = area.vmEnd.toNat + pages * b.pageSz) ∧
    grown.sbrk.toNat = area.sbrk.toNat + incSz.toNat ∧ grown.sbrk ≤ grown.vmEnd ∧
    RangeMapped m m' p area.vmEnd.toNat grown.vmEnd.toNat

/-- Either all of the growth is done, or nothing is changed. -/
def AllOrNothing (m m' : Machine b P) (p : P) (i : Nat) (area : Vma b) (incSz : b.Word)
    (ret : Int) : Prop :=
  (ret = 0 ∧ GrownBy m m' p i area incSz) ∨ (ret < 0 ∧ m' = m)

section Growth

variable {m : Machine b P} {p : P} {vmaid : Int} {i : Nat} {area : Vma b} {incSz : b.Word}

/-- The machine on which `vm_map_ram` is called. -/
def raised (m : Machine b P) (p : P) (i : Nat) (incSz : b.Word) : Machine b P :=
  m.setMm p { m.mm p with mmap := (m.mm p).mmap.modify i (grow incSz) }

omit [DecidableEq P] in
theorem validateOverlapVmArea_neg_iff {mmap : List (Vma b)} (place : mmap[i]? = some area) :
    validateOverlapVmArea (mmap.modify i (grow incSz)) i < 0 ↔
      GrowthRefused mmap i area incSz := by
  have here : (mmap.modify i (grow incSz))[i]? = some (grow incSz area) := by
    rw [List.getElem?_modify_eq, place]
    rfl
  have others : ∀ (other : Vma b) j, j ≠ i →
      ((mmap.modify i (grow incSz))[j]? = some other ↔ mmap[j]? = some other) := by
    intro other j away
    rw [List.getElem?_modify_ne _ _ away.symm]
  rw [validateOverlapVmArea, here, GrowthRefused]
  dsimp only [grow]
  split
  next empty => simp [empty]
  next proper =>
    split
    next overlap =>
      refine ⟨fun _ => .inr ?_, fun _ => by decide⟩
      obtain ⟨⟨other, j⟩, member, meets⟩ := List.any_eq_true.mp overlap
      rw [Bool.and_eq_true, bne_iff_ne, decide_eq_true_eq] at meets
      have entry := (others other j meets.1).mp (List.mem_zipIdx_iff_getElem?.mp member)
      exact ⟨j, other, meets.1, entry, meets.2⟩
    next clear =>
      refine ⟨fun wrong => absurd wrong (by decide), fun refused => absurd ?_ clear⟩
      obtain empty | ⟨j, other, away, member, meets⟩ := refused
      · exact absurd empty proper
      · have entry : (other, j) ∈ (mmap.modify i (grow incSz)).zipIdx :=
          List.mem_zipIdx_iff_getElem?.mpr ((others other j away).mpr member)
        refine List.any_eq_true.mpr ⟨(other, j), entry, ?_⟩
        rw [Bool.and_eq_true, bne_iff_ne, decide_eq_true_eq]
        exact ⟨away, meets⟩

/-- What the check turns down leaves no trace, the rest is left to `vm_map_ram`. -/
theorem incVmaLimitBy_eq (krnl : m.krnlMm = some p) (callerMm : Option P) (incSz : b.Word)
    (found : getVmaByNum (m.mm p).mmap vmaid = some (some i))
    (place : (m.mm p).mmap[i]? = some area) :
    (GrowthRefused (m.mm p).mmap i area incSz →
      m.incVmaLimitBy callerMm vmaid incSz = some (m, -1)) ∧
    (¬ GrowthRefused (m.mm p).mmap i area incSz → m.incVmaLimitBy callerMm vmaid incSz =
      ((m.raised p i incSz).vmMapRamBy callerMm area.vmEnd
        (incnumpage (b.pageAlignsz incSz))).map fun (m, _) => (m, 0)) := by
  rw [← validateOverlapVmArea_neg_iff place]
  constructor
  · intro refused
    simp only [incVmaLimitBy, krnl, found, place, Option.bind_some, if_pos refused]
  · intro passed
    simp only [incVmaLimitBy, krnl, found, place, Option.bind_some, if_neg passed]
    rfl

omit [DecidableEq P] in
/-- The growth in terms of the pages that the size takes. -/
theorem grownBy_iff {m' : Machine b P} (grown : (m'.mm p).mmap[i]? = some (grow incSz area)) :
    GrownBy m m' p i area incSz ↔
      area.vmEnd.toNat + b.pagesFor incSz * b.pageSz < 2 ^ b.width ∧
        area.sbrk.toNat + incSz.toNat ≤ area.vmEnd.toNat + b.pagesFor incSz * b.pageSz ∧
        RangeMapped m m' p area.vmEnd.toNat
          (area.vmEnd.toNat + b.pagesFor incSz * b.pageSz) := by
  constructor
  · rintro ⟨area', here, ⟨pages, least, vmEnd⟩, sbrk, below, mapped⟩
    obtain rfl := Option.some.inj (grown.symm.trans here)
    obtain rfl := least.unique (pagesFor_isLeast incSz)
    rw [vmEnd] at mapped
    refine ⟨(toNat_add_pageAlignsz _).mp vmEnd, ?_, mapped⟩
    rw [← sbrk, ← vmEnd]
    exact below
  · rintro ⟨room, below, mapped⟩
    have vmEnd := (toNat_add_pageAlignsz area.vmEnd).mpr room
    have sbrk : (area.sbrk + incSz).toNat = area.sbrk.toNat + incSz.toNat := by
      rw [BitVec.toNat_add]
      exact Nat.mod_eq_of_lt (below.trans_lt room)
    refine ⟨_, grown, ⟨_, pagesFor_isLeast incSz, vmEnd⟩, sbrk, ?_, ?_⟩
    · show (area.sbrk + incSz).toNat ≤ (area.vmEnd + b.pageAlignsz incSz).toNat
      rw [sbrk, vmEnd]
      exact below
    · show RangeMapped m m' p area.vmEnd.toNat (area.vmEnd + b.pageAlignsz incSz).toNat
      rw [vmEnd]
      exact mapped

/-- What `vm_map_ram` has mapped, for both builds. -/
theorem rangeMapped_raised_iff (builds : b = .mm32 ∨ b = .mm64) {m' : Machine b P}
    (room : area.vmEnd.toNat + b.pagesFor incSz * b.pageSz < 2 ^ b.width)
    (free : m'.mram.freeFpList = if b.refuses then
      m.mram.freeFpList.drop (incnumpage (b.pageAlignsz incSz)) else m.mram.freeFpList)
    (run : b.refuses = true → incnumpage (b.pageAlignsz incSz) ≤ m.mram.freeFpList.length →
      vmapPages (some p) area.vmEnd (incnumpage (b.pageAlignsz incSz))
        (m.mram.freeFpList.take (incnumpage (b.pageAlignsz incSz))) 0
        ((m.raised p i incSz).allocPagesRange (incnumpage (b.pageAlignsz incSz))).1 = some m') :
    RangeMapped m m' p area.vmEnd.toNat
        (area.vmEnd.toNat + b.pagesFor incSz * b.pageSz) ↔
      (0 < b.pagesFor incSz → m.FramesReady area.vmEnd.toNat (b.pagesFor incSz)) := by
  have count : b.refuses = true → incnumpage (b.pageAlignsz incSz) = b.pagesFor incSz := by
    intro maps
    obtain rfl | rfl := builds
    · rw [incnumpage_of_mm32, toNat_pageAlignsz (Nat.lt_of_le_of_lt (Nat.le_add_left _ _) room)]
      exact Nat.mul_div_cancel _ Build.mm32.pageSz_pos
    · cases maps
  have free' : m'.mram.freeFpList = if b.refuses then
      m.mram.freeFpList.drop (b.pagesFor incSz) else m.mram.freeFpList := by
    rw [free]
    split
    next maps => rw [count maps]
    next => rfl
  constructor
  · exact fun mapped nonempty => mapped.framesReady nonempty free'
  · intro ready
    obtain none | nonempty := Nat.eq_zero_or_pos (b.pagesFor incSz)
    · refine ⟨[], ?_, MappedTo.of_le (by rw [none]; omega) _⟩
      rw [free', none]
      simp
    · obtain ⟨maps, aligned, enough, nodup, fits⟩ := ready nonempty
      rw [count maps] at run
      obtain rfl | rfl := builds
      · have ready : (m.raised p i incSz).FramesReady area.vmEnd.toNat _ :=
          ⟨maps, aligned, enough, nodup, fits⟩
        exact ready.rangeMapped room free' (run maps enough)
      · cases maps

/-- For both builds, every `mm` and every area on its list: `inc_vma_limit` is all or nothing
exactly where the overlap check turns it down, or where the bounds stay within a word and there
are frames for its pages, which only the 32-bit build takes. -/
theorem incVmaLimit_all_or_nothing_iff (builds : b = .mm32 ∨ b = .mm64) (krnl : m.krnlMm = some p)
    (found : getVmaByNum (m.mm p).mmap vmaid = some (some i))
    (place : (m.mm p).mmap[i]? = some area) :
    (∃ m' ret, m.incVmaLimitBy (some p) vmaid incSz = some (m', ret) ∧
        AllOrNothing m m' p i area incSz ret) ↔
      GrowthRefused (m.mm p).mmap i area incSz ∨ m.GrowthServed area incSz := by
  obtain ⟨turnedDown, passed⟩ := incVmaLimitBy_eq krnl (some p) incSz found place
  by_cases refused : GrowthRefused (m.mm p).mmap i area incSz
  · exact ⟨fun _ => .inl refused,
      fun _ => ⟨m, -1, turnedDown refused, .inr ⟨by decide, rfl⟩⟩⟩
  · obtain ⟨m', ret, run, mmap, free, mapped⟩ := vmMapRamBy_returns builds (m.raised p i incSz) p
      area.vmEnd (incnumpage (b.pageAlignsz incSz))
    have done : m.incVmaLimitBy (some p) vmaid incSz = some (m', 0) := by
      rw [passed refused, run]
      rfl
    have grown : (m'.mm p).mmap[i]? = some (grow incSz area) := by
      rw [mmap, raised, mm_setMm_self, List.getElem?_modify_eq, place]
      rfl
    have whole : (∃ m' ret, m.incVmaLimitBy (some p) vmaid incSz = some (m', ret) ∧
        AllOrNothing m m' p i area incSz ret) ↔ GrownBy m m' p i area incSz := by
      rw [done]
      simp [AllOrNothing]
    have ranges := fun room => rangeMapped_raised_iff (m := m) (i := i) builds room free mapped
    rw [whole, grownBy_iff grown, or_iff_right refused]
    constructor
    · rintro ⟨room, below, range⟩
      exact ⟨room, below, (ranges room).mp range⟩
    · rintro ⟨room, below, frames⟩
      exact ⟨room, below, (ranges room).mpr frames⟩

/-- Without a `caller->mm`, mapping a frame faults. -/
theorem vmMapRamBy_none (builds : b = .mm32 ∨ b = .mm64) (m : Machine b P) (vmEnd : b.Word)
    (pages : Nat) : (m.vmMapRamBy none vmEnd pages).map Prod.fst = m.vmMapRam pages := by
  have fine := zero_ne_outOfFrames builds
  by_cases maps : b.refuses = true
  · rw [vmMapRamBy, vmMapRam, if_pos maps, if_pos maps, allocPagesRange_eq]
    dsimp only
    by_cases none : pages = 0
    · rw [none, List.take_zero, List.drop_zero, if_pos (Nat.zero_le _), if_neg fine]
      rfl
    · by_cases enough : pages ≤ m.mram.freeFpList.length
      · obtain ⟨fpn, rest, frames⟩ := List.exists_cons_of_length_pos
          (show 0 < (m.mram.freeFpList.take pages).length by rw [List.length_take]; omega)
        rw [if_pos enough, if_neg fine, if_neg none, if_pos enough, frames, vmapPageRange, vmapPages,
          if_pos (Nat.pos_of_ne_zero none)]
        rfl
      · rw [if_neg enough, if_pos rfl, if_neg none, if_neg enough,
          List.drop_eq_nil_of_le (by omega)]
        rfl
  · rw [vmMapRamBy, vmMapRam, if_neg maps, if_neg maps]
    dsimp only
    rw [if_neg fine]
    rfl

omit [DecidableEq P] in
/-- Only a build that maps looks at the number of pages. -/
theorem vmMapRam_congr {m : Machine b P} {pages pages' : Nat}
    (same : b.refuses = true → pages = pages') : m.vmMapRam pages = m.vmMapRam pages' := by
  by_cases maps : b.refuses = true
  · rw [same maps]
  · rw [vmMapRam, vmMapRam, if_neg maps, if_neg maps]

/-- What the system call does, which has no `caller->mm`. -/
theorem incVmaLimitBy_none (builds : b = .mm32 ∨ b = .mm64) (m : Machine b P) (vmaid : Int)
    (incSz : b.Word) : m.incVmaLimitBy none vmaid incSz = m.incVmaLimit vmaid incSz := by
  rw [incVmaLimitBy, incVmaLimit]
  cases krnl : m.krnlMm with
  | none => rfl
  | some owner =>
      dsimp only
      cases found : getVmaByNum (m.mm owner).mmap vmaid with
      | none => rfl
      | some place =>
          cases place with
          | none => rfl
          | some i =>
              obtain ⟨area, place⟩ := getElem?_of_getVmaByNum found
              have pages : b.refuses = true → incnumpage (b.pageAlignsz incSz) =
                  (b.pageAlignsz incSz).toNat / b.pageSz := by
                intro maps
                obtain rfl | rfl := builds
                · exact incnumpage_of_mm32 _
                · cases maps
              dsimp only
              rw [place, Option.bind_some]
              show (if validateOverlapVmArea ((m.mm owner).mmap.modify i (grow incSz)) i < 0 then _
                else ((m.raised owner i incSz).vmMapRamBy none area.vmEnd
                  (incnumpage (b.pageAlignsz incSz))).map fun r => (r.1, 0)) =
                if validateOverlapVmArea ((m.mm owner).mmap.modify i (grow incSz)) i < 0 then _
                else ((m.raised owner i incSz).vmMapRam
                  ((b.pageAlignsz incSz).toNat / b.pageSz)).map fun m => (m, 0)
              rw [← vmMapRam_congr pages, ← vmMapRamBy_none builds _ area.vmEnd, Option.map_map]
              rfl

end Growth

/-- A machine fresh from `boot` with two frames of RAM, whose kernel `mm` is set. -/
def kernelBoot (b : Build) : Machine b Unit :=
  { boot (.init b (2 * b.pageSz) true) (.init b (2 * b.pageSz) true) with krnlMm := some () }

theorem incVmaLimit_all_or_nothing_onePage : ∃ m' ret,
    (kernelBoot .mm32).incVmaLimitBy (some ()) 0 256 = some (m', ret) ∧
      AllOrNothing (kernelBoot .mm32) m' () 0 ⟨0, 0, 0, 0, [⟨0, 0⟩]⟩ 256 ret := by
  have fits : ∀ f ∈ (kernelBoot .mm32).mram.freeFpList.take 1, f.toNat < Build.mm32.frames := by
    intro f member
    rw [List.mem_singleton.mp (show f ∈ [0] from member)]
    decide
  have frames : (kernelBoot .mm32).FramesReady 0 1 :=
    ⟨rfl, by decide, by decide, List.nodup_singleton _, fits⟩
  exact (incVmaLimit_all_or_nothing_iff (.inl rfl) rfl rfl rfl).mpr
    (.inr ⟨by decide, by decide, fun _ => frames⟩)

/-- In the MM64 build a growth from an empty area succeeds, and maps nothing. -/
theorem growth_maps_nothing : ¬ ∀ (m : Machine .mm64 Unit) (vmaid : Int) (i : Nat) (area : Vma .mm64)
    (incSz : Build.mm64.Word), m.krnlMm = some () →
      getVmaByNum (m.mm ()).mmap vmaid = some (some i) → (m.mm ()).mmap[i]? = some area →
      ∃ m' ret, m.incVmaLimitBy (some ()) vmaid incSz = some (m', ret) ∧
        AllOrNothing m m' () i area incSz ret := by
  intro all
  let area : Vma .mm64 := ⟨0, 0, 0, 0, [⟨0, 0⟩]⟩
  obtain ⟨m', ret, done, outcome⟩ := all (kernelBoot .mm64) 0 0 area 4096 rfl rfl rfl
  obtain ⟨same, code⟩ : (kernelBoot .mm64).raised () 0 4096 = m' ∧ (0 : Int) = ret :=
    Prod.mk.inj (Option.some.inj done)
  obtain ⟨-, whole⟩ | ⟨negative, -⟩ := outcome
  · have grown : (m'.mm ()).mmap[0]? = some (grow 4096 area) := by
      rw [← same]
      rfl
    obtain ⟨-, -, mapped⟩ := (grownBy_iff grown).mp whole
    have ready := mapped.framesReady (by decide) (by rw [← same]; rfl)
    exact absurd ready.maps (by decide)
  · omega

end Machine

end SimpleOs.Mem
