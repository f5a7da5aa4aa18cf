import SimpleOs.Mem.Exclusive

/-!
# Releasing the memory of a process

`free_pcb_memph` walks the FIFO list and puts back what the entry of each page names,
which it copies to a `uint32_t` first. A page that was swapped out has left the list, and
in the MM64 build no flag survives the copy.
-/

namespace SimpleOs.Mem

open Custody (occurrences)

variable {b : Build} {P : Type}

/-- `uint32_t pte`, and back to an operand of the masks. -/
def Build.pteCopy (b : Build) (pte : b.Word) : b.Word := (pte.setWidth 32).setWidth b.width

theorem pteCopy_of_narrow (narrow : b.width ≤ 32) (pte : b.Word) : b.pteCopy pte = pte := by
  have low : pte.toNat < 2 ^ 32 := pte.isLt.trans_le (Nat.pow_le_pow_right (by decide) narrow)
  apply BitVec.eq_of_toNat_eq
  rw [Build.pteCopy, BitVec.toNat_setWidth, BitVec.toNat_setWidth, Nat.mod_eq_of_lt low,
    Nat.mod_eq_of_lt pte.isLt]

/-- A flag above bit 31 is lost. -/
theorem pagePresent_pteCopy (wide : 32 ≤ b.present) (pte : b.Word) :
    b.pagePresent (b.pteCopy pte) = false := by
  rw [b.pagePresent_eq, Build.pteCopy, BitVec.getLsbD_setWidth, BitVec.getLsbD_setWidth,
    decide_eq_false (Nat.not_lt.mpr wide), Bool.false_and, Bool.and_false]

theorem pageSwapped_pteCopy (wide : 32 ≤ b.swapped) (pte : b.Word) :
    b.pageSwapped (b.pteCopy pte) = false := by
  rw [b.pageSwapped_eq, Build.pteCopy, BitVec.getLsbD_setWidth, BitVec.getLsbD_setWidth,
    decide_eq_false (Nat.not_lt.mpr wide), Bool.false_and, Bool.and_false]

namespace Machine

/-- The body of the loop, for one page of the list. -/
def releasePage (m : Machine b P) (caller : P) (pgn : b.Word) : Machine b P :=
  let pte := b.pteCopy ((m.mm caller).pteGetEntry pgn)
  if b.pagePresent pte then { m with mram := m.mram.putFreefp (b.pagingFpn pte) }
  else if b.pageSwapped pte then
    { m with activeMswp := m.activeMswp.putFreefp (b.pagingSwp pte) }
  else m

/-- `free_pcb_memph`. At the end of a wild list the code dereferences what is no page. -/
def freePcbMemph (m : Machine b P) (caller : P) : Option (Machine b P × Int) :=
  if (m.mm caller).fifoPgn.wild then none
  else some ((m.mm caller).fifoPgn.pgns.foldl (fun m pgn => m.releasePage caller pgn) m, 0)

variable {m m' : Machine b P} {p : P}

/-- Where entries have 32 bits, the walk puts back the frame of every page on the list, the
one it comes to first as the last. -/
theorem foldl_releasePage (narrow : b.width ≤ 32) {pgns : List b.Word}
    (listed : ∀ pgn ∈ pgns, b.pagePresent ((m.mm p).pteGetEntry pgn) = true) :
    pgns.foldl (fun m pgn => m.releasePage p pgn) m = { m with mram := { m.mram with
      freeFpList := (pgns.map fun pgn => b.pagingFpn ((m.mm p).pteGetEntry pgn)).reverse ++
        m.mram.freeFpList } } := by
  induction pgns generalizing m with
  | nil => rfl
  | cons pgn pgns ih =>
      obtain ⟨here, later⟩ := List.forall_mem_cons.mp listed
      have first : m.releasePage p pgn =
          { m with mram := m.mram.putFreefp (b.pagingFpn ((m.mm p).pteGetEntry pgn)) } := by
        simp only [releasePage, pteCopy_of_narrow narrow, here, if_true]
      have rest := ih
        (m := { m with mram := m.mram.putFreefp (b.pagingFpn ((m.mm p).pteGetEntry pgn)) }) later
      rw [List.foldl_cons, first, rest]
      simp [Memphy.putFreefp]

/-- Where the flags lie above bit 31, the walk puts back nothing. -/
theorem foldl_releasePage_of_wide (wide : 32 ≤ b.swapped) (pgns : List b.Word) :
    pgns.foldl (fun m pgn => m.releasePage p pgn) m = m := by
  induction pgns with
  | nil => rfl
  | cons pgn pgns ih =>
      have present := wide.trans b.wellFormed.present.le
      have first : m.releasePage p pgn = m := by
        simp only [releasePage, pagePresent_pteCopy present, pageSwapped_pteCopy wide,
          Bool.false_eq_true, if_false]
      rw [List.foldl_cons, first, ih]

/-- A page that is online holds the frame its entry names. -/
theorem held_frameOf (m : Machine b P) (p : P) (i : Fin (2 ^ b.indexBits)) :
    m.held b.frameOf (p, i) =
      if b.online ((m.mm p).pgd i) then [b.pagingFpn ((m.mm p).pgd i)] else [] := rfl

/-- What the entries of a process hold, all pages together. -/
def pageFrames (holds : b.Word → List b.Word) (m : Machine b P) (p : P) : List b.Word :=
  (List.finRange _).flatMap fun i => m.held holds (p, i)

theorem mem_pageFrames {holds : b.Word → List b.Word} {f : b.Word} :
    f ∈ pageFrames holds m p ↔ ∃ i, f ∈ m.held holds (p, i) := by
  simp [pageFrames]

theorem pageFrames_eq_nil {holds : b.Word → List b.Word} :
    pageFrames holds m p = [] ↔ ∀ i, m.held holds (p, i) = [] := by
  simp [pageFrames]

/-- The free lists have gained what the entries of the process hold, each frame once, and have
no frame that the entry of another process holds. -/
structure ReleasedExactly (m m' : Machine b P) (p : P) : Prop where
  ram : m'.mram.freeFpList.Perm (m.mram.freeFpList ++ pageFrames b.frameOf m p)
  swap : m'.activeMswp.freeFpList.Perm (m.activeMswp.freeFpList ++ pageFrames b.swapOf m p)
  others : ∀ q, q ≠ p → ∀ i, (∀ f ∈ m.held b.frameOf (q, i), f ∉ m'.mram.freeFpList) ∧
    ∀ f ∈ m.held b.swapOf (q, i), f ∉ m'.activeMswp.freeFpList

section Exclusive

variable [Fintype P] {n k : Nat}

theorem FramesExclusive.ramConserved (exclusive : FramesExclusive n k m) :
    Conserved n b.frameOf m.mram.freeFpList [] m := by
  intro f
  simpa using Custody.append_flatMap_perm_iff.mp exclusive.ram f

theorem FramesExclusive.swapConserved (exclusive : FramesExclusive n k m) :
    Conserved k b.swapOf m.activeMswp.freeFpList [] m := by
  intro f
  simpa using Custody.append_flatMap_perm_iff.mp exclusive.swap f

/-- Frames of other processes are not among those that the entries of a process hold, nor free. -/
theorem Conserved.not_gained {holds : b.Word → List b.Word} {free free' : List b.Word}
    (kept : Conserved n holds free [] m) (fits : n ≤ 2 ^ b.width)
    (gained : free'.Perm (free ++ pageFrames holds m p)) {q : P} (other : q ≠ p)
    (i : Fin (2 ^ b.indexBits)) : ∀ f ∈ m.held holds (q, i), f ∉ free' := by
  classical
  intro f member there
  obtain free | own := List.mem_append.mp (gained.subset there)
  · exact kept.not_free fits member free
  · obtain ⟨j, own⟩ := mem_pageFrames.mp own
    have same := (kept.exclusive fits).unique member own
    exact other (congrArg Prod.fst same)

/-- A list that gains nothing gains no frames. -/
theorem perm_append_self (free : List b.Word) {own : List b.Word} :
    free.Perm (free ++ own) ↔ own = [] := by
  constructor
  · intro same
    have count := same.length_eq
    rw [List.length_append] at count
    exact List.length_eq_zero_iff.mp (by omega)
  · rintro rfl
    rw [List.append_nil]

/-- With nothing put back, all is released where there is nothing to release. -/
theorem FramesExclusive.released_self_iff (exclusive : FramesExclusive n k m)
    (ramFits : n ≤ 2 ^ b.width) (swapFits : k ≤ 2 ^ b.width) :
    ReleasedExactly m m p ↔ pageFrames b.frameOf m p = [] ∧ pageFrames b.swapOf m p = [] := by
  rw [← perm_append_self m.mram.freeFpList,
    ← perm_append_self m.activeMswp.freeFpList]
  constructor
  · exact fun released => ⟨released.ram, released.swap⟩
  · rintro ⟨ram, swap⟩
    exact ⟨ram, swap, fun q other i =>
      ⟨exclusive.ramConserved.not_gained ramFits ram other i,
        exclusive.swapConserved.not_gained swapFits swap other i⟩⟩

/-- A frame of a process is behind one of its entries. -/
theorem FramesExclusive.index_eq (exclusive : FramesExclusive n k m) (ramFits : n ≤ 2 ^ b.width)
    {f : b.Word} {i j : Fin (2 ^ b.indexBits)} (here : f ∈ m.held b.frameOf (p, i))
    (there : f ∈ m.held b.frameOf (p, j)) : i = j := by
  classical
  exact congrArg Prod.snd ((exclusive.ramConserved.exclusive ramFits).unique here there)

/-- No frame is twice among those of a process. -/
theorem FramesExclusive.nodup_pageFrames (exclusive : FramesExclusive n k m)
    (ramFits : n ≤ 2 ^ b.width) : (pageFrames b.frameOf m p).Nodup := by
  refine List.nodup_flatMap.mpr ⟨?_, (List.nodup_finRange _).pairwise_of_forall_ne ?_⟩
  · intro i _
    rw [held_frameOf]
    split
    · exact List.nodup_singleton _
    · exact List.nodup_nil
  · intro i _ j _ other f here there
    exact other (exclusive.index_eq ramFits here there)

/-- The frames of the pages on the list are those of the process where all its pages in RAM are
listed. -/
theorem FramesExclusive.listed_frames_iff (exclusive : FramesExclusive n k m)
    (ramFits : n ≤ 2 ^ b.width) (refuses : b.refuses = true) :
    ((m.mm p).fifoPgn.pgns.map fun pgn => b.pagingFpn ((m.mm p).pteGetEntry pgn)).Perm
        (pageFrames b.frameOf m p) ↔
      ∀ i, b.online ((m.mm p).pgd i) = true →
        ∃ pgn ∈ (m.mm p).fifoPgn.pgns, b.index pgn = i := by
  obtain ⟨-, nodup, listed⟩ := exclusive.fifo p
  have online : ∀ pgn ∈ (m.mm p).fifoPgn.pgns, b.online ((m.mm p).pteGetEntry pgn) = true := by
    intro pgn member
    simpa [Build.online] using listed pgn member
  have entry : ∀ pgn ∈ (m.mm p).fifoPgn.pgns,
      (m.mm p).pteGetEntry pgn = (m.mm p).pgd (b.index pgn) := fun pgn member =>
    pteGetEntry_eq (inTable_of_online (online pgn member))
  have once : ∀ i j, b.online ((m.mm p).pgd i) = true → b.online ((m.mm p).pgd j) = true →
      b.pagingFpn ((m.mm p).pgd i) = b.pagingFpn ((m.mm p).pgd j) → i = j := by
    intro i j here there same
    have member := mem_held_of_online here
    rw [same] at member
    exact exclusive.index_eq ramFits member (mem_held_of_online there)
  constructor
  · intro perm i here
    have own : b.pagingFpn ((m.mm p).pgd i) ∈ pageFrames b.frameOf m p :=
      mem_pageFrames.mpr ⟨i, mem_held_of_online here⟩
    obtain ⟨pgn, member, same⟩ := List.mem_map.mp (perm.symm.subset own)
    have there := online pgn member
    rw [entry pgn member] at same there
    exact ⟨pgn, member, once _ _ there here same⟩
  · intro all
    have distinct : ((m.mm p).fifoPgn.pgns.map fun pgn =>
        b.pagingFpn ((m.mm p).pteGetEntry pgn)).Nodup := by
      apply nodup.map_on
      intro pgn member pgn' member' same
      have here := online pgn member
      have there := online pgn' member'
      have inTable := inTable_of_online here
      have inTable' := inTable_of_online there
      rw [entry pgn member] at same here
      rw [entry pgn' member'] at same there
      exact index_injOn refuses inTable inTable' (once _ _ here there same)
    apply (List.perm_ext_iff_of_nodup distinct (exclusive.nodup_pageFrames ramFits)).mpr
    intro f
    rw [List.mem_map, mem_pageFrames]
    constructor
    · rintro ⟨pgn, member, rfl⟩
      have here := online pgn member
      rw [entry pgn member] at here ⊢
      exact ⟨b.index pgn, mem_held_of_online here⟩
    · rintro ⟨i, held⟩
      rw [held_frameOf] at held
      split at held
      next here =>
        obtain ⟨pgn, member, rfl⟩ := all i here
        refine ⟨pgn, member, ?_⟩
        rw [entry pgn member, List.mem_singleton.mp held]
      next => cases held

/-- Where entries have 32 bits, all is released where every page in RAM is listed and none is
in swap. -/
theorem FramesExclusive.released_iff_of_narrow (exclusive : FramesExclusive n k m)
    (ramFits : n ≤ 2 ^ b.width) (swapFits : k ≤ 2 ^ b.width) (narrow : b.width ≤ 32)
    (refuses : b.refuses = true) :
    (∃ m', m.freePcbMemph p = some (m', 0) ∧ ReleasedExactly m m' p) ↔
      (∀ i, b.online ((m.mm p).pgd i) = true → ∃ pgn ∈ (m.mm p).fifoPgn.pgns, b.index pgn = i) ∧
        pageFrames b.swapOf m p = [] := by
  obtain ⟨tame, -, listed⟩ := exclusive.fifo p
  have walk := foldl_releasePage narrow fun pgn member => (listed pgn member).1
  rw [← exclusive.listed_frames_iff ramFits refuses, freePcbMemph, tame, walk]
  simp only [Bool.false_eq_true, if_false, Option.some.injEq, Prod.mk.injEq, and_true,
    exists_eq_left']
  have gained : ∀ free own own' : List b.Word,
      (own.reverse ++ free).Perm (free ++ own') ↔ own.Perm own' := by
    intro free own own'
    rw [List.perm_append_comm.congr_left, List.perm_append_left_iff]
    exact (List.reverse_perm own).congr_left own'
  constructor
  · intro released
    exact ⟨(gained _ _ _).mp released.ram, (perm_append_self _).mp released.swap⟩
  · rintro ⟨frames, none⟩
    have ram := (gained m.mram.freeFpList _ _).mpr frames
    have swap := (perm_append_self m.activeMswp.freeFpList).mpr none
    exact ⟨ram, swap, fun q other i =>
      ⟨exclusive.ramConserved.not_gained ramFits ram other i,
        exclusive.swapConserved.not_gained swapFits swap other i⟩⟩

theorem FramesExclusive.released_iff_of_wide (exclusive : FramesExclusive n k m)
    (ramFits : n ≤ 2 ^ b.width) (swapFits : k ≤ 2 ^ b.width) (wide : 32 ≤ b.swapped) :
    (∃ m', m.freePcbMemph p = some (m', 0) ∧ ReleasedExactly m m' p) ↔
      pageFrames b.frameOf m p = [] ∧ pageFrames b.swapOf m p = [] := by
  obtain ⟨tame, -⟩ := exclusive.fifo p
  rw [freePcbMemph, tame, foldl_releasePage_of_wide wide,
    ← exclusive.released_self_iff ramFits swapFits]
  simp

/-- For both builds and every state in which each frame is in one place: `free_pcb_memph` puts
back what the process holds exactly where it holds nothing in swap, and every page it has in RAM
is on its FIFO list and has its `PRESENT` flag below bit 32. -/
theorem released_exactly_iff (builds : b = .mm32 ∨ b = .mm64) (ramFits : n ≤ 2 ^ b.width)
    (swapFits : k ≤ 2 ^ b.width) (exclusive : FramesExclusive n k m) (p : P) :
    (∃ m', m.freePcbMemph p = some (m', 0) ∧ ReleasedExactly m m' p) ↔
      ∀ i, b.pageSwapped ((m.mm p).pgd i) = false ∧ (b.online ((m.mm p).pgd i) = true →
        b.present < 32 ∧ ∃ pgn ∈ (m.mm p).fifoPgn.pgns, b.index pgn = i) := by
  have swap : pageFrames b.swapOf m p = [] ↔ ∀ i, b.pageSwapped ((m.mm p).pgd i) = false := by
    simp [pageFrames_eq_nil, held, Build.swapOf]
  have ram : pageFrames b.frameOf m p = [] ↔ ∀ i, b.online ((m.mm p).pgd i) = false := by
    simp [pageFrames_eq_nil, held, Build.frameOf]
  rw [forall_and, ← swap]
  obtain rfl | rfl := builds
  · rw [exclusive.released_iff_of_narrow ramFits swapFits (by decide) rfl, and_comm]
    have low : Build.mm32.present < 32 := by decide
    simp only [low, true_and]
  · rw [exclusive.released_iff_of_wide ramFits swapFits (by decide), ram, and_comm]
    have high : ¬ Build.mm64.present < 32 := by decide
    simp only [high, false_and, imp_false, Bool.not_eq_true]

end Exclusive

/-- One process on two frames of RAM and two of swap. -/
def twoFrames : Machine .mm32 Unit := boot (.init .mm32 512 true) (.init .mm32 512 true)

/-- A page that was touched is released. -/
theorem released_exactly_onePage : ∃ m fpn m',
    twoFrames.pgGetpage () 0 (fun _ => 0) = some (m, some fpn) ∧
      m.freePcbMemph () = some (m', 0) ∧ ReleasedExactly m m' () := by
  obtain ⟨taken, took, entries⟩ : ∃ taken, twoFrames.takeFrame () (fun _ => 0) =
      some (taken, some 0) ∧ ∀ i, (taken.mm ()).pgd i = 0 := ⟨_, rfl, fun _ => rfl⟩
  have absent : Build.mm32.pagePresent ((twoFrames.mm ()).pteGetEntry 0) = false :=
    Build.mm32.pagePresent_zero
  have inTable : Build.mm32.outOfTable 0 = false := rfl
  have kept : Kept 2 2 twoFrames := kept_boot rfl rfl
  obtain ⟨fpn, got⟩ : ∃ fpn, twoFrames.pgGetpage () 0 (fun _ => 0) =
      some ((taken.fillFrame ((twoFrames.mm ()).pteGetEntry 0) 0 fun _ => 0).mapPage () 0 0,
        some fpn) := by
    simp only [pgGetpage, absent, took, Bool.false_eq_true, if_false]
    exact ⟨_, rfl⟩
  have after := kept.pgGetpage (fun _ => kept.frameFits (by decide) (by decide)) inTable got
  have proper : Proper twoFrames := fun _ => rfl
  obtain ⟨m', done, released⟩ := (released_exactly_iff (.inl rfl) (by decide) (by decide)
    (after.framesExclusive (proper.pgGetpage got)) ()).mpr (by
      intro i
      rw [pgd_mapPage inTable]
      split
      next here =>
        refine ⟨Build.mm32.pageSwapped_fpnEntry _ _, fun _ => ⟨by decide, 0, ?_, ?_⟩⟩
        · exact List.mem_cons_self
        · exact (congrArg Prod.snd here).symm
      next =>
        rw [mm_fillFrame, entries]
        exact ⟨Build.mm32.pageSwapped_zero, fun online => absurd online (by simp [Build.online])⟩)
  exact ⟨_, _, m', got, done, released⟩

/-- The page that was swapped out keeps its swap frame. -/
theorem release_forgets_swap : ¬ ∀ (calls : List (MemCall .mm32 Unit)) (m : Machine .mm32 Unit),
    (memSystem .mm32 Unit).run twoFrames calls = some m → FramesExclusive 2 2 m →
      ∃ m', m.freePcbMemph () = some (m', 0) ∧ ReleasedExactly m m' () := by
  intro all
  have replay : ((memSystem .mm32 Unit).run twoFrames threePages).any (fun m =>
        decide (m.activeMswp.freeFpList = [1]) &&
          decide (0 ∈ Build.mm32.swapOf ((m.mm ()).pgd 0)) &&
          (m.freePcbMemph ()).all fun r => decide (r.1.activeMswp.freeFpList = [1])) = true := by
    decide +kernel
  obtain ⟨m, run, facts⟩ := (Option.any_eq_true _ _).mp replay
  simp only [Bool.and_eq_true, decide_eq_true_eq] at facts
  obtain ⟨⟨before, holds⟩, after⟩ := facts
  have tables : ∀ call ∈ threePages, call.InTable := by
    simp [threePages, MemCall.InTable]
  obtain ⟨kept, proper⟩ :=
    kept_and_proper_of_run (n := 2) (k := 2) (by decide) (by decide) rfl rfl tables run
  obtain ⟨m', done, released⟩ := all threePages m run (kept.framesExclusive proper)
  rw [done] at after
  have left : m'.activeMswp.freeFpList = [1] := of_decide_eq_true after
  have lost := released.swap.symm.subset (List.mem_append_right _ (mem_pageFrames.mpr ⟨0, holds⟩))
  rw [left] at lost
  exact absurd lost (by decide)

end Machine

end SimpleOs.Mem
