import SimpleOs.Lib.Transition
import SimpleOs.Mem.Frames

/-!
# Paged memory as flat memories

To its processes paged memory is to be one flat byte map each. `Backs` relates the
machine to these maps: the frame of a page in RAM holds the bytes of the page, and
a page never touched is zero. It says nothing about a page that was swapped out,
because the machine never brings one back: such a page keeps `PRESENT`, so
`pg_getpage` takes the swap fields of its entry for a frame number.
-/

namespace SimpleOs.Mem

variable {b : Build} {P : Type}

/-- An address below `2 ^ PAGING_CPU_BUS_WIDTH`. -/
abbrev Build.OnBus (b : Build) (addr : b.Word) : Prop :=
  addr.toNat < 2 ^ (b.pageBits + b.indexBits)

/-- The table index of the page an address is in. -/
abbrev Build.page (b : Build) (addr : b.Word) : Fin (2 ^ b.indexBits) := b.index (b.pagingPgn addr)

section Addresses

variable {addr addr' fpn : b.Word}

theorem page_val (onBus : b.OnBus addr) : (b.page addr).val = addr.toNat / b.pageSz := by
  have below : addr.toNat / 2 ^ b.pageBits < 2 ^ b.indexBits := by
    apply Nat.div_lt_of_lt_mul
    rw [← pow_add]
    exact onBus
  have field : 2 ^ b.indexBits ≤ 2 ^ (b.pgnHibit + 1 - b.pageBits) :=
    Nat.pow_le_pow_right (by decide) b.wellFormed.index
  show (b.pagingPgn addr).toNat % 2 ^ b.indexBits = _
  rw [b.toNat_pagingPgn, Nat.mod_eq_of_lt (below.trans_le field), Nat.mod_eq_of_lt below,
    Build.pageSz]

/-- Page and offset determine the address. -/
theorem addr_ext (onBus : b.OnBus addr) (onBus' : b.OnBus addr') (page : b.page addr = b.page addr')
    (offst : addr.toNat % b.pageSz = addr'.toNat % b.pageSz) : addr = addr' := by
  have quotient := congrArg Fin.val page
  rw [page_val onBus, page_val onBus'] at quotient
  apply BitVec.eq_of_toNat_eq
  rw [← Nat.div_add_mod addr.toNat b.pageSz, ← Nat.div_add_mod addr'.toNat b.pageSz, quotient, offst]

theorem toNat_phyaddr (addr : b.Word) (fits : fpn.toNat < b.frames) :
    (Machine.phyaddr fpn (b.pagingOffst addr)).toNat =
      fpn.toNat * b.pageSz + addr.toNat % b.pageSz := by
  have room := b.frame_lt fits (Nat.mod_lt addr.toNat b.pageSz_pos)
  rw [Machine.phyaddr, BitVec.toNat_add, BitVec.toNat_shiftLeft, Nat.shiftLeft_eq,
    b.toNat_pagingOffst, Nat.mod_add_mod]
  exact Nat.mod_eq_of_lt room

/-- A byte survives the trip through a register. -/
theorem setWidth_signExtend (value : Byte) : (value.signExtend b.width).setWidth 8 = value := by
  have wide : 8 ≤ b.width := le_trans (by decide) b.wellFormed.int
  apply BitVec.eq_of_getLsbD_eq
  intro i below
  rw [BitVec.getLsbD_setWidth, BitVec.getLsbD_signExtend]
  simp [below, below.trans_le wide]

end Addresses

/-- What the processes see: one byte map each. -/
abbrev FlatMemory (b : Build) (P : Type) : Type := P → b.Word → Byte

def FlatMemory.store [DecidableEq P] (flat : FlatMemory b P) (p : P) (addr : b.Word) (value : Byte) :
    FlatMemory b P :=
  Function.update flat p (Function.update (flat p) addr value)

theorem FlatMemory.store_apply [DecidableEq P] (flat : FlatMemory b P) (p q : P) (addr a : b.Word)
    (value : Byte) : flat.store p addr value q a = if (q, a) = (p, addr) then value else flat q a := by
  by_cases same : q = p
  · subst same
    by_cases here : a = addr
    · simp [store, here]
    · simp [store, here]
  · simp [store, same]

namespace Machine

variable [Fintype P] {m m' : Machine b P} {n : Nat} {hand : List b.Word} {p : P}
  {pgn addr : b.Word} {junk : Nat → Byte} {flat : FlatMemory b P}

/-- The frames in RAM hold the bytes of the flat memories. -/
structure Backs (n : Nat) (hand : List b.Word) (m : Machine b P) (flat : FlatMemory b P) : Prop where
  kept : RamKept n hand m
  rdmflg : m.mram.rdmflg = true
  room : n * b.pageSz ≤ m.mram.maxsz
  online : ∀ p addr, b.OnBus addr → b.online ((m.mm p).pgd (b.page addr)) = true →
    m.mram.storage ((b.pagingFpn ((m.mm p).pgd (b.page addr))).toNat * b.pageSz +
      addr.toNat % b.pageSz) = flat p addr
  absent : ∀ p addr, b.OnBus addr → b.pagePresent ((m.mm p).pgd (b.page addr)) = false →
    flat p addr = 0

namespace Backs

/-- Pages may leave RAM, and the entries of those that stay keep their frame. -/
theorem congr (backs : Backs n hand m flat) {hand' : List b.Word} (kept : RamKept n hand' m')
    (mram : m'.mram = { m.mram with freeFpList := m'.mram.freeFpList })
    (online : ∀ p i, b.online ((m'.mm p).pgd i) = true →
      b.online ((m.mm p).pgd i) = true ∧ b.pagingFpn ((m'.mm p).pgd i) = b.pagingFpn ((m.mm p).pgd i))
    (absent : ∀ p i, b.pagePresent ((m'.mm p).pgd i) = false →
      b.pagePresent ((m.mm p).pgd i) = false) : Backs n hand' m' flat := by
  refine ⟨kept, ?_, ?_, ?_, ?_⟩
  · rw [mram]
    exact backs.rdmflg
  · rw [mram]
    exact backs.room
  · intro p addr onBus here
    obtain ⟨before, same⟩ := online p _ here
    rw [same, mram]
    exact backs.online p addr onBus before
  · intro p addr onBus here
    exact backs.absent p addr onBus (absent p _ here)

/-- A frame in hand may be overwritten. -/
theorem zeroFill {f : b.Word} (backs : Backs n [f] m flat) (fits : n ≤ b.frames) :
    Backs n [f] { m with mram := m.mram.zeroFill f } flat ∧
      ∀ a, a / b.pageSz = f.toNat → (m.mram.zeroFill f).storage a = 0 := by
  have below : f.toNat < n := lt_of_mem_stock backs.kept.frames.hand_mem
  have inside : m.mram.Inside f :=
    ⟨fun _ => b.frame_lt (below.trans_le fits), (Nat.mul_le_mul_right _ below).trans backs.room⟩
  have zeroed := Memphy.storage_zeroFill backs.rdmflg inside
  obtain ⟨storage, filled⟩ := m.mram.zeroFill_eq f
  refine ⟨⟨?_, ?_, ?_, ?_, backs.absent⟩, ?_⟩
  · refine backs.kept.congr ?_ (fun _ => rfl) fun _ => rfl
    show (m.mram.zeroFill f).freeFpList = m.mram.freeFpList
    rw [filled]
  · exact (congrArg Memphy.rdmflg filled).trans backs.rdmflg
  · exact backs.room.trans_eq (congrArg Memphy.maxsz filled).symm
  · intro q addr onBus online
    have apart := backs.kept.fpn_ne_hand fits online
    rw [← backs.online q addr onBus online]
    show (m.mram.zeroFill f).storage _ = _
    rw [zeroed, if_neg]
    intro same
    obtain ⟨frame, -⟩ := (b.addr_eq_iff (Nat.mod_lt addr.toNat b.pageSz_pos)).mp rfl
    exact apart (BitVec.eq_of_toNat_eq (frame.symm.trans same))
  · intro a inFrame
    rw [zeroed, if_pos inFrame]

section Faults

variable [DecidableEq P]

theorem takeFrame (backs : Backs n [] m flat) {result : Option b.Word}
    (done : m.takeFrame p junk = some (m', result)) : Backs n result.toList m' flat := by
  have evicts := takeFrame_evicts (backs.kept.pages p) done
  have kept := backs.kept.takeFrame done
  refine backs.congr kept evicts.mram ?_ ?_
  · intro q i online
    obtain same | ⟨-, swapped⟩ := evicts.entries q i
    · rw [same] at online ⊢
      exact ⟨online, rfl⟩
    · simp [Build.online, swapped] at online
  · intro q i absent
    obtain same | ⟨-, swapped⟩ := evicts.entries q i
    · rw [← same]
      exact absent
    · rw [(kept.pages q).swapped i swapped] at absent
      exact Bool.noConfusion absent

/-- An absent page gets a frame of zeros. -/
theorem mapPage {f : b.Word} (backs : Backs n [f] m flat) (fits : n ≤ b.frames)
    (absent : b.pagePresent ((m.mm p).pteGetEntry pgn) = false)
    (inTable : b.outOfTable pgn = false)
    (zero : ∀ a, a / b.pageSz = f.toNat → m.mram.storage a = 0) :
    Backs n [] (m.mapPage p pgn f) flat := by
  have below : f.toNat < b.frames := (lt_of_mem_stock backs.kept.frames.hand_mem).trans_le fits
  have entry := pgd_mapPage (m := m) (p := p) (f := f) inTable
  refine ⟨backs.kept.mapPage below absent inTable, backs.rdmflg, backs.room, ?_, ?_⟩
  · intro q addr onBus
    rw [entry]
    split
    next here =>
      obtain ⟨rfl, index⟩ := Prod.mk.inj here
      intro _
      rw [b.pagingFpn_fpnEntry _ below]
      obtain ⟨frame, -⟩ := (b.addr_eq_iff (Nat.mod_lt addr.toNat b.pageSz_pos)).mp rfl
      rw [pteGetEntry_eq inTable, ← index] at absent
      rw [backs.absent q addr onBus absent]
      exact zero _ frame
    next => exact backs.online q addr onBus
  · intro q addr onBus
    rw [entry]
    split
    next =>
      rw [b.pagePresent_fpnEntry]
      exact Bool.noConfusion
    next => exact backs.absent q addr onBus

/-- A page that is not swapped out is in RAM where `pg_getpage` succeeds. -/
theorem pgGetpage (backs : Backs n [] m flat) (fits : n ≤ b.frames)
    (inTable : b.outOfTable pgn = false)
    (resident : b.pageSwapped ((m.mm p).pteGetEntry pgn) = false) {result : Option b.Word}
    (done : m.pgGetpage p pgn junk = some (m', result)) :
    Backs n [] m' flat ∧ ∀ fpn, result = some fpn →
      b.online ((m'.mm p).pgd (b.index pgn)) = true ∧
        fpn = b.pagingFpn ((m'.mm p).pgd (b.index pgn)) := by
  obtain ⟨present, rfl, rfl⟩ | ⟨absent, ⟨failed, rfl⟩ | ⟨taken, f, took, rfl, rfl⟩⟩ :=
    pgGetpage_cases done
  · refine ⟨backs, ?_⟩
    rintro _ ⟨⟩
    rw [← pteGetEntry_eq inTable]
    exact ⟨by simp [Build.online, present, resident], rfl⟩
  · refine ⟨backs.takeFrame failed, ?_⟩
    rintro _ ⟨⟩
  · have still := (takeFrame_evicts (backs.kept.pages p) took).absent absent
    obtain ⟨filled, zero⟩ := (backs.takeFrame took).zeroFill fits
    have fill : taken.fillFrame ((m.mm p).pteGetEntry pgn) f junk =
        { taken with mram := taken.mram.zeroFill f } :=
      if_neg (ne_true_of_eq_false resident)
    rw [fill]
    refine ⟨filled.mapPage fits ?_ inTable zero, ?_⟩
    · show b.pagePresent ((taken.mm p).pteGetEntry pgn) = false
      rw [still]
      exact absent
    · rintro _ ⟨⟩
      refine ⟨?_, congrArg b.pagingFpn (pteGetEntry_eq inTable)⟩
      rw [pgd_mapPage inTable, if_pos rfl]
      exact online_fpnEntry _ _

end Faults

section Access

variable {fpn : b.Word} (fits : n ≤ b.frames)
  (online : b.online ((m.mm p).pgd (b.page addr)) = true)
  (frame : fpn = b.pagingFpn ((m.mm p).pgd (b.page addr)))

include fits online frame

/-- The byte of an address in RAM is on the device. -/
theorem phyaddr_inside (backs : Backs n hand m flat) :
    (phyaddr fpn (b.pagingOffst addr)).toNat = fpn.toNat * b.pageSz + addr.toNat % b.pageSz ∧
      (phyaddr fpn (b.pagingOffst addr)).toNat < m.mram.maxsz := by
  have below : fpn.toNat < n := by
    rw [frame]
    exact backs.kept.fpn_lt online
  have address := toNat_phyaddr addr (below.trans_le fits)
  refine ⟨address, ?_⟩
  rw [address]
  have rest := Nat.mod_lt addr.toNat b.pageSz_pos
  have whole : (fpn.toNat + 1) * b.pageSz ≤ n * b.pageSz := Nat.mul_le_mul_right _ below
  rw [Nat.add_mul, one_mul] at whole
  have room := backs.room
  omega

theorem ioRead (backs : Backs n hand m flat) (onBus : b.OnBus addr) (old : Byte) :
    m.ioRead (phyaddr fpn (b.pagingOffst addr)) old = flat p addr := by
  obtain ⟨address, inside⟩ := backs.phyaddr_inside fits online frame
  rw [Machine.ioRead, Memphy.read_inside backs.rdmflg inside, address, Option.getD_some,
    setWidth_signExtend, frame]
  exact backs.online p addr onBus online

/-- A store to RAM changes the byte of that address of that process. -/
theorem ioWrite [DecidableEq P] (backs : Backs n hand m flat) (onBus : b.OnBus addr)
    (value : Byte) :
    Backs n hand (m.ioWrite (phyaddr fpn (b.pagingOffst addr)) value)
      (flat.store p addr value) := by
  obtain ⟨address, inside⟩ := backs.phyaddr_inside fits online frame
  have bytes := Memphy.storage_store backs.rdmflg inside value
  obtain ⟨storage, stored⟩ := m.mram.store_eq (phyaddr fpn (b.pagingOffst addr)) value
  rw [Machine.ioWrite, setWidth_signExtend]
  refine ⟨?_, ?_, ?_, ?_, ?_⟩
  · exact backs.kept.congr (Memphy.freeFpList_store _ _ _) (fun _ => rfl) fun _ => rfl
  · exact (congrArg Memphy.rdmflg stored).trans backs.rdmflg
  · exact backs.room.trans_eq (congrArg Memphy.maxsz stored).symm
  · intro q a onBus' online'
    show (m.mram.store _ value).storage _ = _
    rw [bytes, address, Function.update_apply, flat.store_apply, backs.online q a onBus' online']
    have cell : (b.pagingFpn ((m.mm q).pgd (b.page a))).toNat * b.pageSz + a.toNat % b.pageSz =
        fpn.toNat * b.pageSz + addr.toNat % b.pageSz ↔ (q, a) = (p, addr) := by
      rw [b.addr_eq_iff (Nat.mod_lt addr.toNat b.pageSz_pos)]
      obtain ⟨quotient, rest⟩ := (b.addr_eq_iff (Nat.mod_lt a.toNat b.pageSz_pos)).mp rfl
      rw [quotient, rest]
      constructor
      · rintro ⟨number, offst⟩
        have same := BitVec.eq_of_toNat_eq number
        rw [frame] at same
        obtain ⟨rfl, page⟩ := Prod.mk.inj (backs.kept.page_eq fits online' online same)
        rw [addr_ext onBus' onBus page offst]
      · intro same
        obtain ⟨rfl, rfl⟩ := Prod.mk.inj same
        exact ⟨congrArg BitVec.toNat frame.symm, rfl⟩
    simp only [cell]
  · intro q a onBus' absent
    rw [flat.store_apply, if_neg]
    · exact backs.absent q a onBus' absent
    · intro same
      obtain ⟨rfl, rfl⟩ := Prod.mk.inj same
      simp [Build.online, show b.pagePresent ((m.mm q).pgd (b.page a)) = false from absent] at online

end Access

/-- `DIRTY` moves no page. -/
theorem dirty [DecidableEq P] (backs : Backs n hand m flat) (inTable : b.outOfTable pgn = false) :
    Backs n hand
      (m.setMm p ((m.mm p).pteSetEntry pgn (b.dirtyEntry ((m.mm p).pteGetEntry pgn)))) flat := by
  have entry : ∀ q j, ((m.setMm p ((m.mm p).pteSetEntry pgn
      (b.dirtyEntry ((m.mm p).pteGetEntry pgn)))).mm q).pgd j =
      if (q, j) = (p, b.index pgn) then b.dirtyEntry ((m.mm q).pgd j) else (m.mm q).pgd j := by
    intro q j
    rw [Mm.pteSetEntry, pgd_setMm (pgd_setEntryBy inTable)]
    split
    next here =>
      obtain ⟨rfl, rfl⟩ := Prod.mk.inj here
      rw [pteGetEntry_eq inTable]
    next => rfl
  refine backs.congr (backs.kept.dirty inTable) rfl ?_ ?_
  · intro q j
    rw [entry]
    split
    next =>
      rw [online_dirtyEntry, b.pagingFpn_dirtyEntry]
      exact fun online => ⟨online, rfl⟩
    next => exact fun online => ⟨online, rfl⟩
  · intro q j
    rw [entry]
    split
    next =>
      rw [b.pagePresent_dirtyEntry]
      exact id
    next => exact id

end Backs

/-- Nothing is in RAM yet, and everything reads as zero. -/
theorem backs_boot {mram : Memphy b} (random : mram.rdmflg = true)
    (formatted : mram.freeFpList = stock b (mram.maxsz / b.pageSz)) (activeMswp : Memphy b) :
    Backs (mram.maxsz / b.pageSz) [] (boot mram activeMswp : Machine b P) (fun _ _ => 0) := by
  refine ⟨ramKept_boot formatted, random, Nat.div_mul_le_self _ _, ?_, fun _ _ _ _ => rfl⟩
  intro p addr _ online
  exact absurd online (by simp [boot, Mm.init, Build.online])

end Machine

inductive PageCall (b : Build) (P : Type) where
  | pgGetval (proc : P) (addr : b.Word) (junk : Nat → Byte)
  | pgSetval (proc : P) (addr : b.Word) (value : Byte) (junk : Nat → Byte)

namespace PageCall

def proc : PageCall b P → P
  | .pgGetval proc _ _ => proc
  | .pgSetval proc _ _ _ => proc

def addr : PageCall b P → b.Word
  | .pgGetval _ addr _ => addr
  | .pgSetval _ addr _ _ => addr

/-- The page of the call is not swapped out. -/
abbrev Resident (m : Machine b P) (call : PageCall b P) : Prop :=
  b.pageSwapped ((m.mm call.proc).pteGetEntry (b.pagingPgn call.addr)) = false

end PageCall

variable [DecidableEq P]

/-- Processes that read and write bytes, one call at a time. -/
def pageSystem (b : Build) (P : Type) [DecidableEq P] :
    TransitionSystem (Machine b P) (PageCall b P) where
  init m := ∃ mram activeMswp, m = .boot mram activeMswp
  step m
    | .pgGetval proc addr junk => (m.pgGetval proc addr junk).map Prod.fst
    | .pgSetval proc addr value junk => (m.pgSetval proc addr value junk).map Prod.fst

/-- Along a run from `m` every byte that `pg_getval` delivers is the byte in the flat
memory of its process, where the writes that returned `0` are stored. -/
def Coherent : Machine b P → FlatMemory b P → List (PageCall b P) → Prop
  | _, _, [] => True
  | m, flat, .pgGetval proc addr junk :: calls =>
      match m.pgGetval proc addr junk with
      | none => True
      | some (m, data) => (∀ byte ∈ data, byte = flat proc addr) ∧ Coherent m flat calls
  | m, flat, .pgSetval proc addr value junk :: calls =>
      match m.pgSetval proc addr value junk with
      | none => True
      | some (m, ret) => Coherent m (if ret = 0 then flat.store proc addr value else flat) calls

instance instDecidableCoherent : ∀ (m : Machine b P) (flat : FlatMemory b P)
    (calls : List (PageCall b P)), Decidable (Coherent m flat calls)
  | _, _, [] => .isTrue trivial
  | m, flat, .pgGetval proc addr junk :: calls =>
      match done : m.pgGetval proc addr junk with
      | none => .isTrue (by simp [Coherent, done])
      | some (m', data) =>
          have := instDecidableCoherent m' flat calls
          decidable_of_iff ((∀ byte ∈ data, byte = flat proc addr) ∧ Coherent m' flat calls)
            (by simp [Coherent, done])
  | m, flat, .pgSetval proc addr value junk :: calls =>
      match done : m.pgSetval proc addr value junk with
      | none => .isTrue (by simp [Coherent, done])
      | some (m', ret) =>
          have := instDecidableCoherent m' (if ret = 0 then flat.store proc addr value else flat) calls
          decidable_of_iff
            (Coherent m' (if ret = 0 then flat.store proc addr value else flat) calls)
            (by simp [Coherent, done])

section Runs

open Machine (Backs)

variable [Fintype P] {m m' : Machine b P} {n : Nat} {flat : FlatMemory b P} {proc : P}
  {addr : b.Word} {junk : Nat → Byte}

theorem Machine.Backs.pgGetval (backs : Backs n [] m flat) (fits : n ≤ b.frames)
    (onBus : b.OnBus addr)
    (resident : b.pageSwapped ((m.mm proc).pteGetEntry (b.pagingPgn addr)) = false)
    {data : Option Byte} (done : m.pgGetval proc addr junk = some (m', data)) :
    Backs n [] m' flat ∧ ∀ byte ∈ data, byte = flat proc addr := by
  obtain ⟨result, paged, rfl⟩ := Machine.pgGetval_cases done
  obtain ⟨backs, inRam⟩ := backs.pgGetpage fits (inTable_pagingPgn addr) resident paged
  refine ⟨backs, ?_⟩
  intro byte delivered
  obtain ⟨fpn, rfl, rfl⟩ := Option.map_eq_some_iff.mp delivered
  obtain ⟨online, frame⟩ := inRam fpn rfl
  exact backs.ioRead fits online frame onBus _

theorem Machine.Backs.pgSetval (backs : Backs n [] m flat) (fits : n ≤ b.frames)
    (onBus : b.OnBus addr)
    (resident : b.pageSwapped ((m.mm proc).pteGetEntry (b.pagingPgn addr)) = false)
    {value : Byte} {ret : Int} (done : m.pgSetval proc addr value junk = some (m', ret)) :
    Backs n [] m' (if ret = 0 then flat.store proc addr value else flat) := by
  have inTable := inTable_pagingPgn addr
  obtain ⟨failed, rfl⟩ | ⟨paged, fpn, got, rfl, rfl⟩ := Machine.pgSetval_cases done
  · exact (backs.pgGetpage fits inTable resident failed).1
  · obtain ⟨backs, inRam⟩ := backs.pgGetpage fits inTable resident got
    obtain ⟨online, frame⟩ := inRam _ rfl
    rw [if_pos rfl]
    exact (backs.ioWrite fits online frame onBus value).dirty inTable

/-- While no call touches a page that is swapped out, paged memory is the flat
memories of its processes. -/
theorem coherent_of_backs (fits : n ≤ b.frames) {calls : List (PageCall b P)}
    (onBus : ∀ call ∈ calls, b.OnBus call.addr)
    (resident : (pageSystem b P).StepsMeet PageCall.Resident m calls)
    (backs : Backs n [] m flat) : Coherent m flat calls := by
  induction calls generalizing m flat with
  | nil => trivial
  | cons call calls ih =>
      obtain ⟨here, later⟩ := List.forall_mem_cons.mp onBus
      obtain ⟨first, rest⟩ := resident
      cases call with
      | pgGetval proc addr junk =>
          rw [Coherent]
          split
          next => trivial
          next m' data done =>
            obtain ⟨backs', delivered⟩ := backs.pgGetval fits here first done
            exact ⟨delivered, ih later (rest m' (by simp [pageSystem, done])) backs'⟩
      | pgSetval proc addr value junk =>
          rw [Coherent]
          split
          next => trivial
          next m' ret done =>
            exact ih later (rest m' (by simp [pageSystem, done]))
              (backs.pgSetval fits here first done)

/-- Paged memory is coherent and private in every run that touches no page after it
was swapped out, for any processes, any random-access RAM whose frames fit the entries
and any swap device. -/
theorem paged_memory_coherent {mram activeMswp : Memphy b} (random : mram.rdmflg = true)
    (formatted : mram.freeFpList = stock b (mram.maxsz / b.pageSz))
    (fits : mram.maxsz / b.pageSz ≤ b.frames) {calls : List (PageCall b P)}
    (onBus : ∀ call ∈ calls, b.OnBus call.addr)
    (resident : (pageSystem b P).StepsMeet PageCall.Resident (Machine.boot mram activeMswp) calls) :
    Coherent (Machine.boot mram activeMswp) (fun _ _ => 0) calls :=
  coherent_of_backs fits onBus resident (Machine.backs_boot random formatted activeMswp)

end Runs

-- Concrete runs are evaluated by the kernel, not by the elaborator.
attribute [irreducible] Coherent

/-- Three pages on two frames, and a read of the two pages still in RAM. -/
def threeWrites : List (PageCall .mm32 Unit) :=
  [.pgSetval () 0 7 fun _ => 0, .pgSetval () 256 8 fun _ => 0, .pgSetval () 512 9 fun _ => 0]

theorem paged_memory_coherent_threeWrites :
    Coherent (Machine.boot (.init .mm32 512 true) (.init .mm32 512 true)) (fun _ _ => 0)
      (threeWrites ++ [.pgGetval () 256 fun _ => 0, .pgGetval () 512 fun _ => 0]) :=
  paged_memory_coherent rfl rfl (by decide) (by decide +kernel) (by decide +kernel)

/-- The first of the three pages was swapped out. It is read through the number of
its swap frame, which is the frame of the third page. -/
theorem evicted_page_misread :
    ¬ ∀ (ramSz swpSz : Nat) (calls : List (PageCall .mm32 Unit)),
      ramSz / Build.mm32.pageSz ≤ Build.mm32.frames → (∀ call ∈ calls, Build.mm32.OnBus call.addr) →
      Coherent (Machine.boot (.init .mm32 ramSz true) (.init .mm32 swpSz true)) (fun _ _ => 0)
        calls := by
  intro coherent
  have misread : ¬ Coherent (Machine.boot (.init .mm32 512 true) (.init .mm32 512 true))
      (fun _ _ => 0) (threeWrites ++ [.pgGetval () 0 fun _ => 0]) := by
    decide +kernel
  exact misread (coherent 512 512 _ (by decide) (by decide +kernel))

end SimpleOs.Mem
