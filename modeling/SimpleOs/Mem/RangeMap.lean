import SimpleOs.Mem.FlatMap
import SimpleOs.Mem.Growth
import SimpleOs.Mem.Initial
import SimpleOs.Mem.PgnList
import SimpleOs.Mem.TableGrants

/-!
# Mapping a range of pages

`alloc_pages_range` moves frames from the free list of a device to a list of its own, which it
builds at the tail, and `vmap_page_range` walks that list beside the pages of a range: each page
gets its entry in the page table and a node on the FIFO list. The lists are the linked ones, the
page table is the flat array of `mm.c` or the five levels of `mm64.c`, and one theorem speaks
of both. The machine of demand paging, with a list of frames and an array of entries, is shown
to do the same.
-/

namespace SimpleOs.Mem

open LinkedList (Path path_split)

variable {b : Build} {M : Type}

/-- The page table of `caller->mm`, for the MM64 build with the answers of `malloc`. -/
inductive PageTable : Build → Type where
  | mm32 (pgd : Fin (2 ^ Build.mm32.indexBits) → Build.mm32.Word) : PageTable .mm32
  | mm64 (reply : Nat → Mm64.Reply) (mm : Mm64.Mm) : PageTable .mm64

namespace PageTable

/-- `pte_get_entry` -/
def pteGetEntry : PageTable b → b.Word → b.Word
  | mm32 pgd, pgn => if Build.mm32.outOfTable pgn then 0 else pgd (Build.mm32.index pgn)
  | mm64 _ mm, pgn => Mm64.pteGetEntry mm pgn

/-- `pte_set_fpn` -/
def pteSetFpn : PageTable b → (pgn fpn : b.Word) → PageTable b × Int
  | mm32 pgd, pgn, fpn =>
      if Build.mm32.outOfTable pgn then (mm32 pgd, -1)
      else (mm32 (Function.update pgd (Build.mm32.index pgn)
        (Build.mm32.fpnEntry (pgd (Build.mm32.index pgn)) fpn)), 0)
  | mm64 reply mm, pgn, fpn =>
      let (mm, ret) := Mm64.pteSetFpn reply mm pgn fpn
      (mm64 reply mm, ret)

end PageTable

/-- `PAGING_PGN(addr + pgit * PAGING_PAGESZ)`, with a product of `int`s. -/
def Build.rangePgn (b : Build) (addr : b.Word) (pgit : Nat) : b.Word :=
  b.pagingPgn (addr + (BitVec.ofNat 32 pgit * BitVec.ofNat 32 b.pageSz).signExtend b.width)

/-- The two things in an `mm` that `vmap_page_range` changes. -/
structure MappedMm (b : Build) where
  pgd : PageTable b
  fifoPgn : PgnList b

namespace Device

/-- The loop of `alloc_pages_range` from round `pgit` on, where `grant` is what `malloc` answers
in each round. -/
def allocFrom (owner : Option M) (grant : Nat → Bool) : (left pgit : Nat) → Device b M →
    (frmLst lastFp : Option Nat) → Option (Device b M × Option Nat × b.Word)
  | 0, _, d, frmLst, _ => some (d, frmLst, 0)
  | left + 1, pgit, d, frmLst, lastFp =>
      match d.getFreefp with
      | none => some (d, frmLst, BitVec.ofInt b.width (-3000))
      | some (fpn, d) =>
          if grant pgit then
            let newfpStr := d.fresh
            let d := d.addNode ⟨fpn, none, owner⟩
            match frmLst, lastFp with
            | none, _ => allocFrom owner grant left (pgit + 1) d (some newfpStr) (some newfpStr)
            | some _, none => none
            | some _, some last => allocFrom owner grant left (pgit + 1)
                (d.setNext last (some newfpStr)) frmLst (some newfpStr)
          else some (d, frmLst, BitVec.ofInt b.width (-1))

/-- `alloc_pages_range` -/
def allocPagesRange (d : Device b M) (owner : Option M) (grant : Nat → Bool)
    (reqPgnum : BitVec 32) (frmLst : Option Nat) :
    Option (Device b M × Option Nat × b.Word) :=
  allocFrom owner grant reqPgnum.toInt.toNat 0 d frmLst none

/-- The loop of `vmap_page_range`, with `left` rounds to go at most. Only `mm64.c` looks at what
`pte_set_fpn` returns. -/
def vmapFrom (d : Device b M) (addr : b.Word) : (left pgit : Nat) → (fpit : Option Nat) →
    MappedMm b → MappedMm b × b.Word
  | 0, _, _, mm => (mm, 0)
  | _ + 1, _, none, mm => (mm, 0)
  | left + 1, pgit, some fpit, mm =>
      let pgn := b.rangePgn addr pgit
      let (pgd, ret) := mm.pgd.pteSetFpn pgn (d.node fpit).fpn
      if !b.refuses ∧ ret < 0 then ({ mm with pgd := pgd }, BitVec.ofInt b.width (-1))
      else d.vmapFrom addr left (pgit + 1) (d.next fpit) ⟨pgd, mm.fifoPgn.enlistPgnNode pgn⟩

/-- `vmap_page_range`, with what it leaves in `*ret_rg`. -/
def vmapPageRange (d : Device b M) (addr : b.Word) (pgnum : BitVec 32) (frames : Option Nat)
    (retRg : Option (Region b)) (mm : MappedMm b) : MappedMm b × Option (Region b) × b.Word :=
  let retRg := retRg.map fun _ =>
    ⟨addr, addr + (pgnum * BitVec.ofNat 32 b.pageSz).signExtend b.width⟩
  let (mm, ret) := d.vmapFrom addr pgnum.toInt.toNat 0 frames mm
  (mm, retRg, ret)

/-! ## The frames are collected -/

/-- Besides the lists of the device there is one more, with its last node at hand. -/
structure Collected (d : Device b M) (frmLst lastFp : Option Nat) (ps qs rs : List Nat) : Prop where
  linked : d.Linked ps qs
  frames : d.Passes frmLst rs
  last : lastFp = rs.getLast?
  apart : ∀ r ∈ rs, r ∉ ps ∧ r ∉ qs

section Collect

variable {d : Device b M} {frmLst lastFp : Option Nat} {ps qs rs : List Nat}
  {p : Nat}

theorem next_addNode (node : Framephy b M) :
    (d.addNode node).next = Function.update d.next d.fresh node.fpNext := by
  funext q
  by_cases same : q = d.fresh
  · subst same
    simp
  · simp [next, addNode, same]

theorem Passes.last_next {r : Nat} (passes : d.Passes frmLst (rs ++ [r])) : d.next r = none :=
  (path_split.mp passes.path).2

/-- A new node at the tail. -/
theorem Passes.append {r : Nat} (passes : d.Passes frmLst (rs ++ [r])) (fpn : b.Word)
    (owner : Option M) :
    ((d.addNode ⟨fpn, none, owner⟩).setNext r (some d.fresh)).Passes frmLst
      (rs ++ [r] ++ [d.fresh]) := by
  have inserted := passes.path.insert passes.path.nodup passes.fresh_notMem
  rw [passes.last_next] at inserted
  constructor
  · rw [next_setNext, next_addNode, List.append_assoc]
    exact inserted
  · intro q member
    obtain old | new := List.mem_append.mp member
    · exact Nat.lt_succ_of_lt (passes.bound q old)
    · rw [List.mem_singleton.mp new]
      exact Nat.lt_succ_self d.fresh

/-- One round takes the first free frame to the end of the list. -/
theorem Collected.round (collected : d.Collected frmLst lastFp (p :: ps) qs rs)
    (owner : Option M) (grant : Nat → Bool) {pgit : Nat} (granted : grant pgit = true) (left : Nat) :
    ∃ d' frmLst' lastFp',
      allocFrom owner grant (left + 1) pgit d frmLst lastFp =
        allocFrom owner grant left (pgit + 1) d' frmLst' lastFp' ∧
      d'.Collected frmLst' lastFp' ps qs (rs ++ [d.fresh]) ∧
      d'.entry d.fresh = ((d.node p).fpn, owner) ∧
      (∀ q < d.fresh, d'.entry q = d.entry q) ∧ d'.fresh = d.fresh + 1 ∧
      d'.rdmflg = d.rdmflg ∧ d.SameBytes d' := by
  obtain ⟨head, rest⟩ := collected.linked.free.tail
  have apart : ps.Disjoint qs := (List.disjoint_cons_left.mp collected.linked.apart).2
  have popped : d.getFreefp = some ((d.node p).fpn, d.setFree (d.next p)) := by
    rw [getFreefp, head]
    rfl
  let mid := (d.setFree (d.next p)).addNode ⟨(d.node p).fpn, none, owner⟩
  have free : mid.Passes mid.freeFpList ps := rest.setFree.addNode _
  have used : mid.Passes mid.usedFpList qs := collected.linked.used.setFree.addNode _
  have onList : ∀ r ∈ rs ++ [d.fresh], r ∉ ps ∧ r ∉ qs := by
    intro r member
    obtain old | new := List.mem_append.mp member
    · obtain ⟨off, off'⟩ := collected.apart r old
      exact ⟨fun on => off (List.mem_cons_of_mem p on), off'⟩
    · rw [List.mem_singleton.mp new]
      exact ⟨rest.fresh_notMem, collected.linked.used.fresh_notMem⟩
  have fresh : mid.entry d.fresh = ((d.node p).fpn, owner) := entry_addNode_fresh (d := d.setFree (d.next p)) _
  have others : ∀ q < d.fresh, mid.entry q = d.entry q :=
    fun q old => entry_addNode_of_lt (d := d.setFree (d.next p)) old _
  cases List.eq_nil_or_concat rs with
  | inl none =>
      subst none
      have empty : frmLst = none := collected.frames.path
      refine ⟨mid, some d.fresh, some d.fresh, ?_, ⟨⟨free, used, apart⟩, ⟨⟨rfl, ?_⟩, ?_⟩, rfl, onList⟩,
        fresh, others, rfl, rfl, rfl, rfl⟩
      · rw [allocFrom, popped, empty]
        simp only [granted, if_true]
        rfl
      · exact next_addNode_fresh (d := d.setFree (d.next p)) _
      · intro q member
        rw [List.mem_singleton.mp member]
        exact Nat.lt_succ_self d.fresh
  | inr some =>
      obtain ⟨before, r, rfl⟩ := some
      rw [List.concat_eq_append] at collected onList ⊢
      have last : lastFp = Option.some r := by simpa using collected.last
      obtain ⟨first, nonempty⟩ : ∃ first, frmLst = Option.some first := by
        rw [← collected.frames.path.head_eq]
        exact Option.isSome_iff_exists.mp (by simp)
      obtain ⟨offFree, offUsed⟩ := onList r (by simp)
      refine ⟨mid.setNext r (Option.some d.fresh), frmLst, Option.some d.fresh, ?_,
        ⟨⟨free.setNext offFree _, used.setNext offUsed _, apart⟩, ?_, by simp, onList⟩, ?_, ?_, rfl,
        rfl, rfl, rfl⟩
      · rw [allocFrom, popped, nonempty, last]
        simp only [granted, if_true]
        rfl
      · exact Passes.append (d := d.setFree (d.next p)) collected.frames.setFree _ _
      · rw [entry_setNext]
        exact fresh
      · intro q old
        rw [entry_setNext]
        exact others q old

/-- The loop takes frames from the free list in order, and stops where there is none. -/
theorem Collected.allocFrom (collected : d.Collected frmLst lastFp ps qs rs)
    (owner : Option M) (grant : Nat → Bool) (left pgit : Nat) (granted : ∀ i < left, grant (pgit + i) = true) :
    ∃ d' frmLst' lastFp' rs',
      Device.allocFrom owner grant left pgit d frmLst lastFp = some (d', frmLst',
        if left ≤ ps.length then 0 else BitVec.ofInt b.width (-3000)) ∧
      d'.Collected frmLst' lastFp' (ps.drop left) qs (rs ++ rs') ∧
      rs'.map d'.entry = (ps.take left).map (fun p => ((d.node p).fpn, owner)) ∧
      (∀ q < d.fresh, d'.entry q = d.entry q) ∧ d'.rdmflg = d.rdmflg ∧ d.SameBytes d' := by
  induction left generalizing d frmLst lastFp ps rs pgit with
  | zero =>
      refine ⟨d, frmLst, lastFp, [], by simp [Device.allocFrom], ?_, by simp, fun _ _ => rfl, rfl, rfl, rfl⟩
      rwa [List.drop_zero, List.append_nil]
  | succ left ih =>
      cases ps with
      | nil =>
          have head : d.freeFpList = none := collected.linked.free.path
          refine ⟨d, frmLst, lastFp, [], ?_, ?_, by simp, fun _ _ => rfl, rfl, rfl, rfl⟩
          · rw [Device.allocFrom, getFreefp, head]
            simp
          · rwa [List.drop_nil, List.append_nil]
      | cons p ps =>
          have first : grant pgit = true := granted 0 (Nat.succ_pos left)
          obtain ⟨d₁, frmLst₁, lastFp₁, step, collected₁, new, old, fresh, flag, bytes⟩ :=
            collected.round owner grant first left
          obtain ⟨d', frmLst', lastFp', rs', run, kept, entries, older, flag', bytes'⟩ :=
            ih collected₁ (pgit + 1) (by
              intro i below
              rw [Nat.add_right_comm]
              exact granted (i + 1) (by omega))
          have keeps : ∀ q < d.fresh, d'.entry q = d.entry q := by
            intro q low
            rw [older q (by omega), old q low]
          refine ⟨d', frmLst', lastFp', d.fresh :: rs', ?_, ?_, ?_, keeps, flag'.trans flag,
            bytes.trans bytes'⟩
          · rw [step, run]
            simp
          · rw [List.append_cons]
            exact kept
          · have frames : (ps.take left).map (fun p => ((d₁.node p).fpn, owner)) =
                (ps.take left).map fun p => ((d.node p).fpn, owner) := by
              apply List.map_congr_left
              intro q member
              have low : q < d.fresh :=
                collected.linked.free.bound q (List.mem_cons_of_mem p (List.mem_of_mem_take member))
              have same : (d₁.node q).fpn = (d.node q).fpn := congrArg Prod.fst (old q low)
              rw [same]
            rw [List.map_cons, older d.fresh (by omega), new, entries, frames]
            rfl

/-- What `alloc_pages_range` hands over: a list of nodes with these frames and this owner. -/
def HandsOver (d : Device b M) (frmLst : Option Nat) (owner : Option M) (fpns : List b.Word) : Prop :=
  ∃ rs, d.Passes frmLst rs ∧ rs.map d.entry = fpns.map fun fpn => (fpn, owner)

/-- `alloc_pages_range` hands over the first frames of the free list, as many as there are. -/
theorem Lists.allocPagesRange {free : List b.Word} {used : List (b.Word × Option M)}
    (lists : d.Lists free used) (owner : Option M) {grant : Nat → Bool} {reqPgnum : BitVec 32}
    (granted : ∀ i < reqPgnum.toInt.toNat, grant i = true) :
    ∃ d' frmLst, d.allocPagesRange owner grant reqPgnum none = some (d', frmLst,
        if reqPgnum.toInt.toNat ≤ free.length then 0 else BitVec.ofInt b.width (-3000)) ∧
      d'.Lists (free.drop reqPgnum.toInt.toNat) used ∧
      d'.HandsOver frmLst owner (free.take reqPgnum.toInt.toNat) ∧ d'.rdmflg = d.rdmflg ∧
      d.SameBytes d' := by
  obtain ⟨ps, qs, linked, rfl, rfl⟩ := lists
  have start : d.Collected none none ps qs [] := ⟨linked, .nil rfl, rfl, by simp⟩
  obtain ⟨d', frmLst, lastFp, rs, run, collected, entries, old, flag, bytes⟩ :=
    start.allocFrom owner grant reqPgnum.toInt.toNat 0 (by simpa using granted)
  refine ⟨d', frmLst, ?_, ⟨_, qs, collected.linked, ?_, ?_⟩, ⟨rs, collected.frames, ?_⟩, flag,
    bytes⟩
  · rw [Device.allocPagesRange, run]
    simp
  · rw [← List.map_drop, ← List.map_drop]
    congr 1
    exact List.map_congr_left fun p member =>
      old p (linked.free.bound p (List.mem_of_mem_drop member))
  · exact List.map_congr_left fun q member => old q (linked.used.bound q member)
  · rw [entries, ← List.map_take, ← List.map_take, List.map_map, List.map_map]
    rfl

/-- The device behind a machine serves `alloc_pages_range` as the machine does. -/
theorem Models.allocPagesRange {P : Type} {m : Machine b P} (models : d.Models m.mram)
    (owner : Option M) {grant : Nat → Bool} {reqPgnum : BitVec 32}
    (granted : ∀ i < reqPgnum.toInt.toNat, grant i = true) :
    ∃ d' frmLst, d.allocPagesRange owner grant reqPgnum none =
        some (d', frmLst, (m.allocPagesRange reqPgnum.toInt.toNat).2.2) ∧
      d'.Models (m.allocPagesRange reqPgnum.toInt.toNat).1.mram ∧
      d'.HandsOver frmLst owner (m.allocPagesRange reqPgnum.toInt.toNat).2.1 := by
  obtain ⟨used, lists⟩ := models.lists
  obtain ⟨d', frmLst, run, rest, hands, flag, bytes⟩ := lists.allocPagesRange owner granted
  rw [Machine.allocPagesRange_eq]
  refine ⟨d', frmLst, run, ⟨?_, ?_, ?_, used, rest⟩, hands⟩
  · rw [bytes.storage]
    exact models.storage
  · rw [bytes.maxsz]
    exact models.maxsz
  · exact flag.trans models.rdmflg

end Collect

end Device

/-! ## The pages are entered -/

namespace PageTable

/-- The tables that the entries of these pages need are there or can be allocated. -/
def Serves : PageTable b → List b.Word → Prop
  | mm32 _, _ => True
  | mm64 reply mm, pages =>
      Mm64.WellFormed mm ∧ Mm64.Granted reply mm (Mm64.missing mm (Mm64.tablesFor pages)).card

variable {pages : List b.Word} {pgn : b.Word}

/-- `pte_set_fpn` on one of the pages succeeds and changes no other entry. -/
theorem pteSetFpn_spec {t : PageTable b} (serves : t.Serves pages) (member : pgn ∈ pages)
    (inSpace : pgn.toNat < 2 ^ b.indexBits) (fpn : b.Word) :
    ∃ t', t.pteSetFpn pgn fpn = (t', 0) ∧ t'.Serves pages ∧
      ∀ q : b.Word, q.toNat < 2 ^ b.indexBits →
        t'.pteGetEntry q =
          if q = pgn then b.fpnEntry (t.pteGetEntry pgn) fpn else t.pteGetEntry q := by
  cases t with
  | mm32 pgd =>
      have inTable : Build.mm32.outOfTable pgn = false := inTable_of_lt inSpace
      refine ⟨mm32 (Function.update pgd (Build.mm32.index pgn)
        (Build.mm32.fpnEntry (pgd (Build.mm32.index pgn)) fpn)),
        by rw [pteSetFpn, inTable]; rfl, trivial, ?_⟩
      intro q low
      rw [pteGetEntry, pteGetEntry, pteGetEntry, inTable_of_lt low, inTable]
      by_cases here : q = pgn
      · subst here
        simp
      · have apart : Build.mm32.index q ≠ Build.mm32.index pgn :=
          fun same => here (index_inj low inSpace same)
        simp [here, apart]
  | mm64 reply mm =>
      obtain ⟨wf, granted⟩ := serves
      obtain ⟨granted', done⟩ := granted.setEntryBy wf member
        fun pte => Build.mm64.fpnEntry pte fpn
      obtain ⟨wf', ⟨failed, -⟩ | ⟨-, stored⟩⟩ := Mm64.setEntryBy_spec reply wf inSpace
        fun pte => Build.mm64.fpnEntry pte fpn
      · rw [done] at failed
        cases failed
      · exact ⟨mm64 reply _, congrArg (Prod.mk _) done, ⟨wf', granted'⟩, stored⟩

/-- An `addr_t` holds more than the addresses that the page table covers. -/
theorem space_lt (t : PageTable b) : b.indexBits + b.pageBits < b.width := by
  cases t <;> decide

end PageTable

section Range

variable {addr : b.Word}

/-- A product of `int`s below `2^31` comes out right. -/
theorem toNat_intProduct {n : Nat} (int : n * b.pageSz < 2 ^ 31) :
    ((BitVec.ofNat 32 n * BitVec.ofNat 32 b.pageSz).signExtend b.width).toNat = n * b.pageSz := by
  have wide := b.wellFormed.int
  have value : (BitVec.ofNat 32 n * BitVec.ofNat 32 b.pageSz).toNat = n * b.pageSz := by
    rw [← BitVec.ofNat_mul, BitVec.toNat_ofNat, Nat.mod_eq_of_lt (by omega)]
  have positive : (BitVec.ofNat 32 n * BitVec.ofNat 32 b.pageSz).msb = false := by
    rw [BitVec.msb_eq_false_iff_two_mul_lt, value]
    omega
  have room : 2 ^ 32 ≤ 2 ^ b.width := Nat.pow_le_pow_right (by decide) wide
  rw [BitVec.signExtend_eq_setWidth_of_msb_false positive, BitVec.toNat_setWidth, value,
    Nat.mod_eq_of_lt (by omega)]

/-- Such a product is the one that the machine computes in the width of an address. -/
theorem intProduct_eq {n : Nat} (int : n * b.pageSz < 2 ^ 31) :
    (BitVec.ofNat 32 n * BitVec.ofNat 32 b.pageSz).signExtend b.width =
      word b n * word b b.pageSz := by
  have room : 2 ^ 32 ≤ 2 ^ b.width := Nat.pow_le_pow_right (by decide) b.wellFormed.int
  apply BitVec.eq_of_toNat_eq
  rw [toNat_intProduct int, word, word, ← BitVec.ofNat_mul, BitVec.toNat_ofNat]
  exact (Nat.mod_eq_of_lt (by omega)).symm

/-- The page numbers of the range, counted from that of its first address. -/
theorem toNat_rangePgn {pgit : Nat} (int : pgit * b.pageSz < 2 ^ 31)
    (space : addr.toNat + pgit * b.pageSz < 2 ^ (b.indexBits + b.pageBits)) :
    (b.rangePgn addr pgit).toNat = addr.toNat / b.pageSz + pgit ∧
      (b.rangePgn addr pgit).toNat < 2 ^ b.indexBits := by
  have wf := b.wellFormed
  have index := wf.index
  have page := wf.page
  have address := wf.address
  have inWord : 2 ^ (b.indexBits + b.pageBits) ≤ 2 ^ b.width :=
    Nat.pow_le_pow_right (by decide) (by omega)
  have quotient : (addr.toNat + pgit * b.pageSz) / b.pageSz = addr.toNat / b.pageSz + pgit :=
    Nat.add_mul_div_right _ _ b.pageSz_pos
  have low : (addr.toNat + pgit * b.pageSz) / b.pageSz < 2 ^ b.indexBits := by
    rw [Nat.div_lt_iff_lt_mul b.pageSz_pos, Build.pageSz, ← pow_add]
    exact space
  have field : 2 ^ b.indexBits ≤ 2 ^ (b.pgnHibit + 1 - b.pageBits) :=
    Nat.pow_le_pow_right (by decide) index
  have value : (b.rangePgn addr pgit).toNat = (addr.toNat + pgit * b.pageSz) / b.pageSz := by
    rw [Build.rangePgn, b.toNat_pagingPgn, BitVec.toNat_add, toNat_intProduct int,
      Nat.mod_eq_of_lt (space.trans_le inWord)]
    exact Nat.mod_eq_of_lt (low.trans_le field)
  rw [value]
  exact ⟨quotient, low⟩

/-- The pages of a range, in the order in which they are mapped. -/
def Build.rangePages (b : Build) (addr : b.Word) (k : Nat) : List b.Word :=
  (List.range k).map fun i => b.pagingPgn addr + BitVec.ofNat b.width i

/-- The range fits the address space and its length an `int`. -/
structure InSpace (addr : b.Word) (k : Nat) : Prop where
  int : k * b.pageSz < 2 ^ 31
  space : addr.toNat + k * b.pageSz ≤ 2 ^ (b.indexBits + b.pageBits)

namespace InSpace

variable {addr : b.Word} {k i j : Nat}

/-- The number of pages is an `int`. -/
theorem toNat_count (inSpace : InSpace addr k) : (BitVec.ofNat 32 k).toInt.toNat = k := by
  have int := inSpace.int
  have fewer := Nat.le_mul_of_pos_right k b.pageSz_pos
  rw [Device.toInt_count (by omega)]
  rfl

/-- Where there is a page there is room for it. -/
theorem page_lt (inSpace : InSpace addr k) (below : i < k) :
    i * b.pageSz < 2 ^ 31 ∧ addr.toNat + i * b.pageSz < 2 ^ (b.indexBits + b.pageBits) := by
  have int := inSpace.int
  have space := inSpace.space
  have positive := b.pageSz_pos
  have step : i * b.pageSz + b.pageSz ≤ k * b.pageSz := by
    rw [← Nat.succ_mul]
    exact Nat.mul_le_mul_right _ below
  omega

/-- The loop computes the page numbers that follow the first one. -/
theorem rangePgn_eq (inSpace : InSpace addr k) (below : i < k) :
    b.rangePgn addr i = b.pagingPgn addr + BitVec.ofNat b.width i := by
  obtain ⟨int, room⟩ := inSpace.page_lt below
  have first : (b.rangePgn addr 0).toNat = addr.toNat / b.pageSz + 0 :=
    (toNat_rangePgn (by omega) (by omega)).1
  obtain ⟨value, low⟩ := toNat_rangePgn int room
  have none : (BitVec.ofNat 32 0 * BitVec.ofNat 32 b.pageSz).signExtend b.width = 0 := by
    apply BitVec.eq_of_toNat_eq
    rw [toNat_intProduct (by omega), Nat.zero_mul]
    rfl
  have start : b.rangePgn addr 0 = b.pagingPgn addr := by
    rw [Build.rangePgn, none, add_zero]
  have wf := b.wellFormed
  have index := wf.index
  have address := wf.address
  have inWord : 2 ^ b.indexBits ≤ 2 ^ b.width := Nat.pow_le_pow_right (by decide) (by omega)
  apply BitVec.eq_of_toNat_eq
  rw [← start, BitVec.toNat_add, BitVec.toNat_ofNat, Nat.add_mod_mod, first, Nat.add_zero, ← value]
  exact (Nat.mod_eq_of_lt (low.trans_le inWord)).symm

theorem rangePgn_mem (inSpace : InSpace addr k) (below : i < k) :
    b.rangePgn addr i ∈ b.rangePages addr k := by
  rw [inSpace.rangePgn_eq below]
  exact List.mem_map_of_mem (List.mem_range.mpr below)

/-- No page of the range is met twice. -/
theorem rangePgn_inj (inSpace : InSpace addr k) (below : i < k) (below' : j < k)
    (same : b.rangePgn addr i = b.rangePgn addr j) : i = j := by
  obtain ⟨int, room⟩ := inSpace.page_lt below
  obtain ⟨int', room'⟩ := inSpace.page_lt below'
  have value := (toNat_rangePgn int room).1
  rw [same, (toNat_rangePgn int' room').1] at value
  omega

end InSpace

namespace Device

variable {d : Device b M} {addr : b.Word} {k : Nat}

/-- The loop of `vmap_page_range`, on a list that is as long as there are rounds left. -/
theorem vmapFrom_spec (inSpace : InSpace addr k) {fpit : Option Nat} {rs : List Nat}
    (path : Path d.next fpit rs none) {mm : MappedMm b} {waiting : List b.Word} {ps : List Nat}
    (serves : mm.pgd.Serves (b.rangePages addr k)) (fifo : mm.fifoPgn.Holds waiting ps)
    {pgit : Nat} (within : pgit + rs.length ≤ k) :
    ∃ mm', d.vmapFrom addr rs.length pgit fpit mm = (mm', 0) ∧
      (∀ i (h : i < rs.length), mm'.pgd.pteGetEntry (b.rangePgn addr (pgit + i)) =
        b.fpnEntry (mm.pgd.pteGetEntry (b.rangePgn addr (pgit + i))) (d.node rs[i]).fpn) ∧
      (∀ q : b.Word, q.toNat < 2 ^ b.indexBits →
        (∀ i < rs.length, q ≠ b.rangePgn addr (pgit + i)) →
          mm'.pgd.pteGetEntry q = mm.pgd.pteGetEntry q) ∧
      ∃ ps', mm'.fifoPgn.Holds
        (waiting ++ (List.range rs.length).map fun i => b.rangePgn addr (pgit + i)) ps' := by
  induction rs generalizing fpit mm waiting ps pgit with
  | nil => exact ⟨mm, rfl, nofun, fun _ _ _ => rfl, ps, by simpa using fifo⟩
  | cons r rs ih =>
      obtain ⟨rfl, rest⟩ := path
      rw [List.length_cons] at within
      have below : pgit < k := by omega
      obtain ⟨int, room⟩ := inSpace.page_lt below
      obtain ⟨pgd, set, serves', entries⟩ := PageTable.pteSetFpn_spec serves
        (inSpace.rangePgn_mem below) (toNat_rangePgn int room).2 (d.node r).fpn
      obtain ⟨mm', run, mapped, others, ps', fifo'⟩ := @ih (d.next r) rest
        ⟨pgd, mm.fifoPgn.enlistPgnNode (b.rangePgn addr pgit)⟩ _ _ serves'
        (fifo.enlistPgnNode (b.rangePgn addr pgit)) (pgit + 1) (by omega)
      have shift : ∀ i, pgit + 1 + i = pgit + (i + 1) := by omega
      simp only [shift] at mapped others fifo'
      refine ⟨mm', ?_, ?_, ?_, ps', ?_⟩
      · rw [List.length_cons, vmapFrom]
        simp only [set]
        rw [if_neg (by simp), run]
      · intro i low
        rw [List.length_cons] at low
        cases i with
        | zero =>
            rw [Nat.add_zero, others _ (toNat_rangePgn int room).2, entries _ (toNat_rangePgn int room).2,
              if_pos rfl, List.getElem_cons_zero]
            intro i low same
            have := inSpace.rangePgn_inj below (by omega) same
            omega
        | succ i =>
            have later : pgit + (i + 1) < k := by omega
            obtain ⟨int', room'⟩ := inSpace.page_lt later
            have apart : b.rangePgn addr (pgit + (i + 1)) ≠ b.rangePgn addr pgit := by
              intro same
              have := inSpace.rangePgn_inj later below same
              omega
            rw [mapped i (by omega), entries _ (toNat_rangePgn int' room').2, if_neg apart,
              List.getElem_cons_succ]
      · intro q low away
        rw [others q low, entries q low, if_neg]
        · exact away 0 (by simp)
        · intro i below
          exact away (i + 1) (by simpa using below)
      · rw [List.length_cons, List.range_succ_eq_map, List.map_cons, List.map_map]
        rw [List.append_assoc, List.singleton_append] at fifo'
        exact fifo'

end Device

/-! ### The machine maps the same pages -/

/-- The entries and the FIFO list are those of an `mm` of the machine. -/
structure MappedMm.Models (mapped : MappedMm b) (mm : Mm b) : Prop where
  entries : ∀ q : b.Word, q.toNat < 2 ^ b.indexBits → mapped.pgd.pteGetEntry q = mm.pteGetEntry q
  fifo : ∃ ps, mapped.fifoPgn.Holds mm.fifoPgn.pgns.reverse ps

section Simulation

variable {P : Type} [DecidableEq P] {m : Machine b P} {p : P} {mapped : MappedMm b} {k : Nat}
  {d : Device b M}

/-- A page is entered and listed in both. -/
theorem MappedMm.Models.mapPage (models : mapped.Models (m.mm p)) {pgn fpn : b.Word}
    (inSpace : pgn.toNat < 2 ^ b.indexBits) {pgd : PageTable b}
    (entries : ∀ q : b.Word, q.toNat < 2 ^ b.indexBits → pgd.pteGetEntry q =
      if q = pgn then b.fpnEntry (mapped.pgd.pteGetEntry pgn) fpn else mapped.pgd.pteGetEntry q) :
    (MappedMm.mk pgd (mapped.fifoPgn.enlistPgnNode pgn)).Models ((m.mapPage p pgn fpn).mm p) := by
  constructor
  · intro q low
    rw [entries q low]
    by_cases here : q = pgn
    · rw [here, if_pos rfl, models.entries pgn inSpace,
        Machine.pteGetEntry_mapPage (inTable_of_lt inSpace)]
    · have apart : b.index q ≠ b.index pgn := fun same => here (index_inj low inSpace same)
      rw [if_neg here, models.entries q low, Machine.pteGetEntry_mapPage_of_ne apart]
  · obtain ⟨ps, holds⟩ := models.fifo
    refine ⟨mapped.fifoPgn.fresh :: ps, ?_⟩
    have listed : ((m.mapPage p pgn fpn).mm p).fifoPgn.pgns = pgn :: (m.mm p).fifoPgn.pgns := by
      simp [Machine.mapPage, Mm.enlistPgnNode, Mm.pteSetFpn]
    rw [listed, List.reverse_cons]
    exact holds.enlistPgnNode pgn

/-- The loop over the linked list does what the machine does over the list of its frames. -/
theorem Device.vmapFrom_models (inSpace : InSpace addr k) {fpit : Option Nat} {rs : List Nat}
    (path : Path d.next fpit rs none) (serves : mapped.pgd.Serves (b.rangePages addr k))
    (models : mapped.Models (m.mm p)) {pgit : Nat} (within : pgit + rs.length ≤ k) :
    ∃ mapped' m', d.vmapFrom addr rs.length pgit fpit mapped = (mapped', 0) ∧
      Machine.vmapPages (some p) addr k (rs.map fun r => (d.node r).fpn) pgit m = some m' ∧
      mapped'.Models (m'.mm p) := by
  induction rs generalizing fpit mapped m pgit with
  | nil => exact ⟨mapped, m, rfl, rfl, models⟩
  | cons r rs ih =>
      obtain ⟨rfl, rest⟩ := path
      rw [List.length_cons] at within
      have below : pgit < k := by omega
      obtain ⟨int, room⟩ := inSpace.page_lt below
      have covered := (toNat_rangePgn int room).2
      obtain ⟨pgd, set, serves', entries⟩ :=
        PageTable.pteSetFpn_spec serves (inSpace.rangePgn_mem below) covered (d.node r).fpn
      have later : pgit + 1 + rs.length ≤ k := by omega
      obtain ⟨mapped', m', run, run', models'⟩ :=
        ih rest serves' (models.mapPage covered entries) later
      have page : Machine.rangePgn addr pgit = b.rangePgn addr pgit := by
        rw [Machine.rangePgn, Build.rangePgn, intProduct_eq int]
      refine ⟨mapped', m', ?_, ?_, models'⟩
      · rw [List.length_cons, vmapFrom]
        simp only [set]
        rw [if_neg (by simp), run]
      · rw [List.map_cons, Machine.vmapPages, if_pos below, page]
        exact run'

/-- `vmap_page_range` on the list that `alloc_pages_range` hands over is the one of the machine
on these frames. -/
theorem Device.vmapPageRange_models (inSpace : InSpace addr k) {frames : Option Nat}
    {owner : Option M} {fpns : List b.Word} (hands : d.HandsOver frames owner fpns)
    (count : fpns.length = k) (serves : mapped.pgd.Serves (b.rangePages addr k))
    (models : mapped.Models (m.mm p)) (retRg : Option (Region b)) :
    ∃ mapped' m' rg,
      d.vmapPageRange addr (BitVec.ofNat 32 k) frames retRg mapped =
        (mapped', retRg.map fun _ => rg, 0) ∧
      m.vmapPageRange (some p) addr k fpns = some (m', rg) ∧ mapped'.Models (m'.mm p) := by
  obtain ⟨rs, passes, entries⟩ := hands
  have cells : rs.map (fun r => (d.node r).fpn) = fpns := by
    have firsts := congrArg (List.map Prod.fst) entries
    simpa [List.map_map, Function.comp_def, Device.entry] using firsts
  have length : rs.length = k := by
    rw [← count, ← cells, List.length_map]
  have within : 0 + rs.length ≤ k := by omega
  obtain ⟨mapped', m', run, run', models'⟩ :=
    Device.vmapFrom_models inSpace passes.path serves models within
  rw [length] at run
  rw [cells] at run'
  refine ⟨mapped', m', ⟨addr, addr + word b k * word b b.pageSz⟩, ?_, ?_, models'⟩
  · rw [vmapPageRange, inSpace.toNat_count, run, intProduct_eq inSpace.int]
  · rw [Machine.vmapPageRange, run']
    rfl

end Simulation

/-- For both builds, every RAM device whose free list has `k` frames that fit the entries and
every `mm`: the first `k` free frames are taken, in order, and mapped to the `k` pages from an
address on, in order. No other entry changes, and the pages are put on the FIFO list one after
the other. -/
theorem range_mapped {k : Nat} {d : Device b M} {free : List b.Word} {used : List (b.Word × Option M)}
    (lists : d.Lists free used) (ram : (free.length * b.pageSz : Nat) ≤ d.maxsz.toInt)
    (enough : k ≤ free.length) (fits : ∀ fpn ∈ free.take k, fpn.toNat < b.frames)
    (owner : Option M) {grant : Nat → Bool} (granted : ∀ i < k, grant i = true)
    (space : addr.toNat + k * b.pageSz ≤ 2 ^ (b.indexBits + b.pageBits)) {mm : MappedMm b}
    (serves : mm.pgd.Serves (b.rangePages addr k)) {waiting : List b.Word} {ps : List Nat}
    (fifo : mm.fifoPgn.Holds waiting ps) (retRg : Option (Region b)) :
    ∃ d' frames mm',
      d.allocPagesRange owner grant (BitVec.ofNat 32 k) none = some (d', frames, 0) ∧
      d'.HandsOver frames owner (free.take k) ∧ d'.Lists (free.drop k) used ∧
      d'.vmapPageRange addr (BitVec.ofNat 32 k) frames retRg mm = (mm',
        retRg.map fun _ => ⟨addr, word b (addr.toNat + k * b.pageSz)⟩, 0) ∧
      (∀ i (h : i < k),
        let pte := mm'.pgd.pteGetEntry (b.pagingPgn addr + BitVec.ofNat b.width i)
        b.pagePresent pte = true ∧ b.pageSwapped pte = false ∧ b.pagingFpn pte = free[i]) ∧
      (∀ pgn : b.Word, pgn.toNat < 2 ^ b.indexBits → pgn ∉ b.rangePages addr k →
        mm'.pgd.pteGetEntry pgn = mm.pgd.pteGetEntry pgn) ∧
      ∃ ps', mm'.fifoPgn.Holds (waiting ++ b.rangePages addr k) ps' := by
  have int : k * b.pageSz < 2 ^ 31 := by
    have few := Nat.mul_le_mul_right b.pageSz enough
    have size : d.maxsz.toInt < 2 ^ 31 := BitVec.toInt_lt
    omega
  have inSpace : InSpace addr k := ⟨int, space⟩
  have count : (BitVec.ofNat 32 k).toInt.toNat = k := inSpace.toNat_count
  have numbers : ∀ i < k, b.rangePgn addr i = b.pagingPgn addr + BitVec.ofNat b.width i :=
    fun i below => inSpace.rangePgn_eq below
  have granted' : ∀ i < (BitVec.ofNat 32 k).toInt.toNat, grant i = true := by rwa [count]
  obtain ⟨d', frames, took, rest, ⟨rs, passes, entries⟩, -, -⟩ :=
    lists.allocPagesRange owner granted'
  rw [count] at took rest entries
  rw [if_pos enough] at took
  have length : rs.length = k := by
    have lengths := congrArg List.length entries
    simp only [List.length_map, List.length_take] at lengths
    omega
  have within : 0 + rs.length ≤ k := by omega
  obtain ⟨mm', run, mapped, others, ps', pushed⟩ :=
    Device.vmapFrom_spec inSpace passes.path serves fifo within
  simp only [Nat.zero_add, length] at run mapped others pushed
  refine ⟨d', frames, mm', took, ⟨rs, passes, entries⟩, rest, ?_, ?_, ?_, ps', ?_⟩
  · have wide := mm.pgd.space_lt
    have inWord : 2 ^ (b.indexBits + b.pageBits) < 2 ^ b.width :=
      Nat.pow_lt_pow_right (by decide) wide
    have rgEnd : addr + (BitVec.ofNat 32 k * BitVec.ofNat 32 b.pageSz).signExtend b.width =
        word b (addr.toNat + k * b.pageSz) := by
      apply BitVec.eq_of_toNat_eq
      rw [BitVec.toNat_add, toNat_intProduct int, word, BitVec.toNat_ofNat]
    rw [Device.vmapPageRange, count, run, rgEnd]
  · intro i low
    have below : i < rs.length := by omega
    have fpn : (d'.node rs[i]).fpn = free[i] := by
      have cells := congrArg (·[i]?) entries
      simp only [List.getElem?_map, List.getElem?_eq_getElem below, Option.map_some,
        List.getElem?_take_of_lt low, List.getElem?_eq_getElem (low.trans_le enough)] at cells
      exact congrArg Prod.fst (Option.some.inj cells)
    have small : free[i].toNat < b.frames :=
      fits _ (List.mem_take_iff_getElem.mpr ⟨i, by omega, rfl⟩)
    rw [← numbers i low, mapped i low, fpn]
    exact ⟨b.pagePresent_fpnEntry _ _, b.pageSwapped_fpnEntry _ _, b.pagingFpn_fpnEntry _ small⟩
  · intro pgn low away
    refine others pgn low ?_
    rintro i below rfl
    exact away (inSpace.rangePgn_mem below)
  · have pages : (List.range k).map (fun i => b.rangePgn addr i) = b.rangePages addr k :=
      List.map_congr_left fun i member => numbers i (List.mem_range.mp member)
    rw [← pages]
    exact pushed

/-- Two pages on a fresh device of two frames, in each build. -/
theorem range_mapped_twoPages :
    (∃ d' frames mm',
      ((Device.unset .mm32 Unit).initMemphy 512 1).allocPagesRange (some ()) (fun _ => true) 2 none =
        some (d', frames, 0) ∧
      d'.vmapPageRange 0x300 2 frames (some ⟨0, 0⟩) ⟨.mm32 fun _ => 0, .init _⟩ =
        (mm', some ⟨0x300, 0x500⟩, 0) ∧
      Build.mm32.pagingFpn (mm'.pgd.pteGetEntry 4) = 1) ∧
    ∃ d' frames mm',
      ((Device.unset .mm64 Unit).initMemphy 8192 1).allocPagesRange (some ()) (fun _ => true) 2 none =
        some (d', frames, 0) ∧
      d'.vmapPageRange 0x3000 2 frames (some ⟨0, 0⟩) ⟨.mm64 Mm64.grant Mm64.rootOnly, .init _⟩ =
        (mm', some ⟨0x3000, 0x5000⟩, 0) ∧
      Build.mm64.pagingFpn (mm'.pgd.pteGetEntry 4) = 1 := by
  have granted : ∀ i < 2, (fun _ : Nat => true) i = true := fun _ _ => rfl
  constructor
  · have lists : ((Device.unset .mm32 Unit).initMemphy 512 1).Lists (stock .mm32 2) [] :=
      (Device.initMemphy_lists_iff _ 1 (show (512 : Build.mm32.Word).toNat < 2 ^ 31 by decide)).mpr
        nofun
    have size : ((Device.unset .mm32 Unit).initMemphy 512 1).maxsz.toInt = 512 :=
      congrArg BitVec.toInt (Device.maxsz_initMemphy _ _ _)
    have fits : ∀ fpn ∈ (stock .mm32 2).take 2, fpn.toNat < Build.mm32.frames :=
      fun fpn member => (lt_of_mem_stock (List.mem_of_mem_take member)).trans_le (by decide)
    have space : (0x300 : Build.mm32.Word).toNat + 2 * Build.mm32.pageSz ≤
        2 ^ (Build.mm32.indexBits + Build.mm32.pageBits) := by decide
    have serves : (MappedMm.mk (.mm32 fun _ => 0) (.init _)).pgd.Serves
        (Build.mm32.rangePages 0x300 2) := trivial
    obtain ⟨d', frames, mm', took, -, -, run, mapped, -⟩ :=
      range_mapped lists (by rw [size]; decide) (by decide) fits (some ()) granted space serves
        (PgnList.holds_init _) (some ⟨0, 0⟩)
    exact ⟨d', frames, mm', took, run, (mapped 1 (by decide)).2.2⟩
  · have lists : ((Device.unset .mm64 Unit).initMemphy 8192 1).Lists (stock .mm64 2) [] :=
      (Device.initMemphy_lists_iff _ 1 (show (8192 : Build.mm64.Word).toNat < 2 ^ 31 by decide)).mpr
        nofun
    have size : ((Device.unset .mm64 Unit).initMemphy 8192 1).maxsz.toInt = 8192 :=
      congrArg BitVec.toInt (Device.maxsz_initMemphy _ _ _)
    have fits : ∀ fpn ∈ (stock .mm64 2).take 2, fpn.toNat < Build.mm64.frames :=
      fun fpn member => (lt_of_mem_stock (List.mem_of_mem_take member)).trans_le (by decide)
    have space : (0x3000 : Build.mm64.Word).toNat + 2 * Build.mm64.pageSz ≤
        2 ^ (Build.mm64.indexBits + Build.mm64.pageBits) := by decide
    have init : Mm64.initMm Mm64.grant = some Mm64.rootOnly := rfl
    have few := Mm64.card_missing_le Mm64.rootOnly (Build.mm64.rangePages 0x3000 2)
    have serves : (MappedMm.mk (.mm64 Mm64.grant Mm64.rootOnly) (.init _)).pgd.Serves
        (Build.mm64.rangePages 0x3000 2) :=
      ⟨(Mm64.initMm_spec init).1,
        (Mm64.granting_rootOnly.mono (few.trans (by decide))).granted⟩
    obtain ⟨d', frames, mm', took, -, -, run, mapped, -⟩ :=
      range_mapped lists (by rw [size]; decide) (by decide) fits (some ()) granted space serves
        (PgnList.holds_init _) (some ⟨0, 0⟩)
    exact ⟨d', frames, mm', took, run, (mapped 1 (by decide)).2.2⟩

end Range

end SimpleOs.Mem
