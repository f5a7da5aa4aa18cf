import SimpleOs.Mem.TableGrants

/-!
# The page table as a flat array

An entry per page number, all zero at first, and calls that replace the entries
of their pages in order until one cannot be reached: that is what the page table
of a process is for. The tables of `mm64.c` refine it, except that
`vmap_pgd_memset` computes the offset of a page as an `int`. From its
`2^19`-th page on that product wraps and the call clears entries outside its
range.
-/

namespace SimpleOs.Mem.Mm64

open Bitfield RadixTree

variable {reply : Nat → Reply} {mm mm' : Mm}

inductive Call where
  | setEntry (pgn pteVal : Word)
  | setFpn (pgn fpn : Word)
  | setSwap (pgn : Word) (swptyp : BitVec 32) (swpoff : Word)
  | memset (addr : Word) (pgnum : BitVec 32)

/-- The code's state after a call, and what the call returned. -/
def exec (reply : Nat → Reply) (mm : Mm) : Call → Mm × Int
  | .setEntry pgn pteVal => pteSetEntry reply mm pgn pteVal
  | .setFpn pgn fpn => pteSetFpn reply mm pgn fpn
  | .setSwap pgn swptyp swpoff => pteSetSwap reply mm pgn swptyp swpoff
  | .memset addr pgnum => vmapPgdMemset reply mm addr pgnum

namespace Call

/-- The pages a call is for, in the order it comes to them. -/
def pages : Call → List Word
  | setEntry pgn _ => [pgn]
  | setFpn pgn _ => [pgn]
  | setSwap pgn _ _ => [pgn]
  | memset addr pgnum =>
      (List.range pgnum.toInt.toNat).map fun i => BitVec.ofNat 64 (addr.toNat / 4096 + i)

/-- What becomes of an entry. -/
def newEntry : Call → Word → Word
  | setEntry _ pteVal, _ => pteVal
  | setFpn _ fpn, pte => Build.mm64.fpnEntry pte fpn
  | setSwap _ swptyp swpoff, pte => Build.mm64.swapEntry pte (swptyp.signExtend 64) swpoff
  | memset _ _, _ => 0

/-- One of the `pte_set_*` calls. -/
def IsSetter : Call → Prop
  | memset _ _ => False
  | _ => True

/-- All page numbers of the call are below `2^45`. -/
def InBus : Call → Prop
  | setEntry pgn _ => pgn.toNat < 2 ^ 45
  | setFpn pgn _ => pgn.toNat < 2 ^ 45
  | setSwap pgn _ _ => pgn.toNat < 2 ^ 45
  | memset addr pgnum => addr.toNat / 4096 + pgnum.toInt.toNat ≤ 2 ^ 45

/-- `vmap_pgd_memset` is asked for at most `2^19` pages. -/
def Short : Call → Prop
  | memset _ pgnum => pgnum.toInt ≤ 2 ^ 19
  | _ => True

end Call

/-- A call on the flat array: the first `done` of its pages get their new entry,
and it returns `0` when these are all and `-1` otherwise. -/
def FlatStep (flat : Word → Word) (c : Call) (ret : Int) (flat' : Word → Word) : Prop :=
  ∃ done, (done = c.pages.length ∧ ret = 0 ∨ done < c.pages.length ∧ ret = -1) ∧
    flat' = fun q => if q ∈ c.pages.take done then c.newEntry (flat q) else flat q

/-- Every entry reads as the flat array has it. -/
def Agrees (mm : Mm) (flat : Word → Word) : Prop :=
  ∀ pgn : Word, pgn.toNat < 2 ^ 45 → pteGetEntry mm pgn = flat pgn

/-- A call changes the entries of its own pages at most, and a `pte_set_*` call
that fails changes none. -/
structure Local (mm : Mm) (c : Call) (ret : Int) (mm' : Mm) : Prop where
  own : ∀ pgn : Word, pgn.toNat < 2 ^ 45 → pgn ∉ c.pages →
    pteGetEntry mm' pgn = pteGetEntry mm pgn
  refused : c.IsSetter → ret = -1 → ∀ pgn : Word, pgn.toNat < 2 ^ 45 →
    pteGetEntry mm' pgn = pteGetEntry mm pgn

/-- Before and after each of the calls the table agrees with a flat array that
answers the same calls with the same return values. -/
def Refines (reply : Nat → Reply) : Mm → (Word → Word) → List Call → Prop
  | mm, flat, [] => Agrees mm flat
  | mm, flat, c :: calls =>
      Agrees mm flat ∧ Local mm c (exec reply mm c).2 (exec reply mm c).1 ∧
        ∃ flat', FlatStep flat c (exec reply mm c).2 flat' ∧
          Refines reply (exec reply mm c).1 flat' calls

theorem memsetFrom_of_refused {addr : Word} {pgit left : Nat}
    (refused : (setEntryBy reply mm (pageAt addr pgit) fun _ => 0).2 = -1) :
    memsetFrom reply addr mm pgit (left + 1) =
      ((setEntryBy reply mm (pageAt addr pgit) fun _ => 0).1, -1) := by
  show (if (setEntryBy reply mm (pageAt addr pgit) fun _ => 0).2 < 0 then _ else _) = _
  exact if_pos (by omega)

theorem memsetFrom_of_stored {addr : Word} {pgit left : Nat}
    (stored : (setEntryBy reply mm (pageAt addr pgit) fun _ => 0).2 = 0) :
    memsetFrom reply addr mm pgit (left + 1) =
      memsetFrom reply addr (setEntryBy reply mm (pageAt addr pgit) fun _ => 0).1 (pgit + 1)
        left := by
  show (if (setEntryBy reply mm (pageAt addr pgit) fun _ => 0).2 < 0 then _ else _) = _
  exact if_neg (by omega)

/-- The loop of `vmap_pgd_memset` clears the entries it computes, in order, and
stops at the first it cannot reach. -/
theorem memsetFrom_spec (reply : Nat → Reply) (wf : WellFormed mm) {addr : Word} {pgit left : Nat}
    (inBus : ∀ i < left, (pageAt addr (pgit + i)).toNat < 2 ^ 45) :
    WellFormed (memsetFrom reply addr mm pgit left).1 ∧
      ∃ done, (done = left ∧ (memsetFrom reply addr mm pgit left).2 = 0 ∨
          done < left ∧ (memsetFrom reply addr mm pgit left).2 = -1) ∧
        ∀ q : Word, q.toNat < 2 ^ 45 →
          pteGetEntry (memsetFrom reply addr mm pgit left).1 q =
            if ∃ i < done, q = pageAt addr (pgit + i) then 0 else pteGetEntry mm q := by
  induction left generalizing mm pgit with
  | zero => exact ⟨wf, 0, .inl ⟨rfl, rfl⟩, by simp [memsetFrom]⟩
  | succ left ih =>
      have first : (pageAt addr pgit).toNat < 2 ^ 45 := inBus 0 (by omega)
      obtain ⟨wf', ⟨failed, same⟩ | ⟨succeeded, stored⟩⟩ :=
        setEntryBy_spec reply wf first fun _ => 0
      · rw [memsetFrom_of_refused failed]
        refine ⟨wf', 0, .inr ⟨by omega, rfl⟩, ?_⟩
        intro q _
        simpa using same q
      · have later : ∀ i < left, (pageAt addr (pgit + 1 + i)).toNat < 2 ^ 45 := by
          intro i below
          rw [Nat.add_assoc, Nat.add_comm 1]
          exact inBus (i + 1) (by omega)
        obtain ⟨wf'', done, count, cleared⟩ := ih wf' later
        rw [memsetFrom_of_stored succeeded]
        refine ⟨wf'', done + 1, by omega, ?_⟩
        intro q qInBus
        refine (cleared q qInBus).trans ?_
        rw [stored q qInBus]
        by_cases now : q = pageAt addr pgit
        · have hit : ∃ i < done + 1, q = pageAt addr (pgit + i) := ⟨0, by omega, now⟩
          rw [if_pos now, if_pos hit, ite_self]
        · rw [if_neg now]
          refine if_congr ?_ rfl rfl
          constructor
          · rintro ⟨i, below, at_page⟩
            exact ⟨i + 1, by omega, by rwa [Nat.add_assoc, Nat.add_comm 1] at at_page⟩
          · rintro ⟨i, below, at_page⟩
            cases i with
            | zero => exact absurd at_page now
            | succ i =>
                exact ⟨i, by omega, by rwa [Nat.add_assoc, Nat.add_comm 1]⟩

/-- Below the wrap the loop visits the pages of its range. -/
theorem pageAt_eq {addr : Word} {pgit : Nat} (short : pgit < 2 ^ 19)
    (inBus : addr.toNat / 4096 + pgit < 2 ^ 45) :
    pageAt addr pgit = BitVec.ofNat 64 (addr.toNat / 4096 + pgit) := by
  have product : ((BitVec.ofNat 32 pgit * BitVec.ofNat 32 4096).signExtend 64).toNat =
      pgit * 4096 := by
    have value : (BitVec.ofNat 32 pgit * BitVec.ofNat 32 4096).toNat = pgit * 4096 := by
      rw [BitVec.toNat_mul, BitVec.toNat_ofNat, BitVec.toNat_ofNat]
      omega
    have positive : (BitVec.ofNat 32 pgit * BitVec.ofNat 32 4096).msb = false := by
      rw [BitVec.msb_eq_false_iff_two_mul_lt, value]
      omega
    rw [BitVec.signExtend_eq_setWidth_of_msb_false positive, BitVec.toNat_setWidth, value]
    omega
  have page : (pageAt addr pgit).toNat =
      (addr + (BitVec.ofNat 32 pgit * BitVec.ofNat 32 4096).signExtend 64).toNat / 2 ^ 12
        % 2 ^ (63 + 1 - 12) := Build.mm64.toNat_pagingPgn _
  apply BitVec.eq_of_toNat_eq
  rw [page, BitVec.toNat_add, product, BitVec.toNat_ofNat]
  omega

/-- Every call of moderate length steps as the flat array does. -/
theorem exec_spec (reply : Nat → Reply) (wf : WellFormed mm) {c : Call} (inBus : c.InBus)
    (short : c.Short) {flat : Word → Word} (agrees : Agrees mm flat) :
    WellFormed (exec reply mm c).1 ∧
      ∃ flat', FlatStep flat c (exec reply mm c).2 flat' ∧ Agrees (exec reply mm c).1 flat' := by
  -- the three setters differ in the entry they leave only
  have setter : ∀ {pgn : Word} {update : Word → Word}, pgn.toNat < 2 ^ 45 → c.pages = [pgn] →
      c.newEntry = update → exec reply mm c = setEntryBy reply mm pgn update →
      WellFormed (exec reply mm c).1 ∧
        ∃ flat', FlatStep flat c (exec reply mm c).2 flat' ∧
          Agrees (exec reply mm c).1 flat' := by
    intro pgn update pgnInBus single entry same
    obtain ⟨wf', ⟨failed, kept⟩ | ⟨succeeded, stored⟩⟩ := setEntryBy_spec reply wf pgnInBus update
    · rw [same, failed]
      refine ⟨wf', flat, ⟨0, .inr ⟨by simp [single], rfl⟩, by simp⟩, ?_⟩
      intro q qInBus
      rw [kept q, agrees q qInBus]
    · rw [same, succeeded]
      refine ⟨wf', _, ⟨1, .inl ⟨by simp [single], rfl⟩, rfl⟩, ?_⟩
      intro q qInBus
      rw [stored q qInBus, single, entry]
      by_cases here : q = pgn
      · subst here
        simp [agrees q qInBus]
      · simp [here, agrees q qInBus]
  cases c with
  | setEntry pgn pteVal => exact setter inBus rfl rfl rfl
  | setFpn pgn fpn => exact setter inBus rfl rfl rfl
  | setSwap pgn swptyp swpoff => exact setter inBus rfl rfl rfl
  | memset addr pgnum =>
      change addr.toNat / 4096 + pgnum.toInt.toNat ≤ 2 ^ 45 at inBus
      change pgnum.toInt ≤ 2 ^ 19 at short
      have page : ∀ i < pgnum.toInt.toNat,
          pageAt addr (0 + i) = BitVec.ofNat 64 (addr.toNat / 4096 + i) := by
        intro i below
        rw [Nat.zero_add]
        exact pageAt_eq (by omega) (by omega)
      have pagesInBus : ∀ i < pgnum.toInt.toNat, (pageAt addr (0 + i)).toNat < 2 ^ 45 := by
        intro i below
        rw [page i below, BitVec.toNat_ofNat]
        omega
      obtain ⟨wf', done, count, cleared⟩ := memsetFrom_spec reply wf pagesInBus
      have length : (Call.memset addr pgnum).pages.length = pgnum.toInt.toNat := by
        simp [Call.pages]
      refine ⟨wf', _, ⟨done, by rw [length]; exact count, rfl⟩, ?_⟩
      intro q qInBus
      refine (cleared q qInBus).trans ?_
      rw [agrees q qInBus]
      refine if_congr ?_ rfl rfl
      have upTo : min done pgnum.toInt.toNat = done := by omega
      rw [Call.pages, ← List.map_take, List.take_range, upTo]
      simp only [List.mem_map, List.mem_range]
      constructor
      · rintro ⟨i, below, at_page⟩
        exact ⟨i, below, (at_page.trans (page i (by omega))).symm⟩
      · rintro ⟨i, below, at_page⟩
        exact ⟨i, below, at_page.symm.trans (page i (by omega)).symm⟩

/-- What the flat array leaves alone, the call leaves alone. -/
theorem local_of_flatStep {c : Call} {ret : Int} {flat flat' : Word → Word}
    (agrees : Agrees mm flat) (step : FlatStep flat c ret flat') (agrees' : Agrees mm' flat') :
    Local mm c ret mm' := by
  obtain ⟨done, count, after⟩ := step
  refine ⟨?_, ?_⟩
  · intro pgn inBus other
    have untouched : pgn ∉ c.pages.take done := fun member => other (List.mem_of_mem_take member)
    rw [agrees' pgn inBus, agrees pgn inBus, after]
    exact if_neg untouched
  · intro setter failed pgn inBus
    have none_done : done = 0 := by
      cases c <;> simp [Call.pages, Call.IsSetter] at count setter <;> omega
    rw [agrees' pgn inBus, agrees pgn inBus, after, none_done]
    simp

theorem refines_of_short (wf : WellFormed mm) {flat : Word → Word} (agrees : Agrees mm flat)
    (calls : List Call) (inBus : ∀ c ∈ calls, c.InBus) (short : ∀ c ∈ calls, c.Short) :
    Refines reply mm flat calls := by
  induction calls generalizing mm flat with
  | nil => exact agrees
  | cons c calls ih =>
      obtain ⟨wf', flat', step, agrees'⟩ :=
        exec_spec reply wf (inBus c (by simp)) (short c (by simp)) agrees
      refine ⟨agrees, local_of_flatStep agrees step agrees', flat', step, ?_⟩
      exact ih wf' agrees' (fun d member => inBus d (List.mem_cons_of_mem c member))
        fun d member => short d (List.mem_cons_of_mem c member)

/-- On a fresh `mm` the 5-level table is a flat array, whatever allocations fail,
as long as no `vmap_pgd_memset` is asked for more than `2^19` pages. -/
theorem pageTable_refines_flat {reply : Nat → Reply} {mm : Mm} (init : initMm reply = some mm)
    (calls : List Call) (inBus : ∀ c ∈ calls, c.InBus) (short : ∀ c ∈ calls, c.Short) :
    Refines reply mm (fun _ => 0) calls := by
  obtain ⟨wf, zero⟩ := initMm_spec init
  exact refines_of_short wf (fun pgn _ => zero pgn) calls inBus short

/-- The first three tables are granted, with leftovers in them, and no more. -/
def threeTables (k : Nat) : Reply :=
  if k < 3 then some (BitVec.ofNat 64 (k + 1), fun _ => 0xff) else none

theorem pageTable_refines_flat_threeTables : ∃ mm, initMm threeTables = some mm ∧
    Refines threeTables mm (fun _ => 0)
      [.setFpn 5 7, .memset 0x5000 2, .setSwap 5 0 3, .setEntry 0x1000000000 1] := by
  refine ⟨_, rfl, pageTable_refines_flat rfl _ ?_ ?_⟩ <;> simp [Call.InBus, Call.Short]

section Wrap

/-- Every table is granted, at the next address. -/
def grant (k : Nat) : Reply := some (BitVec.ofNat 64 (k + 1), fun _ => 0)

/-- `n` more requests will be granted: no block lies beyond the count of requests,
and the count stays within the address space. -/
structure Granting (mm : Mm) (n : Nat) : Prop where
  live : ∀ b, (mm.tables b).isSome → b.toNat ≤ mm.mallocs
  room : mm.mallocs + n < 2 ^ 64

theorem Granting.mono {m n : Nat} (granting : Granting mm n) (fewer : m ≤ n) : Granting mm m :=
  ⟨granting.live, Nat.lt_of_le_of_lt (Nat.add_le_add_left fewer _) granting.room⟩

/-- A `malloc` that hands out block after block grants what is asked of it. -/
theorem Granting.granted {n : Nat} (granting : Granting mm n) : Granted grant mm n := by
  have room := granting.room
  have number : ∀ j < n, (BitVec.ofNat 64 (mm.mallocs + j + 1)).toNat = mm.mallocs + j + 1 :=
    fun j below => Nat.mod_eq_of_lt (by omega)
  refine ⟨fun j => BitVec.ofNat 64 (mm.mallocs + j + 1), ?_, ?_⟩
  · intro j below
    have value := number j below
    refine ⟨?_, ?_, _, rfl⟩
    · intro zero
      rw [show BitVec.ofNat 64 (mm.mallocs + j + 1) = 0 from zero] at value
      cases value
    · by_contra live
      have old := granting.live _ (Option.isSome_iff_ne_none.mpr live)
      rw [value] at old
      omega
  · intro i below j below' same
    have values := congrArg BitVec.toNat same
    simp only [number i below, number j below'] at values
    omega

/-- With the tables of its pages granted, the loop of `vmap_pgd_memset` comes to its end. -/
theorem Granted.memsetFrom {pages : List Word} {addr : Word} {pgit left : Nat}
    (granted : Granted reply mm (missing mm (tablesFor pages)).card) (wf : WellFormed mm)
    (inBus : ∀ i < left, (pageAt addr (pgit + i)).toNat < 2 ^ 45)
    (members : ∀ i < left, pageAt addr (pgit + i) ∈ pages) :
    (memsetFrom reply addr mm pgit left).2 = 0 := by
  induction left generalizing mm pgit with
  | zero => rfl
  | succ left ih =>
      have first : (pageAt addr pgit).toNat < 2 ^ 45 := inBus 0 (by omega)
      have member : pageAt addr pgit ∈ pages := members 0 (by omega)
      obtain ⟨granted', stored⟩ := granted.setEntryBy wf member fun _ => 0
      obtain ⟨wf', -⟩ := setEntryBy_spec reply wf first fun _ => 0
      have next : ∀ i, pgit + 1 + i = pgit + (i + 1) := fun i => by omega
      rw [memsetFrom_of_stored stored]
      refine ih granted' wf' ?_ ?_
      · intro i below
        rw [next]
        exact inBus (i + 1) (by omega)
      · intro i below
        rw [next]
        exact members (i + 1) (by omega)

/-- From address `2^31` on, the product for the page with index `2^19` wraps back
to address `0`; every page the loop computes is one of the first `2^20`. -/
theorem pageAt_wrap {pgit : Nat} (within : pgit < 2 ^ 19 + 1) :
    (pageAt 0x80000000 pgit).toNat < 2 ^ 45 ∧ pageAt 0x80000000 (2 ^ 19) = 0 := by
  refine ⟨?_, by decide⟩
  by_cases short : pgit < 2 ^ 19
  · rw [pageAt_eq short (by simp; omega), BitVec.toNat_ofNat]
    simp
    omega
  · have last : pgit = 2 ^ 19 := by omega
    subst last
    decide

/-- Granted its tables, a request for the `2^19 + 1` pages from address `2^31`
on succeeds and clears the entry of page `0`. -/
theorem memset_clears_page_zero {pages : List Word}
    (granted : Granted reply mm (missing mm (tablesFor pages)).card) (wf : WellFormed mm)
    (members : ∀ i < 0x80001, pageAt 0x80000000 i ∈ pages) :
    (vmapPgdMemset reply mm 0x80000000 0x80001).2 = 0 ∧
      pteGetEntry (vmapPgdMemset reply mm 0x80000000 0x80001).1 0 = 0 := by
  have inBus : ∀ i < 0x80001, (pageAt 0x80000000 (0 + i)).toNat < 2 ^ 45 := by
    intro i below
    rw [Nat.zero_add]
    exact (pageAt_wrap below).1
  have completed : (memsetFrom reply 0x80000000 mm 0 0x80001).2 = 0 := by
    refine granted.memsetFrom wf inBus ?_
    intro i below
    rw [Nat.zero_add]
    exact members i below
  obtain ⟨-, done, ⟨all, -⟩ | ⟨-, failed⟩, cleared⟩ := memsetFrom_spec reply wf inBus
  · refine ⟨completed, (cleared 0 (by decide)).trans (if_pos ⟨2 ^ 19, by omega, ?_⟩)⟩
    rw [Nat.zero_add]
    exact (pageAt_wrap (Nat.zero_lt_succ _)).2.symm
  · rw [completed] at failed
    cases failed

/-- What `init_mm` sets up when its table is granted. -/
def rootOnly : Mm :=
  ⟨1, (Heap.alloc (fun _ => none) 1 fun _ => 0).clear 1 (List.finRange 512), 1⟩

theorem granting_rootOnly : Granting rootOnly (2 ^ 32) := by
  refine ⟨?_, by decide⟩
  intro b alive
  by_cases block : b = 1#64
  · rw [block]
    decide
  · simp [rootOnly, Heap.clear_apply, Heap.alloc, block] at alive

/-- An entry for page `0`, then a request to clear the `2^19 + 1` pages from
address `2^31` on: page `0` loses its entry. -/
theorem memset_wraps : ¬ ∀ (reply : Nat → Reply) (mm : Mm) (calls : List Call),
    initMm reply = some mm → (∀ c ∈ calls, c.InBus) → Refines reply mm (fun _ => 0) calls := by
  intro refines
  have init : initMm grant = some rootOnly := rfl
  have wf := (initMm_spec init).1
  obtain ⟨pages, size, members⟩ : ∃ pages : List Word, pages.length = 0x80001 ∧
      ∀ i < 0x80001, pageAt 0x80000000 i ∈ pages :=
    ⟨(List.range 0x80001).map (pageAt 0x80000000), by rw [List.length_map, List.length_range],
      fun i below => List.mem_map.mpr ⟨i, List.mem_range.mpr below, rfl⟩⟩
  have few : (missing rootOnly (tablesFor pages)).card ≤ 2 ^ 32 :=
    (card_missing_le _ _).trans (by omega)
  have zeroth : (0 : Word) ∈ pages :=
    (pageAt_wrap (Nat.zero_lt_succ _)).2 ▸ members (2 ^ 19) (by decide)
  obtain ⟨granted, stored⟩ :=
    (granting_rootOnly.mono few).granted.setEntryBy wf zeroth fun _ => 1
  have wf' := (setEntryBy_spec grant wf (show (0 : Word).toNat < 2 ^ 45 by decide) fun _ => 1).1
  obtain ⟨completed, lost⟩ := memset_clears_page_zero granted wf' members
  obtain ⟨-, -, flat, ⟨done, count, set⟩, -, -, flat', ⟨done', -, kept⟩, agrees⟩ :=
    refines grant rootOnly [.setEntry 0 1, .memset 0x80000000 0x80001] init
      (by simp [Call.InBus])
  -- the flat array keeps the entry, since page 0 is none of the requested pages
  have entry : flat 0 = 1 := by
    obtain ⟨all, -⟩ | ⟨-, failed⟩ := count
    · simp [set, all, Call.pages, Call.newEntry]
    · change (setEntryBy grant rootOnly 0 fun _ => 1).2 = -1 at failed
      rw [stored] at failed
      cases failed
  have other : (0 : Word) ∉ (Call.memset 0x80000000 0x80001).pages := by
    simp only [Call.pages, List.mem_map, List.mem_range]
    rintro ⟨i, below, page⟩
    have number := congrArg BitVec.toNat page
    simp at number below
    omega
  have read : flat' 0 = 1 := by
    rw [kept]
    exact (if_neg fun member => other (List.mem_of_mem_take member)).trans entry
  have zero : flat' 0 = 0 := (agrees 0 (by decide)).symm.trans lost
  rw [read] at zero
  cases zero

end Wrap

end SimpleOs.Mem.Mm64
