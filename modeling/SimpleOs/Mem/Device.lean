import SimpleOs.Lib.LinkedList
import SimpleOs.Mem.Memphy

/-!
# A device and its lists of frames

`struct memphy_struct` of `mm-memphy.c` with all its fields: the storage, the cursor of a
sequential device, and the lists of free and of used frames, whose nodes `malloc` hands out.
What a node holds before it is filled in is whatever is there. `Carries` reads a list off the
links, and each operation is shown to do to these lists what it is for. `Models` says that a
device is one of those that the rest of the kernel works on.

A function gives `none` where the code dereferences `NULL`, leaves the storage, or walks a list
that does not end.
-/

namespace SimpleOs.Mem

open LinkedList (Path search search_spec path_append path_split)

/-- `struct framephy_struct`, where `M` are the pointers to an `mm`. -/
structure Framephy (b : Build) (M : Type) where
  fpn : b.Word
  fpNext : Option Nat
  owner : Option M

/-- A block from `malloc`, with as many bytes as were asked for. -/
structure Block where
  size : Nat
  byte : Nat → Byte

/-- `struct memphy_struct`. Nodes are numbered in the order in which they are allocated, those
from `fresh` on have not been yet. -/
structure Device (b : Build) (M : Type) where
  storage : Option Block
  maxsz : BitVec 32
  rdmflg : Bool
  cursor : Int
  freeFpList : Option Nat
  usedFpList : Option Nat
  node : Nat → Framephy b M
  fresh : Nat

variable {b : Build} {M : Type}

namespace Device

/-! ## Bytes -/

/-- `MEMPHY_mv_csr`: one step for each round of a loop that counts to the offset, and not past
the size. -/
def mvCsr (d : Device b M) (offset : b.Word) : Device b M :=
  { d with
    cursor := (fun csr => (csr + 1).tmod d.maxsz.toInt)^[min offset.toNat d.maxsz.toInt.toNat] 0 }

/-- `storage[addr]` -/
def byteAt (d : Device b M) (addr : b.Word) : Option Byte :=
  d.storage.bind fun block => if addr.toNat < block.size then some (block.byte addr.toNat) else none

/-- `MEMPHY_seq_read`, where no byte means that it returns `-1`. Its test is for the other kind
of device. -/
def seqRead (d : Device b M) (addr : b.Word) : Option (Device b M × Option Byte) :=
  if !d.rdmflg then some (d, none)
  else (d.byteAt addr).map fun value => (d.mvCsr addr, some value)

/-- `MEMPHY_read`. The size is an `int` and compared as an `addr_t`, so that in the MM64 build a
negative one lets addresses pass that are not in the storage. -/
def read (d : Device b M) (addr : b.Word) : Option (Device b M × Option Byte) :=
  if d.rdmflg then
    if d.maxsz.signExtend b.width ≤ addr then some (d, none)
    else (d.byteAt addr).map fun value => (d, some value)
  else d.seqRead addr

/-- `storage[addr] = value` -/
def setByte (d : Device b M) (addr : b.Word) (value : Byte) : Option (Device b M) :=
  d.storage.bind fun block =>
    if addr.toNat < block.size then
      some { d with
        storage := some { block with byte := Function.update block.byte addr.toNat value } }
    else none

/-- `MEMPHY_seq_write` -/
def seqWrite (d : Device b M) (addr : b.Word) (value : Byte) : Option (Device b M × Int) :=
  if !d.rdmflg then some (d, -1) else ((d.mvCsr addr).setByte addr value).map fun d => (d, 0)

/-- `MEMPHY_write` -/
def write (d : Device b M) (addr : b.Word) (data : Byte) : Option (Device b M × Int) :=
  if d.rdmflg then
    if d.maxsz.signExtend b.width ≤ addr then some (d, -1)
    else (d.setByte addr data).map fun d => (d, 0)
  else d.seqWrite addr data

section Bytes

variable {d : Device b M} {addr : b.Word} {block : Block}

/-- A sequential device turns everything down. -/
theorem read_of_sequential (sequential : d.rdmflg = false) (addr : b.Word) :
    d.read addr = some (d, none) := by
  rw [read, seqRead, sequential]
  rfl

theorem write_of_sequential (sequential : d.rdmflg = false) (addr : b.Word) (data : Byte) :
    d.write addr data = some (d, -1) := by
  rw [write, seqWrite, sequential]
  rfl

theorem read_outside (random : d.rdmflg = true) (outside : d.maxsz.signExtend b.width ≤ addr) :
    d.read addr = some (d, none) := by
  rw [read, if_pos random, if_pos outside]

theorem write_outside (random : d.rdmflg = true) (outside : d.maxsz.signExtend b.width ≤ addr)
    (data : Byte) : d.write addr data = some (d, -1) := by
  rw [write, if_pos random, if_pos outside]

theorem read_inside (random : d.rdmflg = true) (inside : ¬ d.maxsz.signExtend b.width ≤ addr)
    (storage : d.storage = some block) :
    d.read addr = if addr.toNat < block.size then some (d, some (block.byte addr.toNat)) else none := by
  rw [read, if_pos random, if_neg inside, byteAt, storage, Option.bind_some]
  split <;> rfl

theorem write_inside (random : d.rdmflg = true) (inside : ¬ d.maxsz.signExtend b.width ≤ addr)
    (storage : d.storage = some block) (data : Byte) :
    d.write addr data = if addr.toNat < block.size then
      some ({ d with
        storage := some { block with byte := Function.update block.byte addr.toNat data } }, 0)
      else none := by
  rw [write, if_pos random, if_neg inside, setByte, storage, Option.bind_some]
  split <;> rfl

/-- The storage has all bytes up to the size, where that is one. -/
def Backed (d : Device b M) : Prop := ∃ block, d.storage = some block ∧ d.maxsz.toInt ≤ block.size

end Bytes

/-! ## Frames -/

def next (d : Device b M) (p : Nat) : Option Nat := (d.node p).fpNext

/-- `p->fp_next = link` -/
def setNext (d : Device b M) (p : Nat) (link : Option Nat) : Device b M :=
  { d with node := Function.update d.node p { d.node p with fpNext := link } }

/-- A node from `malloc`, with all its fields set. -/
def addNode (d : Device b M) (node : Framephy b M) : Device b M :=
  { d with node := Function.update d.node d.fresh node, fresh := d.fresh + 1 }

/-- `mp->free_fp_list = head` -/
def setFree (d : Device b M) (head : Option Nat) : Device b M := { d with freeFpList := head }

/-- `mp->used_fp_list = head` -/
def setUsed (d : Device b M) (head : Option Nat) : Device b M := { d with usedFpList := head }

/-- `MEMPHY_get_freefp` -/
def getFreefp (d : Device b M) : Option (b.Word × Device b M) :=
  d.freeFpList.map fun fp => ((d.node fp).fpn, d.setFree (d.next fp))

/-- `MEMPHY_put_freefp`, which does not look whether `malloc` has granted a node. -/
def putFreefp (d : Device b M) (granted : Bool) (fpn : b.Word) : Option (Device b M) :=
  if granted then some ((d.addNode ⟨fpn, d.freeFpList, none⟩).setFree (some d.fresh)) else none

/-- `MEMPHY_get_usedfp`, which has no use for the frame number it is given. -/
def getUsedfp (d : Device b M) (granted : Bool) (_fpn : b.Word) (owner : Option M) :
    Device b M × Int :=
  match d.getFreefp with
  | none => (d, -1)
  | some (allocatedFpn, d) =>
      if granted then
        ((d.addNode ⟨allocatedFpn, d.usedFpList, owner⟩).setUsed (some d.fresh), 0)
      else (d, -1)

/-- `MEMPHY_put_usedfp` -/
def putUsedfp (d : Device b M) (granted : Bool) (fpn : b.Word) (owner : Option M) :
    Device b M × Int :=
  if granted then ((d.addNode ⟨fpn, d.usedFpList, owner⟩).setUsed (some d.fresh), 0) else (d, -1)

/-- The walks over a list: to the first node with the frame, and the one before it. A list of
the nodes there are ends before the fuel does. -/
def find (d : Device b M) (fpn : b.Word) (head : Option Nat) : Option (Option Nat × Option Nat) :=
  search d.next (fun p => (d.node p).fpn = fpn) (d.fresh + 1) none head

/-- `MEMPHY_remove_usedfp` -/
def removeUsedfp (d : Device b M) (fpn : b.Word) : Option (Device b M × Int) :=
  match d.find fpn d.usedFpList with
  | none => none
  | some (_, none) => some (d, -1)
  | some (none, some curr) => some (d.setUsed (d.next curr), 0)
  | some (some prev, some curr) => some (d.setNext prev (d.next curr), 0)

/-- `MEMPHY_free_usedfp` -/
def freeUsedfp (d : Device b M) (granted : Bool) (fpn : b.Word) : Option (Device b M × Int) :=
  match d.removeUsedfp fpn with
  | none => none
  | some (d, ret) => if ret < 0 then some (d, -1) else (d.putFreefp granted fpn).map fun d => (d, 0)

/-- The loop of `MEMPHY_get_frame_count`, where `count` is an `int`. -/
def countFrom (d : Device b M) : (fuel : Nat) → (count : BitVec 32) → Option Nat →
    Option (BitVec 32)
  | 0, _, _ => none
  | _ + 1, count, none => some count
  | fuel + 1, count, some fp => d.countFrom fuel (count + 1) (d.next fp)

/-- `MEMPHY_get_frame_count` -/
def getFrameCount (d : Device b M) (head : Option Nat) : Option (BitVec 32) :=
  d.countFrom (d.fresh + 1) 0 head

/-- `MEMPHY_find_frame`, with what it leaves in `*owner`. -/
def findFrame (d : Device b M) (fpn : b.Word) (owner : Option M) : Option (Int × Option M) :=
  match d.find fpn d.usedFpList with
  | none => none
  | some (_, none) => some (-1, owner)
  | some (_, some fp) => some (0, (d.node fp).owner)

/-- `MEMPHY_is_frame_free` -/
def isFrameFree (d : Device b M) (fpn : b.Word) : Option Int :=
  match d.find fpn d.freeFpList with
  | none => none
  | some (_, none) => some 0
  | some (_, some _) => some 1

/-- `mp->maxsz / PAGING_PAGESZ` -/
def totalFrames (d : Device b M) : Int := d.maxsz.toInt.tdiv b.pageSz

theorem totalFrames_lt (d : Device b M) : d.totalFrames < 2 ^ 31 := by
  have small : d.maxsz.toInt < 2 ^ 31 := BitVec.toInt_lt
  rw [totalFrames]
  obtain high | low := le_total 0 d.maxsz.toInt
  · exact (Int.tdiv_le_self _ high).trans_lt small
  · have opposite : 0 ≤ (-d.maxsz.toInt).tdiv b.pageSz :=
      Int.tdiv_nonneg (by omega) (Int.natCast_nonneg _)
    rw [Int.neg_tdiv] at opposite
    omega

theorem maxsz_pos_of_totalFrames {d : Device b M} (frames : 0 < d.totalFrames) :
    0 < d.maxsz.toInt := by
  by_contra low
  have opposite : 0 ≤ (-d.maxsz.toInt).tdiv b.pageSz :=
    Int.tdiv_nonneg (by omega) (Int.natCast_nonneg _)
  rw [Int.neg_tdiv] at opposite
  rw [totalFrames] at frames
  omega

/-- `MEMPHY_validate` -/
def validate (d : Device b M) : Option Int :=
  if d.storage.isNone then some (-1)
  else if d.maxsz.toInt ≤ 0 then some (-1)
  else
    match d.getFrameCount d.freeFpList, d.getFrameCount d.usedFpList with
    | some freeCount, some usedCount =>
        if d.totalFrames < (freeCount + usedCount).toInt then some (-1) else some 0
    | _, _ => none

/-- The loop of `MEMPHY_format` from frame `iter` on, behind node `fst`. -/
def formatFrom (d : Device b M) (fst iter : Nat) : (left : Nat) → Device b M
  | 0 => d
  | left + 1 =>
      let newfst := d.fresh
      let d := d.addNode { d.node newfst with fpn := word b iter, fpNext := none }
      (d.setNext fst (some newfst)).formatFrom newfst (iter + 1) left

/-- `MEMPHY_format`. The first node gets its frame number and nothing else. -/
def format (d : Device b M) : Device b M × Int :=
  if d.totalFrames ≤ 0 then (d, -1)
  else
    let fst := d.fresh
    let d := (d.addNode { d.node fst with fpn := 0 }).setFree (some fst)
    (d.formatFrom fst 1 (d.totalFrames.toNat - 1), 0)

/-- `init_memphy` of a `memphy_struct` with whatever is in it. -/
def initMemphy (d : Device b M) (maxSize : b.Word) (randomflg : BitVec 32) : Device b M :=
  let d := { d with
    storage := some ⟨maxSize.toNat, fun _ => 0⟩
    maxsz := maxSize.setWidth 32
    usedFpList := none }
  let (d, ret) := d.format
  let d := if ret < 0 then d.setFree none else d
  let d := { d with rdmflg := randomflg != 0 }
  if !d.rdmflg then { d with cursor := 0 } else d

/-- A `memphy_struct` that happens to be cleared, before `init_memphy`. -/
def unset (b : Build) (M : Type) : Device b M where
  storage := none
  maxsz := 0
  rdmflg := false
  cursor := 0
  freeFpList := none
  usedFpList := none
  node := fun _ => ⟨0, none, none⟩
  fresh := 0

/-- What a device keeps when only its lists change. -/
structure SameBytes (d d' : Device b M) : Prop where
  storage : d'.storage = d.storage
  maxsz : d'.maxsz = d.maxsz

theorem SameBytes.trans {d d' d'' : Device b M} (first : d.SameBytes d')
    (second : d'.SameBytes d'') : d.SameBytes d'' :=
  ⟨second.storage.trans first.storage, second.maxsz.trans first.maxsz⟩

theorem SameBytes.totalFrames {d d' : Device b M} (same : d.SameBytes d') :
    d'.totalFrames = d.totalFrames := by
  rw [Device.totalFrames, Device.totalFrames, same.maxsz]

section Init

variable (d : Device b M)

theorem formatFrom_bytes (fst iter left : Nat) : d.SameBytes (d.formatFrom fst iter left) := by
  induction left generalizing d fst iter with
  | zero => exact ⟨rfl, rfl⟩
  | succ left ih =>
      have later := ih ((d.addNode { d.node d.fresh with fpn := word b iter, fpNext := none }).setNext
        fst (some d.fresh)) d.fresh (iter + 1)
      exact ⟨later.storage, later.maxsz⟩

theorem formatFrom_heads (fst iter left : Nat) :
    (d.formatFrom fst iter left).freeFpList = d.freeFpList ∧
      (d.formatFrom fst iter left).usedFpList = d.usedFpList := by
  induction left generalizing d fst iter with
  | zero => exact ⟨rfl, rfl⟩
  | succ left ih => exact ih _ _ _

theorem format_bytes : d.SameBytes d.format.1 := by
  rw [format]
  split
  · exact ⟨rfl, rfl⟩
  · have filled := formatFrom_bytes ((d.addNode { d.node d.fresh with fpn := 0 }).setFree (some d.fresh))
      d.fresh 1 (d.totalFrames.toNat - 1)
    exact ⟨filled.storage, filled.maxsz⟩

variable (maxSize : b.Word) (randomflg : BitVec 32)

theorem storage_initMemphy :
    (d.initMemphy maxSize randomflg).storage = some ⟨maxSize.toNat, fun _ => 0⟩ := by
  rw [initMemphy]
  dsimp only
  split <;> split <;> exact (format_bytes _).storage

theorem maxsz_initMemphy : (d.initMemphy maxSize randomflg).maxsz = maxSize.setWidth 32 := by
  rw [initMemphy]
  dsimp only
  split <;> split <;> exact (format_bytes _).maxsz

theorem backed_initMemphy : (d.initMemphy maxSize randomflg).Backed := by
  refine ⟨_, storage_initMemphy d maxSize randomflg, ?_⟩
  have below : (maxSize.setWidth 32).toNat ≤ maxSize.toNat := by
    rw [BitVec.toNat_setWidth]
    exact Nat.mod_le _ _
  have cut : (maxSize.setWidth 32).toInt ≤ (maxSize.setWidth 32).toNat := by
    rw [BitVec.toInt_eq_toNat_cond]
    split <;> omega
  rw [maxsz_initMemphy]
  exact cut.trans (Int.ofNat_le.mpr below)

theorem rdmflg_initMemphy : (d.initMemphy maxSize randomflg).rdmflg = (randomflg != 0) := by
  rw [initMemphy]
  dsimp only
  split <;> rfl

end Init

/-! ## What the lists hold -/

/-- What a node says about its frame. -/
def entry (d : Device b M) (p : Nat) : b.Word × Option M := ((d.node p).fpn, (d.node p).owner)

/-- The list from `head` passes the nodes `ps`, which have been allocated. -/
structure Passes (d : Device b M) (head : Option Nat) (ps : List Nat) : Prop where
  path : Path d.next head ps none
  bound : ∀ p ∈ ps, p < d.fresh

/-- The free list passes `ps` and the used list `qs`, with no node in common. -/
structure Linked (d : Device b M) (ps qs : List Nat) : Prop where
  free : d.Passes d.freeFpList ps
  used : d.Passes d.usedFpList qs
  apart : ps.Disjoint qs

/-- The frames that the lists hold, those on the used list with their owners. -/
def Lists (d : Device b M) (free : List b.Word) (used : List (b.Word × Option M)) : Prop :=
  ∃ ps qs, d.Linked ps qs ∧ (ps.map d.entry).map Prod.fst = free ∧ qs.map d.entry = used

section Heads

variable {d : Device b M} {head head' : Option Nat} {ps : List Nat}

theorem Passes.setFree (passes : d.Passes head ps) : (d.setFree head').Passes head ps :=
  ⟨passes.path, passes.bound⟩

theorem Passes.setUsed (passes : d.Passes head ps) : (d.setUsed head').Passes head ps :=
  ⟨passes.path, passes.bound⟩

@[simp] theorem entry_setFree : (d.setFree head').entry = d.entry := rfl

@[simp] theorem entry_setUsed : (d.setUsed head').entry = d.entry := rfl

end Heads

section Nodes

variable {d : Device b M} {head : Option Nat} {ps : List Nat}

theorem entry_addNode_of_lt {p : Nat} (old : p < d.fresh) (node : Framephy b M) :
    (d.addNode node).entry p = d.entry p := by
  simp [entry, addNode, old.ne]

theorem map_entry_addNode (bound : ∀ p ∈ ps, p < d.fresh) (node : Framephy b M) :
    ps.map (d.addNode node).entry = ps.map d.entry :=
  List.map_congr_left fun p member => entry_addNode_of_lt (bound p member) node

theorem next_addNode_of_lt {p : Nat} (old : p < d.fresh) (node : Framephy b M) :
    (d.addNode node).next p = d.next p := by
  simp [next, addNode, old.ne]

@[simp] theorem entry_addNode_fresh (node : Framephy b M) :
    (d.addNode node).entry d.fresh = (node.fpn, node.owner) := by
  simp [entry, addNode]

@[simp] theorem next_addNode_fresh (node : Framephy b M) :
    (d.addNode node).next d.fresh = node.fpNext := by
  simp [next, addNode]

theorem next_setNext (p : Nat) (link : Option Nat) :
    (d.setNext p link).next = Function.update d.next p link := by
  funext q
  by_cases same : q = p
  · subst same
    simp [next, setNext]
  · simp [next, setNext, same]

@[simp] theorem entry_setNext (p : Nat) (link : Option Nat) : (d.setNext p link).entry = d.entry := by
  funext q
  by_cases same : q = p
  · subst same
    simp [entry, setNext]
  · simp [entry, setNext, same]

namespace Passes

theorem nil (empty : head = none) : d.Passes head [] := ⟨empty, List.forall_mem_nil _⟩

theorem addNode (passes : d.Passes head ps) (node : Framephy b M) :
    (d.addNode node).Passes head ps :=
  ⟨passes.path.congr fun p member => next_addNode_of_lt (passes.bound p member) node,
    fun p member => (passes.bound p member).trans (Nat.lt_succ_self d.fresh)⟩

/-- A new node in front. -/
theorem push (passes : d.Passes head ps) (fpn : b.Word) (owner : Option M) :
    (d.addNode ⟨fpn, head, owner⟩).Passes (some d.fresh) (d.fresh :: ps) := by
  have older := passes.addNode ⟨fpn, head, owner⟩
  refine ⟨⟨rfl, ?_⟩, ?_⟩
  · rw [next_addNode_fresh]
    exact older.path
  · exact List.forall_mem_cons.mpr ⟨Nat.lt_succ_self d.fresh, older.bound⟩

/-- The nodes are followed past one of them. -/
theorem unlink {before after : List Nat} {p q : Nat}
    (passes : d.Passes head (before ++ p :: q :: after)) :
    (d.setNext p (d.next q)).Passes head (before ++ p :: after) := by
  refine ⟨?_, fun r member => passes.bound r ?_⟩
  · rw [next_setNext]
    have path : Path d.next head (before ++ p :: ([] ++ q :: after)) none := passes.path
    exact path.unlink path.nodup
  · exact LinkedList.mem_after.mpr (.inr member)

theorem setNext {p : Nat} (passes : d.Passes head ps) (absent : p ∉ ps) (link : Option Nat) :
    (d.setNext p link).Passes head ps := by
  refine ⟨?_, passes.bound⟩
  rw [next_setNext]
  exact passes.path.update absent link

theorem fresh_notMem (passes : d.Passes head ps) : d.fresh ∉ ps :=
  fun member => lt_irrefl _ (passes.bound _ member)

theorem tail {p : Nat} (passes : d.Passes head (p :: ps)) :
    head = some p ∧ d.Passes (d.next p) ps :=
  ⟨passes.path.1, passes.path.2, (List.forall_mem_cons.mp passes.bound).2⟩

/-- The walks have fuel enough. -/
theorem fuel (passes : d.Passes head ps) : ps.length < d.fresh + 1 :=
  Nat.lt_succ_of_le (passes.path.length_le passes.bound)

/-- A walk for a frame ends at its first node, or at the end of the list. -/
theorem find (passes : d.Passes head ps) (fpn : b.Word) :
    (∃ prev, d.find fpn head = some (prev, none) ∧ ∀ p ∈ ps, (d.node p).fpn ≠ fpn) ∨
    ∃ before curr after, ps = before ++ curr :: after ∧ (d.node curr).fpn = fpn ∧
      (∀ p ∈ before, (d.node p).fpn ≠ fpn) ∧ d.find fpn head = some (before.getLast?, some curr) := by
  obtain ⟨before, found, after, rfl, first, passed, met, result⟩ : ∃ before found after,
      ps = before ++ after ∧ after.head? = found ∧
        (∀ p ∈ before, decide ((d.node p).fpn = fpn) = false) ∧
        (∀ p, found = some p → decide ((d.node p).fpn = fpn) = true) ∧
        d.find fpn head = some (before.getLast?.or none, found) :=
    search_spec passes.path passes.fuel
  simp only [decide_eq_false_iff_not, decide_eq_true_eq, Option.or_none] at passed met result
  cases found with
  | none =>
      rw [List.head?_eq_none_iff] at first
      subst first
      refine .inl ⟨_, result, ?_⟩
      rwa [List.append_nil]
  | some curr =>
      obtain ⟨after, rfl⟩ := List.head?_eq_some_iff.mp first
      exact .inr ⟨before, curr, after, rfl, met curr rfl, passed, result⟩

theorem countFrom {fuel : Nat} (path : Path d.next head ps none) (enough : ps.length < fuel)
    (count : BitVec 32) :
    d.countFrom fuel count head = some (count + BitVec.ofNat 32 ps.length) := by
  induction ps generalizing head fuel count with
  | nil =>
      cases path
      obtain ⟨fuel, rfl⟩ := Nat.exists_eq_succ_of_ne_zero (Nat.ne_of_gt enough)
      simp [Device.countFrom]
  | cons p ps ih =>
      obtain ⟨rfl, rest⟩ := path
      obtain ⟨fuel, rfl⟩ := Nat.exists_eq_succ_of_ne_zero (Nat.ne_of_gt (Nat.zero_lt_of_lt enough))
      rw [List.length_cons, Nat.succ_lt_succ_iff] at enough
      rw [Device.countFrom, ih rest enough, List.length_cons, add_comm ps.length, BitVec.ofNat_add,
        add_assoc]
      rfl

theorem getFrameCount (passes : d.Passes head ps) :
    d.getFrameCount head = some (BitVec.ofNat 32 ps.length) := by
  rw [Device.getFrameCount, countFrom passes.path passes.fuel, zero_add]

end Passes

/-- A list that is not too long is counted right. -/
theorem toInt_count {count : Nat} (few : count < 2 ^ 31) : (BitVec.ofNat 32 count).toInt = count := by
  rw [BitVec.toInt_eq_toNat_cond, BitVec.toNat_ofNat, Nat.mod_eq_of_lt (by omega), if_pos (by omega)]

/-- The validator compares the number of nodes with the number of frames, as `int`s. -/
theorem validate_eq {qs : List Nat} (storage : d.storage ≠ none) (size : 0 < d.maxsz.toInt)
    (free : d.Passes d.freeFpList ps) (used : d.Passes d.usedFpList qs) :
    d.validate = some (if d.totalFrames < (BitVec.ofNat 32 (ps.length + qs.length)).toInt then -1
      else 0) := by
  have present : d.storage.isNone = false := by
    cases here : d.storage with
    | none => exact absurd here storage
    | some bytes => rfl
  rw [validate, present, if_neg Bool.false_ne_true, if_neg (not_le.mpr size), free.getFrameCount,
    used.getFrameCount, BitVec.ofNat_add]
  exact (apply_ite some _ _ _).symm

end Nodes

/-! ## What the operations do to the lists -/

namespace Lists

variable {d : Device b M} {free : List b.Word} {used : List (b.Word × Option M)} {fpn : b.Word}

/-- The lists are in the nodes. -/
theorem congr {d' : Device b M} (lists : d.Lists free used) (node : d'.node = d.node)
    (fresh : d'.fresh = d.fresh) (head : d'.freeFpList = d.freeFpList)
    (head' : d'.usedFpList = d.usedFpList) : d'.Lists free used := by
  obtain ⟨ps, qs, linked, frees, useds⟩ := lists
  have next : d'.next = d.next := by
    funext p
    rw [Device.next, Device.next, node]
  have entry : d'.entry = d.entry := by
    funext p
    rw [Device.entry, Device.entry, node]
  have passes : ∀ {head ps}, d.Passes head ps → d'.Passes head ps := by
    intro head ps passes
    refine ⟨?_, ?_⟩
    · rw [next]
      exact passes.path
    · rw [fresh]
      exact passes.bound
  refine ⟨ps, qs, ⟨?_, ?_, linked.apart⟩, by rw [entry, frees], by rw [entry, useds]⟩
  · rw [head]
    exact passes linked.free
  · rw [head']
    exact passes linked.used

/-- What the lists hold can be read off in one way only. -/
theorem unique {free' : List b.Word} {used' : List (b.Word × Option M)} (lists : d.Lists free used)
    (lists' : d.Lists free' used') : free = free' ∧ used = used' := by
  obtain ⟨ps, qs, linked, rfl, rfl⟩ := lists
  obtain ⟨ps', qs', linked', rfl, rfl⟩ := lists'
  obtain rfl := linked.free.path.unique linked'.free.path
  obtain rfl := linked.used.path.unique linked'.used.path
  exact ⟨rfl, rfl⟩

theorem getFreefp_nil (lists : d.Lists [] used) : d.getFreefp = none := by
  obtain ⟨ps, qs, linked, none, -⟩ := lists
  simp only [List.map_eq_nil_iff] at none
  subst none
  have head : d.freeFpList = .none := linked.free.path
  rw [getFreefp, head]
  rfl

theorem getFreefp_cons (lists : d.Lists (fpn :: free) used) :
    ∃ head, d.getFreefp = some (fpn, d.setFree head) ∧ (d.setFree head).Lists free used := by
  obtain ⟨ps, qs, linked, frees, useds⟩ := lists
  cases ps with
  | nil => cases frees
  | cons p ps =>
      obtain ⟨rfl, rfl⟩ := List.cons.inj frees
      obtain ⟨head, rest⟩ := linked.free.tail
      refine ⟨d.next p, by rw [getFreefp, head]; rfl, ps, qs, ⟨rest.setFree, linked.used.setFree, ?_⟩,
        rfl, useds⟩
      exact fun q member => linked.apart (List.mem_cons_of_mem p member)

theorem putFreefp (lists : d.Lists free used) (fpn : b.Word) :
    ∃ d', d.putFreefp true fpn = some d' ∧ d'.Lists (fpn :: free) used ∧ d.SameBytes d' := by
  obtain ⟨ps, qs, linked, rfl, rfl⟩ := lists
  refine ⟨_, rfl, ⟨d.fresh :: ps, qs, ⟨(linked.free.push fpn none).setFree,
    (linked.used.addNode _).setFree, ?_⟩, ?_, ?_⟩, ⟨rfl, rfl⟩⟩
  · exact List.disjoint_cons_left.mpr ⟨linked.used.fresh_notMem, linked.apart⟩
  · rw [entry_setFree, List.map_cons, map_entry_addNode linked.free.bound, entry_addNode_fresh,
      List.map_cons]
  · rw [entry_setFree, map_entry_addNode linked.used.bound]

/-- A frame is put on the used list. -/
theorem enlist (lists : d.Lists free used) (fpn : b.Word) (owner : Option M) :
    ((d.addNode ⟨fpn, d.usedFpList, owner⟩).setUsed (some d.fresh)).Lists free
      ((fpn, owner) :: used) := by
  obtain ⟨ps, qs, linked, rfl, rfl⟩ := lists
  refine ⟨ps, d.fresh :: qs, ⟨(linked.free.addNode _).setUsed,
    (linked.used.push fpn owner).setUsed, ?_⟩, ?_, ?_⟩
  · exact List.disjoint_cons_right.mpr ⟨linked.free.fresh_notMem, linked.apart⟩
  · rw [entry_setUsed, map_entry_addNode linked.free.bound]
  · rw [entry_setUsed, List.map_cons, map_entry_addNode linked.used.bound, entry_addNode_fresh]

theorem putUsedfp (lists : d.Lists free used) (fpn : b.Word) (owner : Option M) :
    ∃ d', d.putUsedfp true fpn owner = (d', 0) ∧ d'.Lists free ((fpn, owner) :: used) ∧
      d.SameBytes d' :=
  ⟨_, rfl, lists.enlist fpn owner, rfl, rfl⟩

theorem getUsedfp_nil (lists : d.Lists [] used) (granted : Bool) (fpn : b.Word)
    (owner : Option M) : d.getUsedfp granted fpn owner = (d, -1) := by
  rw [getUsedfp, lists.getFreefp_nil]

/-- The first free frame is taken, whichever was asked for. -/
theorem getUsedfp_cons {first : b.Word} (lists : d.Lists (first :: free) used) (granted : Bool)
    (fpn : b.Word) (owner : Option M) :
    ∃ d', d.getUsedfp granted fpn owner = (d', if granted then 0 else -1) ∧
      d'.Lists free (if granted then (first, owner) :: used else used) ∧ d.SameBytes d' := by
  obtain ⟨head, got, rest⟩ := lists.getFreefp_cons
  rw [getUsedfp, got]
  cases granted with
  | true => exact ⟨_, rfl, rest.enlist first owner, rfl, rfl⟩
  | false => exact ⟨_, rfl, rest, rfl, rfl⟩

/-- The walk over the used list. -/
theorem removeUsedfp_of_absent (lists : d.Lists free used) (absent : ¬ ∃ e ∈ used, e.1 = fpn) :
    d.removeUsedfp fpn = some (d, -1) := by
  obtain ⟨ps, qs, linked, rfl, rfl⟩ := lists
  obtain ⟨prev, found, -⟩ | ⟨before, curr, after, rfl, here, -⟩ := linked.used.find fpn
  · rw [removeUsedfp, found]
  · exact absurd ⟨d.entry curr, List.mem_map_of_mem (by simp), here⟩ absent

/-- The first node with the frame is linked out. -/
theorem removeUsedfp (lists : d.Lists free used) (present : ∃ e ∈ used, e.1 = fpn) :
    ∃ d', d.removeUsedfp fpn = some (d', 0) ∧
      d'.Lists free (used.eraseP fun e => e.1 = fpn) ∧ d.SameBytes d' := by
  obtain ⟨ps, qs, linked, rfl, rfl⟩ := lists
  obtain ⟨prev, -, absent⟩ | ⟨before, curr, after, rfl, here, passed, found⟩ := linked.used.find fpn
  · obtain ⟨e, member, same⟩ := present
    obtain ⟨q, onList, rfl⟩ := List.mem_map.mp member
    exact absurd same (absent q onList)
  · have erased : ((before ++ curr :: after).map d.entry).eraseP (fun e => e.1 = fpn) =
        (before ++ after).map d.entry := by
      have first : ∀ e ∈ before.map d.entry, ¬ decide (e.1 = fpn) = true := by
        intro e member
        obtain ⟨q, onList, rfl⟩ := List.mem_map.mp member
        exact fun same => passed q onList (of_decide_eq_true same)
      have hit : (d.entry curr).1 = fpn := here
      rw [List.map_append, List.eraseP_append_right _ first, List.map_cons, List.eraseP_cons,
        cond_eq_ite, if_pos (decide_eq_true hit), List.map_append]
    have apart : ps.Disjoint (before ++ after) := fun q member member' =>
      linked.apart member (LinkedList.mem_middle.mpr (.inr member'))
    rw [erased, Device.removeUsedfp, found]
    cases last : before.getLast? with
    | none =>
        rw [List.getLast?_eq_none_iff] at last
        subst last
        exact ⟨_, rfl, ⟨ps, after, ⟨linked.free.setUsed, linked.used.tail.2.setUsed, apart⟩, rfl,
          rfl⟩, rfl, rfl⟩
    | some prev =>
        obtain ⟨first, rfl⟩ := List.getLast?_eq_some_iff.mp last
        rw [List.append_assoc, List.singleton_append] at linked apart ⊢
        have off : prev ∉ ps := fun member => linked.apart member (by simp)
        exact ⟨_, rfl, ⟨ps, first ++ prev :: after, ⟨linked.free.setNext off _, linked.used.unlink,
          apart⟩, by rw [entry_setNext], by rw [entry_setNext]⟩, rfl, rfl⟩

theorem freeUsedfp_of_absent (lists : d.Lists free used) (absent : ¬ ∃ e ∈ used, e.1 = fpn)
    (granted : Bool) : d.freeUsedfp granted fpn = some (d, -1) := by
  rw [freeUsedfp, lists.removeUsedfp_of_absent absent]
  rfl

theorem freeUsedfp (lists : d.Lists free used) (present : ∃ e ∈ used, e.1 = fpn) :
    ∃ d', d.freeUsedfp true fpn = some (d', 0) ∧
      d'.Lists (fpn :: free) (used.eraseP fun e => e.1 = fpn) ∧ d.SameBytes d' := by
  obtain ⟨removed, done, rest, same⟩ := lists.removeUsedfp present
  obtain ⟨d', put, after, same'⟩ := rest.putFreefp fpn
  refine ⟨d', ?_, after, same.trans same'⟩
  rw [Device.freeUsedfp, done]
  exact congrArg (Option.map fun d => (d, (0 : Int))) put

/-- Without a node for the free list `MEMPHY_put_freefp` stores through `NULL`. -/
theorem freeUsedfp_refused (lists : d.Lists free used) (present : ∃ e ∈ used, e.1 = fpn) :
    d.freeUsedfp false fpn = none := by
  obtain ⟨removed, done, -⟩ := lists.removeUsedfp present
  rw [Device.freeUsedfp, done]
  rfl

/-- The first node with the frame names the owner. -/
theorem findFrame (lists : d.Lists free used) (fpn : b.Word) (owner : Option M) :
    d.findFrame fpn owner = some (match used.find? fun e => e.1 = fpn with
      | none => (-1, owner)
      | some e => (0, e.2)) := by
  obtain ⟨ps, qs, linked, rfl, rfl⟩ := lists
  obtain ⟨prev, found, absent⟩ | ⟨before, curr, after, rfl, here, passed, found⟩ :=
    linked.used.find fpn
  · have none : (qs.map d.entry).find? (fun e => e.1 = fpn) = none := by
      rw [List.find?_eq_none]
      intro e member same
      obtain ⟨q, onList, rfl⟩ := List.mem_map.mp member
      exact absent q onList (of_decide_eq_true same)
    rw [Device.findFrame, found, none]
  · have first : ((before ++ curr :: after).map d.entry).find? (fun e => e.1 = fpn) =
        some (d.entry curr) := by
      rw [List.find?_eq_some_iff_append]
      refine ⟨decide_eq_true here, before.map d.entry, after.map d.entry, by simp, ?_⟩
      intro e member
      obtain ⟨q, onList, rfl⟩ := List.mem_map.mp member
      exact congrArg not (decide_eq_false (passed q onList))
    rw [Device.findFrame, found, first]
    rfl

theorem isFrameFree (lists : d.Lists free used) (fpn : b.Word) :
    d.isFrameFree fpn = some (if fpn ∈ free then 1 else 0) := by
  obtain ⟨ps, qs, linked, rfl, rfl⟩ := lists
  obtain ⟨prev, found, absent⟩ | ⟨before, curr, after, rfl, here, -, found⟩ :=
    linked.free.find fpn
  · have off : fpn ∉ (ps.map d.entry).map Prod.fst := by
      rw [List.map_map]
      intro member
      obtain ⟨q, onList, same⟩ := List.mem_map.mp member
      exact absent q onList same
    rw [Device.isFrameFree, found, if_neg off]
  · have on : fpn ∈ ((before ++ curr :: after).map d.entry).map Prod.fst := by
      rw [List.map_map, ← here]
      exact List.mem_map_of_mem (f := Prod.fst ∘ d.entry) (by simp)
    rw [Device.isFrameFree, found, if_pos on]

end Lists

/-! ## The device as the rest of the kernel sees it -/

/-- The device is one whose used list and cursor do not matter. -/
structure Models (d : Device b M) (mp : Memphy b) : Prop where
  storage : ∃ size, d.storage = some ⟨size, mp.storage⟩ ∧ mp.maxsz ≤ size
  maxsz : (d.maxsz.signExtend b.width).toNat = mp.maxsz
  rdmflg : d.rdmflg = mp.rdmflg
  lists : ∃ used, d.Lists mp.freeFpList used

namespace Models

variable {d : Device b M} {mp : Memphy b}

theorem outside_iff (models : d.Models mp) (addr : b.Word) :
    d.maxsz.signExtend b.width ≤ addr ↔ mp.maxsz ≤ addr.toNat := by
  rw [BitVec.le_def, models.maxsz]

theorem read (models : d.Models mp) (addr : b.Word) : d.read addr = some (d, mp.read addr) := by
  rw [Memphy.read, Memphy.seqRead, ← models.rdmflg]
  cases flag : d.rdmflg with
  | false => exact read_of_sequential flag addr
  | true =>
      by_cases outside : mp.maxsz ≤ addr.toNat
      · rw [if_pos rfl, if_pos outside]
        exact read_outside flag ((models.outside_iff addr).mpr outside)
      · obtain ⟨size, storage, room⟩ := models.storage
        rw [if_pos rfl, if_neg outside,
          read_inside flag (mt (models.outside_iff addr).mp outside) storage]
        exact if_pos ((Nat.not_le.mp outside).trans_le room)

theorem write (models : d.Models mp) (addr : b.Word) (data : Byte) :
    ∃ d', d.write addr data = some (d', if mp.write addr data = none then -1 else 0) ∧
      d'.Models (mp.store addr data) := by
  rw [Memphy.store, Memphy.write, Memphy.seqWrite, ← models.rdmflg]
  cases flag : d.rdmflg with
  | false => exact ⟨d, write_of_sequential flag addr data, models⟩
  | true =>
      rw [if_pos rfl]
      by_cases outside : mp.maxsz ≤ addr.toNat
      · rw [if_pos outside]
        exact ⟨d, write_outside flag ((models.outside_iff addr).mpr outside) data, models⟩
      · obtain ⟨used, lists⟩ := models.lists
        obtain ⟨size, storage, room⟩ := models.storage
        rw [if_neg outside, write_inside flag (mt (models.outside_iff addr).mp outside) storage data,
          if_pos ((Nat.not_le.mp outside).trans_le room)]
        exact ⟨_, rfl, ⟨size, rfl, room⟩, models.maxsz, flag, used, lists.congr rfl rfl rfl rfl⟩

theorem getFreefp_none (models : d.Models mp) (empty : mp.getFreefp = none) :
    d.getFreefp = none := by
  obtain ⟨used, lists⟩ := models.lists
  rw [Memphy.getFreefp_eq_none.mp empty] at lists
  exact lists.getFreefp_nil

theorem getFreefp_some (models : d.Models mp) {fpn : b.Word} {mp' : Memphy b}
    (popped : mp.getFreefp = some (fpn, mp')) :
    ∃ d', d.getFreefp = some (fpn, d') ∧ d'.Models mp' := by
  obtain ⟨used, lists⟩ := models.lists
  obtain ⟨first, rest⟩ := Memphy.getFreefp_cases popped
  rw [first] at lists
  obtain ⟨head, got, after⟩ := lists.getFreefp_cons
  refine ⟨d.setFree head, got, ?_⟩
  rw [rest]
  exact ⟨models.storage, models.maxsz, models.rdmflg, used, after⟩

theorem putFreefp (models : d.Models mp) (fpn : b.Word) :
    ∃ d', d.putFreefp true fpn = some d' ∧ d'.Models (mp.putFreefp fpn) := by
  obtain ⟨used, lists⟩ := models.lists
  obtain ⟨d', put, after, -⟩ := lists.putFreefp fpn
  obtain rfl := Option.some.inj put
  exact ⟨_, rfl, models.storage, models.maxsz, models.rdmflg, used, after⟩

end Models

end Device

end SimpleOs.Mem
