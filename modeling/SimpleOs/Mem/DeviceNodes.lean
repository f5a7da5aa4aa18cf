import SimpleOs.Lib.Release
import SimpleOs.Lib.Transition
import SimpleOs.Mem.Initial

/-!
# The nodes of a device

The functions of `mm-memphy.c` allocate a node for each frame they put on a list and free it
when they take it off. `Device` keeps a freed node as it was; here a node can be read, written
and freed only as long as it is allocated. Both do the same under any sequence of calls, so no
call touches a node that has been freed, provided that the links of the first list are right.
At any time the nodes are those on the two lists, and `MEMPHY_cleanup` frees them all.
-/

namespace SimpleOs.Mem

open LinkedList (Path path_split)

variable {b : Build} {M : Type}

/-- What is called on a device after `init_memphy`. `granted` says whether `malloc` has a node. -/
inductive MemphyCall (b : Build) (M : Type) where
  | read (addr : b.Word)
  | write (addr : b.Word) (data : Byte)
  | getFreefp
  | putFreefp (granted : Bool) (fpn : b.Word)
  | getUsedfp (granted : Bool) (fpn : b.Word) (owner : Option M)
  | putUsedfp (granted : Bool) (fpn : b.Word) (owner : Option M)
  | removeUsedfp (fpn : b.Word)
  | freeUsedfp (granted : Bool) (fpn : b.Word)
  | findFrame (fpn : b.Word) (owner : Option M)
  | isFrameFree (fpn : b.Word)
  | getStats
  | validate
  | cleanup

/-- What a call returns, with what it stores for its caller. A frame or a byte that is not there
stands for `-1`. -/
inductive MemphyReply (b : Build) (M : Type) where
  | ret (ret : Int)
  | byte (value : Option Byte)
  | frame (retfpn : Option b.Word)
  | owner (ret : Int) (owner : Option M)
  | stats (freeFrames usedFrames : BitVec 32) (totalFrames : Int)

namespace Device

/-- `MEMPHY_get_stats` -/
def getStats (d : Device b M) : Option (BitVec 32 × BitVec 32 × Int) :=
  (d.getFrameCount d.freeFpList).bind fun freeFrames =>
    (d.getFrameCount d.usedFpList).map fun usedFrames => (freeFrames, usedFrames, d.totalFrames)

/-- A loop to the end of a list. -/
def toEnd (d : Device b M) (head : Option Nat) : Option (Option Nat × Option Nat) :=
  LinkedList.search d.next (fun _ => false) (d.fresh + 1) none head

/-- `MEMPHY_cleanup` -/
def cleanup (d : Device b M) : Option (Device b M × Int) :=
  (d.toEnd d.freeFpList).bind fun _ =>
    (d.toEnd d.usedFpList).map fun _ =>
      ({ d with storage := none, freeFpList := none, usedFpList := none }, 0)

def call (d : Device b M) : MemphyCall b M → Option (Device b M × MemphyReply b M)
  | .read addr => (d.read addr).map fun (d, value) => (d, .byte value)
  | .write addr data => (d.write addr data).map fun (d, ret) => (d, .ret ret)
  | .getFreefp =>
      match d.getFreefp with
      | none => some (d, .frame none)
      | some (fpn, d) => some (d, .frame (some fpn))
  | .putFreefp granted fpn => (d.putFreefp granted fpn).map fun d => (d, .ret 0)
  | .getUsedfp granted fpn owner =>
      let (d, ret) := d.getUsedfp granted fpn owner
      some (d, .ret ret)
  | .putUsedfp granted fpn owner =>
      let (d, ret) := d.putUsedfp granted fpn owner
      some (d, .ret ret)
  | .removeUsedfp fpn => (d.removeUsedfp fpn).map fun (d, ret) => (d, .ret ret)
  | .freeUsedfp granted fpn => (d.freeUsedfp granted fpn).map fun (d, ret) => (d, .ret ret)
  | .findFrame fpn owner => (d.findFrame fpn owner).map fun (ret, owner) => (d, .owner ret owner)
  | .isFrameFree fpn => (d.isFrameFree fpn).map fun ret => (d, .ret ret)
  | .getStats =>
      d.getStats.map fun (freeFrames, usedFrames, totalFrames) =>
        (d, .stats freeFrames usedFrames totalFrames)
  | .validate => d.validate.map fun ret => (d, .ret ret)
  | .cleanup => d.cleanup.map fun (d, ret) => (d, .ret ret)

end Device

/-- A device, and the nodes that are allocated. -/
structure DeviceHeap (b : Build) (M : Type) where
  device : Device b M
  live : Finset Nat

namespace Device

variable {d : Device b M} {head : Option Nat} {ps : List Nat}

theorem Passes.toEnd (passes : d.Passes head ps) : ∃ found, d.toEnd head = some found := by
  obtain ⟨before, found, -, -, -, -, -, result⟩ :=
    @LinkedList.search_spec _ d.next head ps (fun _ => false) _ none passes.path passes.fuel
  exact ⟨_, result⟩

/-- An address that passes the test against the size and is not in the storage. -/
def Stray (d : Device b M) (addr : b.Word) : Prop :=
  d.rdmflg = true ∧ ¬ d.maxsz.signExtend b.width ≤ addr ∧
    ∀ block, d.storage = some block → block.size ≤ addr.toNat

/-- Every address that passes the test is in a storage of as many bytes as the size, if that is no
negative number, and in any one of the 32-bit build. -/
theorem not_stray_initMemphy (d : Device b M) (maxSize : b.Word) (randomflg : BitVec 32)
    (small : maxSize.toNat < 2 ^ 31 ∨ b.width = 32) (addr : b.Word) :
    ¬ (d.initMemphy maxSize randomflg).Stray addr := by
  rintro ⟨-, inside, short⟩
  have beyond : maxSize.toNat ≤ addr.toNat := short _ (storage_initMemphy d maxSize randomflg)
  rw [maxsz_initMemphy, BitVec.not_le, BitVec.lt_def] at inside
  have cut : (maxSize.setWidth 32).toNat ≤ maxSize.toNat := by
    rw [BitVec.toNat_setWidth]
    exact Nat.mod_le _ _
  have same : ((maxSize.setWidth 32).signExtend b.width).toNat = (maxSize.setWidth 32).toNat := by
    obtain few | narrow := small
    · have positive : (maxSize.setWidth 32).msb = false := by
        rw [BitVec.msb_eq_false_iff_two_mul_lt]
        omega
      rw [BitVec.signExtend_eq_setWidth_of_msb_false positive]
      exact BitVec.toNat_setWidth_of_le b.wellFormed.int
    · have none : 2 ^ b.width - 2 ^ 32 = 0 := by
        rw [narrow, Nat.sub_self]
      rw [BitVec.toNat_signExtend, none, ite_self, add_zero]
      exact BitVec.toNat_setWidth_of_le b.wellFormed.int
  omega

/-- No byte is read where there is none, and a device on which bytes are read is not changed. -/
theorem read_cases (d : Device b M) (addr : b.Word) :
    (d.Stray addr ∧ d.read addr = none) ∨
      ¬ d.Stray addr ∧ ∃ value, d.read addr = some (d, value) := by
  obtain random | sequential := Bool.eq_false_or_eq_true d.rdmflg
  · by_cases outside : d.maxsz.signExtend b.width ≤ addr
    · exact .inr ⟨fun stray => stray.2.1 outside, _, read_outside random outside⟩
    · cases storage : d.storage with
      | none =>
          refine .inl ⟨⟨random, outside, by simp [storage]⟩, ?_⟩
          simp [read, byteAt, random, outside, storage]
      | some block =>
          rw [read_inside random outside storage]
          by_cases stored : addr.toNat < block.size
          · rw [if_pos stored]
            exact .inr ⟨fun stray => Nat.not_le.mpr stored (stray.2.2 block storage), _, rfl⟩
          · rw [if_neg stored]
            refine .inl ⟨⟨random, outside, ?_⟩, rfl⟩
            simpa [storage] using stored
  · refine .inr ⟨fun stray => ?_, _, read_of_sequential sequential addr⟩
    exact Bool.false_ne_true (sequential.symm.trans stray.1)

theorem write_cases (d : Device b M) (addr : b.Word) (data : Byte) :
    (d.Stray addr ∧ d.write addr data = none) ∨
      ¬ d.Stray addr ∧
        ∃ storage ret, d.write addr data = some ({ d with storage := storage }, ret) := by
  obtain random | sequential := Bool.eq_false_or_eq_true d.rdmflg
  · by_cases outside : d.maxsz.signExtend b.width ≤ addr
    · exact .inr ⟨fun stray => stray.2.1 outside, d.storage, _, write_outside random outside data⟩
    · cases storage : d.storage with
      | none =>
          refine .inl ⟨⟨random, outside, by simp [storage]⟩, ?_⟩
          simp [write, setByte, random, outside, storage]
      | some block =>
          rw [write_inside random outside storage]
          by_cases stored : addr.toNat < block.size
          · rw [if_pos stored]
            exact .inr ⟨fun stray => Nat.not_le.mpr stored (stray.2.2 block storage), _, _, rfl⟩
          · rw [if_neg stored]
            refine .inl ⟨⟨random, outside, ?_⟩, rfl⟩
            simpa [storage] using stored
  · refine .inr ⟨fun stray => ?_, d.storage, _, write_of_sequential sequential addr data⟩
    exact Bool.false_ne_true (sequential.symm.trans stray.1)

end Device

namespace DeviceHeap

/-- `*fp` -/
def load (h : DeviceHeap b M) (fp : Nat) : Option (Framephy b M) :=
  if fp ∈ h.live then some (h.device.node fp) else none

/-- `fp->fp_next = link` -/
def setNext (h : DeviceHeap b M) (fp : Nat) (link : Option Nat) : Option (DeviceHeap b M) :=
  if fp ∈ h.live then some { h with device := h.device.setNext fp link } else none

/-- `free(fp)` -/
def free (h : DeviceHeap b M) (fp : Nat) : Option (DeviceHeap b M) :=
  if fp ∈ h.live then some { h with live := h.live.erase fp } else none

/-- `mp->free_fp_list = head` -/
def setFree (h : DeviceHeap b M) (head : Option Nat) : DeviceHeap b M :=
  { h with device := h.device.setFree head }

/-- `mp->used_fp_list = head` -/
def setUsed (h : DeviceHeap b M) (head : Option Nat) : DeviceHeap b M :=
  { h with device := h.device.setUsed head }

/-- A node from `malloc`, with all its fields set. -/
def addNode (h : DeviceHeap b M) (node : Framephy b M) : DeviceHeap b M :=
  ⟨h.device.addNode node, insert h.device.fresh h.live⟩

/-- `MEMPHY_get_freefp` -/
def getFreefp (h : DeviceHeap b M) : Option (DeviceHeap b M × Option b.Word) :=
  match h.device.freeFpList with
  | none => some (h, none)
  | some fp => do
      let node ← h.load fp
      let h ← (h.setFree node.fpNext).free fp
      some (h, some node.fpn)

/-- `MEMPHY_put_freefp` -/
def putFreefp (h : DeviceHeap b M) (granted : Bool) (fpn : b.Word) : Option (DeviceHeap b M) :=
  if granted then
    some ((h.addNode ⟨fpn, h.device.freeFpList, none⟩).setFree (some h.device.fresh))
  else none

/-- `MEMPHY_put_usedfp` -/
def putUsedfp (h : DeviceHeap b M) (granted : Bool) (fpn : b.Word) (owner : Option M) :
    DeviceHeap b M × Int :=
  if granted then
    ((h.addNode ⟨fpn, h.device.usedFpList, owner⟩).setUsed (some h.device.fresh), 0)
  else (h, -1)

/-- `MEMPHY_get_usedfp`, which goes on like `MEMPHY_put_usedfp`. -/
def getUsedfp (h : DeviceHeap b M) (granted : Bool) (_fpn : b.Word) (owner : Option M) :
    Option (DeviceHeap b M × Int) :=
  h.getFreefp.map fun (h, allocated) =>
    match allocated with
    | none => (h, -1)
    | some allocatedFpn => h.putUsedfp granted allocatedFpn owner

/-- The walks for a frame, from `curr` on. -/
def findFrom (h : DeviceHeap b M) (fpn : b.Word) :
    (fuel : Nat) → (prev curr : Option Nat) → Option (Option Nat × Option Nat)
  | 0, _, _ => none
  | _ + 1, prev, none => some (prev, none)
  | fuel + 1, prev, some curr => do
      let node ← h.load curr
      if node.fpn = fpn then some (prev, some curr) else h.findFrom fpn fuel (some curr) node.fpNext

def find (h : DeviceHeap b M) (fpn : b.Word) (head : Option Nat) :
    Option (Option Nat × Option Nat) :=
  h.findFrom fpn (h.device.fresh + 1) none head

/-- `MEMPHY_remove_usedfp` -/
def removeUsedfp (h : DeviceHeap b M) (fpn : b.Word) : Option (DeviceHeap b M × Int) := do
  match ← h.find fpn h.device.usedFpList with
  | (_, none) => some (h, -1)
  | (none, some curr) =>
      let node ← h.load curr
      let h ← (h.setUsed node.fpNext).free curr
      some (h, 0)
  | (some prev, some curr) =>
      let node ← h.load curr
      let h ← h.setNext prev node.fpNext
      let h ← h.free curr
      some (h, 0)

/-- `MEMPHY_free_usedfp` -/
def freeUsedfp (h : DeviceHeap b M) (granted : Bool) (fpn : b.Word) :
    Option (DeviceHeap b M × Int) := do
  let (h, ret) ← h.removeUsedfp fpn
  if ret < 0 then some (h, -1) else (h.putFreefp granted fpn).map fun h => (h, 0)

/-- The loop of `MEMPHY_get_frame_count`. -/
def countFrom (h : DeviceHeap b M) : (fuel : Nat) → (count : BitVec 32) → Option Nat →
    Option (BitVec 32)
  | 0, _, _ => none
  | _ + 1, count, none => some count
  | fuel + 1, count, some fp => do
      let node ← h.load fp
      h.countFrom fuel (count + 1) node.fpNext

/-- `MEMPHY_get_frame_count` -/
def getFrameCount (h : DeviceHeap b M) (head : Option Nat) : Option (BitVec 32) :=
  h.countFrom (h.device.fresh + 1) 0 head

/-- `MEMPHY_get_stats` -/
def getStats (h : DeviceHeap b M) : Option (BitVec 32 × BitVec 32 × Int) := do
  let freeFrames ← h.getFrameCount h.device.freeFpList
  let usedFrames ← h.getFrameCount h.device.usedFpList
  some (freeFrames, usedFrames, h.device.totalFrames)

/-- `MEMPHY_find_frame` -/
def findFrame (h : DeviceHeap b M) (fpn : b.Word) (owner : Option M) : Option (Int × Option M) := do
  match ← h.find fpn h.device.usedFpList with
  | (_, none) => some (-1, owner)
  | (_, some fp) =>
      let node ← h.load fp
      some (0, node.owner)

/-- `MEMPHY_is_frame_free` -/
def isFrameFree (h : DeviceHeap b M) (fpn : b.Word) : Option Int := do
  match ← h.find fpn h.device.freeFpList with
  | (_, none) => some 0
  | (_, some _) => some 1

/-- `MEMPHY_validate` -/
def validate (h : DeviceHeap b M) : Option Int :=
  if h.device.storage.isNone then some (-1)
  else if h.device.maxsz.toInt ≤ 0 then some (-1)
  else do
    let freeCount ← h.getFrameCount h.device.freeFpList
    let usedCount ← h.getFrameCount h.device.usedFpList
    some (if h.device.totalFrames < (freeCount + usedCount).toInt then -1 else 0)

/-- `MEMPHY_cleanup` -/
def cleanup (h : DeviceHeap b M) : Option (DeviceHeap b M × Int) := do
  let live ← LinkedList.release h.device.next h.live h.device.freeFpList
  let live ← LinkedList.release h.device.next live h.device.usedFpList
  some (⟨{ h.device with storage := none, freeFpList := none, usedFpList := none }, live⟩, 0)

def call (h : DeviceHeap b M) : MemphyCall b M → Option (DeviceHeap b M × MemphyReply b M)
  | .read addr => (h.device.read addr).map fun (d, value) => ({ h with device := d }, .byte value)
  | .write addr data => (h.device.write addr data).map fun (d, ret) => ({ h with device := d }, .ret ret)
  | .getFreefp => h.getFreefp.map fun (h, retfpn) => (h, .frame retfpn)
  | .putFreefp granted fpn => (h.putFreefp granted fpn).map fun h => (h, .ret 0)
  | .getUsedfp granted fpn owner => (h.getUsedfp granted fpn owner).map fun (h, ret) => (h, .ret ret)
  | .putUsedfp granted fpn owner =>
      let (h, ret) := h.putUsedfp granted fpn owner
      some (h, .ret ret)
  | .removeUsedfp fpn => (h.removeUsedfp fpn).map fun (h, ret) => (h, .ret ret)
  | .freeUsedfp granted fpn => (h.freeUsedfp granted fpn).map fun (h, ret) => (h, .ret ret)
  | .findFrame fpn owner => (h.findFrame fpn owner).map fun (ret, owner) => (h, .owner ret owner)
  | .isFrameFree fpn => (h.isFrameFree fpn).map fun ret => (h, .ret ret)
  | .getStats =>
      h.getStats.map fun (freeFrames, usedFrames, totalFrames) =>
        (h, .stats freeFrames usedFrames totalFrames)
  | .validate => h.validate.map fun ret => (h, .ret ret)
  | .cleanup => h.cleanup.map fun (h, ret) => (h, .ret ret)

/-! ## The nodes are those on the lists -/

/-- The lists pass the nodes `ps` and `qs`, and no others are allocated. -/
structure Owns (h : DeviceHeap b M) (ps qs : List Nat) : Prop where
  linked : h.device.Linked ps qs
  live : ∀ p, p ∈ h.live ↔ p ∈ ps ∨ p ∈ qs

variable {h : DeviceHeap b M} {ps qs : List Nat} {head prev : Option Nat} {fuel : Nat}
  {fpn : b.Word} {p : Nat}

theorem load_of_mem (alive : p ∈ h.live) : h.load p = some (h.device.node p) := if_pos alive

theorem free_of_mem (alive : p ∈ h.live) : h.free p = some { h with live := h.live.erase p } :=
  if_pos alive

theorem getFreefp_live (head : h.device.freeFpList = some p) (alive : p ∈ h.live) :
    h.getFreefp = some (⟨h.device.setFree (h.device.next p), h.live.erase p⟩,
      some (h.device.node p).fpn) := by
  have freed : (h.setFree (h.device.node p).fpNext).free p =
      some ⟨h.device.setFree (h.device.next p), h.live.erase p⟩ := free_of_mem alive
  simp only [getFreefp, head, load_of_mem alive, freed, Option.bind_eq_bind, Option.bind_some]

theorem getFreefp_dead (head : h.device.freeFpList = some p) (dead : p ∉ h.live) :
    h.getFreefp = none := by
  have missing : h.load p = none := if_neg dead
  simp only [getFreefp, head, missing, Option.bind_eq_bind, Option.bind_none]

section Walks

variable (path : Path h.device.next head ps none) (alive : ∀ p ∈ ps, p ∈ h.live)

include path alive

/-- A walk over allocated nodes. -/
theorem findFrom_eq : h.findFrom fpn fuel prev head =
    LinkedList.search h.device.next (fun p => (h.device.node p).fpn = fpn) fuel prev head := by
  induction fuel generalizing head prev ps with
  | zero => rfl
  | succ fuel ih =>
      cases ps with
      | nil =>
          cases path
          rfl
      | cons p ps =>
          obtain ⟨rfl, rest⟩ := path
          obtain ⟨here, later⟩ := List.forall_mem_cons.mp alive
          rw [findFrom, load_of_mem here, LinkedList.search]
          simp only [Option.bind_eq_bind, Option.bind_some, decide_eq_true_eq]
          split
          · rfl
          · exact ih rest later

theorem countFrom_eq (count : BitVec 32) :
    h.countFrom fuel count head = h.device.countFrom fuel count head := by
  induction fuel generalizing head count ps with
  | zero => rfl
  | succ fuel ih =>
      cases ps with
      | nil =>
          cases path
          rfl
      | cons p ps =>
          obtain ⟨rfl, rest⟩ := path
          obtain ⟨here, later⟩ := List.forall_mem_cons.mp alive
          rw [countFrom, load_of_mem here]
          exact ih rest later (count + 1)

end Walks

namespace Owns

theorem liveFree (owns : h.Owns ps qs) : ∀ p ∈ ps, p ∈ h.live :=
  fun p member => (owns.live p).mpr (.inl member)

theorem liveUsed (owns : h.Owns ps qs) : ∀ p ∈ qs, p ∈ h.live :=
  fun p member => (owns.live p).mpr (.inr member)

theorem findFree (owns : h.Owns ps qs) (fpn : b.Word) :
    h.find fpn h.device.freeFpList = h.device.find fpn h.device.freeFpList :=
  findFrom_eq owns.linked.free.path owns.liveFree

theorem findUsed (owns : h.Owns ps qs) (fpn : b.Word) :
    h.find fpn h.device.usedFpList = h.device.find fpn h.device.usedFpList :=
  findFrom_eq owns.linked.used.path owns.liveUsed

theorem countFree (owns : h.Owns ps qs) :
    h.getFrameCount h.device.freeFpList = some (BitVec.ofNat 32 ps.length) :=
  (countFrom_eq owns.linked.free.path owns.liveFree 0).trans owns.linked.free.getFrameCount

theorem countUsed (owns : h.Owns ps qs) :
    h.getFrameCount h.device.usedFpList = some (BitVec.ofNat 32 qs.length) :=
  (countFrom_eq owns.linked.used.path owns.liveUsed 0).trans owns.linked.used.getFrameCount

/-- No node is on the lists twice. -/
theorem nodup (owns : h.Owns ps qs) : (ps ++ qs).Nodup :=
  List.nodup_append.mpr ⟨owns.linked.free.path.nodup, owns.linked.used.path.nodup,
    fun _ free _ used same => owns.linked.apart free (same ▸ used)⟩

/-- The nodes when one that is taken off its list has been freed. -/
theorem mem_erase (owns : h.Owns ps qs) {ps' qs' : List Nat}
    (perm : (ps ++ qs).Perm (p :: (ps' ++ qs'))) (q : Nat) :
    q ∈ h.live.erase p ↔ q ∈ ps' ∨ q ∈ qs' := by
  obtain ⟨absent, -⟩ := List.nodup_cons.mp (perm.nodup_iff.mp owns.nodup)
  rw [Finset.mem_erase, owns.live, ← List.mem_append, perm.mem_iff, List.mem_cons, ← List.mem_append]
  constructor
  · rintro ⟨other, rfl | member⟩
    · exact absurd rfl other
    · exact member
  · exact fun member => ⟨ne_of_mem_of_not_mem member absent, .inr member⟩

/-- The first free node is freed. -/
theorem getFreefp_cons (owns : h.Owns (p :: ps) qs) : ∃ h',
    h.getFreefp = some (h', some (h.device.node p).fpn) ∧
      h.device.getFreefp = some ((h.device.node p).fpn, h'.device) ∧ h'.Owns ps qs := by
  obtain ⟨head, rest⟩ := owns.linked.free.tail
  refine ⟨⟨h.device.setFree (h.device.next p), h.live.erase p⟩,
    getFreefp_live head (owns.liveFree p List.mem_cons_self), ?_, ?_, ?_⟩
  · rw [Device.getFreefp, head]
    rfl
  · refine ⟨rest.setFree, owns.linked.used.setFree, fun q member => ?_⟩
    exact owns.linked.apart (List.mem_cons_of_mem p member)
  · exact owns.mem_erase .rfl

theorem getFreefp_nil (owns : h.Owns [] qs) :
    h.getFreefp = some (h, none) ∧ h.device.getFreefp = none := by
  have head : h.device.freeFpList = none := owns.linked.free.path
  constructor
  · rw [getFreefp, head]
  · rw [Device.getFreefp, head]
    rfl

/-- A new node is put on the free list. -/
theorem pushFree (owns : h.Owns ps qs) (fpn : b.Word) :
    ((h.addNode ⟨fpn, h.device.freeFpList, none⟩).setFree (some h.device.fresh)).Owns
      (h.device.fresh :: ps) qs := by
  refine ⟨⟨(owns.linked.free.push fpn none).setFree, (owns.linked.used.addNode _).setFree, ?_⟩, ?_⟩
  · exact List.disjoint_cons_left.mpr ⟨owns.linked.used.fresh_notMem, owns.linked.apart⟩
  · intro q
    change q ∈ insert h.device.fresh h.live ↔ _
    rw [Finset.mem_insert, owns.live, List.mem_cons, or_assoc]

/-- A new node is put on the used list. -/
theorem pushUsed (owns : h.Owns ps qs) (fpn : b.Word) (owner : Option M) :
    ((h.addNode ⟨fpn, h.device.usedFpList, owner⟩).setUsed (some h.device.fresh)).Owns
      ps (h.device.fresh :: qs) := by
  refine ⟨⟨(owns.linked.free.addNode _).setUsed, (owns.linked.used.push fpn owner).setUsed, ?_⟩, ?_⟩
  · exact List.disjoint_cons_right.mpr ⟨owns.linked.free.fresh_notMem, owns.linked.apart⟩
  · intro q
    change q ∈ insert h.device.fresh h.live ↔ _
    rw [Finset.mem_insert, owns.live, List.mem_cons, or_left_comm]

theorem putUsedfp (owns : h.Owns ps qs) (granted : Bool) (fpn : b.Word) (owner : Option M) :
    ∃ h' ret qs', h.putUsedfp granted fpn owner = (h', ret) ∧
      h.device.putUsedfp granted fpn owner = (h'.device, ret) ∧ h'.Owns ps qs' := by
  cases granted with
  | true => exact ⟨_, _, _, rfl, rfl, owns.pushUsed fpn owner⟩
  | false => exact ⟨_, _, _, rfl, rfl, owns⟩

/-- The first node with the frame is linked out and freed. -/
theorem removeUsedfp (owns : h.Owns ps qs) (fpn : b.Word) :
    ∃ h' ret qs', h.removeUsedfp fpn = some (h', ret) ∧
      h.device.removeUsedfp fpn = some (h'.device, ret) ∧ h'.Owns ps qs' := by
  have walk := owns.findUsed fpn
  obtain ⟨prev, found, -⟩ | ⟨before, curr, after, rfl, -, -, found⟩ := owns.linked.used.find fpn
  · refine ⟨h, -1, qs, ?_, ?_, owns⟩
    · simp only [DeviceHeap.removeUsedfp, walk, found, Option.bind_eq_bind, Option.bind_some]
    · rw [Device.removeUsedfp, found]
  · have alive : curr ∈ h.live := owns.liveUsed curr (by simp)
    have perm : (ps ++ (before ++ curr :: after)).Perm (curr :: (ps ++ (before ++ after))) := by
      rw [← List.append_assoc, ← List.append_assoc]
      exact List.perm_middle
    have apart : ps.Disjoint (before ++ after) := fun q member member' =>
      owns.linked.apart member (LinkedList.mem_middle.mpr (.inr member'))
    cases last : before.getLast? with
    | none =>
        obtain rfl := List.getLast?_eq_none_iff.mp last
        refine ⟨⟨h.device.setUsed (h.device.next curr), h.live.erase curr⟩, 0, after, ?_, ?_, ?_⟩
        · have freed : (h.setUsed (h.device.node curr).fpNext).free curr =
              some ⟨h.device.setUsed (h.device.next curr), h.live.erase curr⟩ := free_of_mem alive
          simp only [DeviceHeap.removeUsedfp, walk, found, last, load_of_mem alive, freed,
            Option.bind_eq_bind, Option.bind_some]
        · rw [Device.removeUsedfp, found, last]
        · exact ⟨⟨owns.linked.free.setUsed, owns.linked.used.tail.2.setUsed, apart⟩,
            owns.mem_erase perm⟩
    | some prev =>
        obtain ⟨first, rfl⟩ := List.getLast?_eq_some_iff.mp last
        simp only [List.append_assoc, List.singleton_append] at owns apart perm
        have before : prev ∈ h.live := owns.liveUsed prev (by simp)
        have off : prev ∉ ps := fun member => owns.linked.apart member (by simp)
        refine ⟨⟨h.device.setNext prev (h.device.next curr), h.live.erase curr⟩, 0,
          first ++ prev :: after, ?_, ?_, ?_⟩
        · have stored : h.setNext prev (h.device.node curr).fpNext =
              some ⟨h.device.setNext prev (h.device.next curr), h.live⟩ := if_pos before
          have freed : (⟨h.device.setNext prev (h.device.next curr), h.live⟩ : DeviceHeap b M).free
              curr = some ⟨h.device.setNext prev (h.device.next curr), h.live.erase curr⟩ :=
            free_of_mem alive
          simp only [DeviceHeap.removeUsedfp, walk, found, last, load_of_mem alive, stored, freed,
            Option.bind_eq_bind, Option.bind_some]
        · rw [Device.removeUsedfp, found, last]
        · exact ⟨⟨owns.linked.free.setNext off _, owns.linked.used.unlink, apart⟩,
            owns.mem_erase perm⟩

/-- `MEMPHY_cleanup` frees all nodes. -/
theorem cleanup (owns : h.Owns ps qs) : ∃ h', h.cleanup = some (h', 0) ∧
    h.device.cleanup = some (h'.device, 0) ∧ h'.live = ∅ ∧ h'.device.storage = none ∧
      h'.Owns [] [] := by
  have first := LinkedList.release_of_path owns.linked.free.path owns.liveFree
  have rest : ∀ q ∈ qs, q ∈ h.live \ ps.toFinset := by
    intro q used
    refine Finset.mem_sdiff.mpr ⟨owns.liveUsed q used, fun free => ?_⟩
    exact owns.linked.apart (List.mem_toFinset.mp free) used
  have second := LinkedList.release_of_path owns.linked.used.path rest
  have none : (h.live \ ps.toFinset) \ qs.toFinset = ∅ := by
    ext q
    simp [owns.live]
    tauto
  obtain ⟨last, ends⟩ := owns.linked.free.toEnd
  obtain ⟨last', ends'⟩ := owns.linked.used.toEnd
  rw [none] at second
  refine ⟨⟨{ h.device with storage := .none, freeFpList := .none, usedFpList := .none }, ∅⟩,
    ?_, ?_, rfl, rfl, ⟨.nil rfl, .nil rfl, List.disjoint_nil_left _⟩, by simp⟩
  · simp only [DeviceHeap.cleanup, first, second, Option.bind_eq_bind, Option.bind_some]
  · rw [Device.cleanup, ends, ends']
    rfl

end Owns

/-! ## The checks never fail -/

/-- The nodes are those of the two lists. -/
def Owned (h : DeviceHeap b M) : Prop := ∃ ps qs, h.Owns ps qs

/-- What a call does with the checks it does without, and the nodes stay those of the lists. -/
structure Agrees {ρ : Type} (checked : Option (DeviceHeap b M × ρ))
    (plain : Option (Device b M × ρ)) : Prop where
  same : (checked.map fun r => (r.1.device, r.2)) = plain
  owned : ∀ r, checked = some r → r.1.Owned

namespace Agrees

variable {ρ ρ' : Type}

theorem some {checked : Option (DeviceHeap b M × ρ)} {plain : Option (Device b M × ρ)}
    {reply : ρ} (checks : checked = .some (h, reply)) (does : plain = .some (h.device, reply))
    (owned : h.Owned) : Agrees checked plain where
  same := by
    rw [checks, does]
    rfl
  owned r same := by
    obtain rfl := Option.some.inj (checks.symm.trans same)
    exact owned

theorem none : Agrees (Option.none : Option (DeviceHeap b M × ρ)) .none where
  same := rfl
  owned r same := by cases same

theorem map {checked : Option (DeviceHeap b M × ρ)} {plain : Option (Device b M × ρ)}
    (agrees : Agrees checked plain) (f : ρ → ρ') :
    Agrees (checked.map fun r => (r.1, f r.2)) (plain.map fun r => (r.1, f r.2)) where
  same := by
    rw [← agrees.same]
    cases checked <;> rfl
  owned r same := by
    obtain ⟨r', before, rfl⟩ := Option.map_eq_some_iff.mp same
    exact agrees.owned r' before

end Agrees

namespace Owns

theorem agrees_removeUsedfp (owns : h.Owns ps qs) (fpn : b.Word) :
    Agrees (h.removeUsedfp fpn) (h.device.removeUsedfp fpn) := by
  obtain ⟨h', ret, qs', checks, does, after⟩ := owns.removeUsedfp fpn
  exact .some checks does ⟨_, _, after⟩

theorem agrees_putUsedfp (owns : h.Owns ps qs) (granted : Bool) (fpn : b.Word) (owner : Option M) :
    Agrees (.some (h.putUsedfp granted fpn owner)) (.some (h.device.putUsedfp granted fpn owner)) := by
  obtain ⟨h', ret, qs', checks, does, after⟩ := owns.putUsedfp granted fpn owner
  exact .some (congrArg Option.some checks) (congrArg Option.some does) ⟨_, _, after⟩

theorem agrees_getUsedfp (owns : h.Owns ps qs) (granted : Bool) (fpn : b.Word) (owner : Option M) :
    Agrees (h.getUsedfp granted fpn owner) (.some (h.device.getUsedfp granted fpn owner)) := by
  cases ps with
  | nil =>
      obtain ⟨checks, does⟩ := owns.getFreefp_nil
      rw [DeviceHeap.getUsedfp, Device.getUsedfp, checks, does]
      exact .some rfl rfl ⟨_, _, owns⟩
  | cons p ps =>
      obtain ⟨h', checks, does, after⟩ := owns.getFreefp_cons
      rw [DeviceHeap.getUsedfp, Device.getUsedfp, checks, does]
      exact after.agrees_putUsedfp granted _ owner

theorem agrees_putFreefp (owns : h.Owns ps qs) (granted : Bool) (fpn : b.Word) {ρ : Type} (reply : ρ) :
    Agrees ((h.putFreefp granted fpn).map fun h => (h, reply))
      ((h.device.putFreefp granted fpn).map fun d => (d, reply)) := by
  cases granted with
  | true => exact .some rfl rfl ⟨_, _, owns.pushFree fpn⟩
  | false => exact .none

theorem agrees_freeUsedfp (owns : h.Owns ps qs) (granted : Bool) (fpn : b.Word) :
    Agrees (h.freeUsedfp granted fpn) (h.device.freeUsedfp granted fpn) := by
  obtain ⟨h', ret, qs', checks, does, after⟩ := owns.removeUsedfp fpn
  rw [DeviceHeap.freeUsedfp, Device.freeUsedfp, checks, does]
  simp only [Option.bind_eq_bind, Option.bind_some]
  split
  · exact .some rfl rfl ⟨_, _, after⟩
  · exact after.agrees_putFreefp granted fpn 0

theorem findFrame (owns : h.Owns ps qs) (fpn : b.Word) (owner : Option M) :
    h.findFrame fpn owner = h.device.findFrame fpn owner := by
  rw [DeviceHeap.findFrame, Device.findFrame, owns.findUsed]
  obtain ⟨prev, found, -⟩ | ⟨before, curr, after, rfl, -, -, found⟩ := owns.linked.used.find fpn
  · rw [found]
    rfl
  · have alive : curr ∈ h.live := owns.liveUsed curr (by simp)
    simp only [found, load_of_mem alive, Option.bind_eq_bind, Option.bind_some]

theorem isFrameFree (owns : h.Owns ps qs) (fpn : b.Word) :
    h.isFrameFree fpn = h.device.isFrameFree fpn := by
  rw [DeviceHeap.isFrameFree, Device.isFrameFree, owns.findFree]
  rcases h.device.find fpn h.device.freeFpList with _ | ⟨prev, _ | curr⟩ <;> rfl

theorem getStats (owns : h.Owns ps qs) : h.getStats =
    some (BitVec.ofNat 32 ps.length, BitVec.ofNat 32 qs.length, h.device.totalFrames) := by
  simp only [DeviceHeap.getStats, owns.countFree, owns.countUsed, Option.bind_eq_bind,
    Option.bind_some]

theorem getStats_device (owns : h.Owns ps qs) : h.device.getStats = h.getStats := by
  rw [owns.getStats, Device.getStats, owns.linked.free.getFrameCount, owns.linked.used.getFrameCount]
  rfl

theorem validate (owns : h.Owns ps qs) : h.validate = h.device.validate := by
  rw [DeviceHeap.validate, Device.validate, owns.countFree, owns.countUsed,
    owns.linked.free.getFrameCount, owns.linked.used.getFrameCount]
  split
  · rfl
  · split
    · rfl
    · exact apply_ite some _ _ _

/-- The nodes stay where they are when bytes change. -/
theorem setStorage (owns : h.Owns ps qs) (storage : Option Block) :
    Owns { h with device := { h.device with storage := storage } } ps qs where
  linked := ⟨⟨owns.linked.free.path, owns.linked.free.bound⟩,
    ⟨owns.linked.used.path, owns.linked.used.bound⟩, owns.linked.apart⟩
  live := owns.live

end Owns

/-- The bytes are not in the nodes. -/
theorem Owns.agrees_read (owns : h.Owns ps qs) (addr : b.Word) :
    Agrees (h.call (.read addr)) (h.device.call (.read addr)) := by
  rw [DeviceHeap.call, Device.call]
  obtain ⟨-, gone⟩ | ⟨-, value, read⟩ := h.device.read_cases addr
  · rw [gone]
    exact .none
  · rw [read]
    exact .some rfl rfl ⟨_, _, owns⟩

theorem Owns.agrees_write (owns : h.Owns ps qs) (addr : b.Word) (data : Byte) :
    Agrees (h.call (.write addr data)) (h.device.call (.write addr data)) := by
  rw [DeviceHeap.call, Device.call]
  obtain ⟨-, gone⟩ | ⟨-, storage, ret, write⟩ := h.device.write_cases addr data
  · rw [gone]
    exact .none
  · rw [write]
    exact .some rfl rfl ⟨_, _, owns.setStorage storage⟩

/-- No check fails as long as the nodes are those of the lists. -/
theorem Owned.call (owned : h.Owned) (c : MemphyCall b M) :
    Agrees (h.call c) (h.device.call c) := by
  obtain ⟨ps, qs, owns⟩ := owned
  -- a call that only looks
  have looks : ∀ {ρ : Type} {checked plain : Option ρ} (reply : ρ → MemphyReply b M),
      checked = plain → Agrees (checked.map fun r => (h, reply r))
        (plain.map fun r => (h.device, reply r)) := by
    rintro ρ checked _ reply rfl
    cases checked with
    | none => exact .none
    | some r => exact .some rfl rfl ⟨_, _, owns⟩
  cases c with
  | read addr => exact owns.agrees_read addr
  | write addr data => exact owns.agrees_write addr data
  | getFreefp =>
      cases ps with
      | nil =>
          obtain ⟨checks, does⟩ := owns.getFreefp_nil
          simp only [DeviceHeap.call, Device.call, checks, does]
          exact .some rfl rfl ⟨_, _, owns⟩
      | cons p ps =>
          obtain ⟨h', checks, does, after⟩ := owns.getFreefp_cons
          simp only [DeviceHeap.call, Device.call, checks, does]
          exact .some rfl rfl ⟨_, _, after⟩
  | putFreefp granted fpn => exact owns.agrees_putFreefp granted fpn _
  | getUsedfp granted fpn owner => exact (owns.agrees_getUsedfp granted fpn owner).map MemphyReply.ret
  | putUsedfp granted fpn owner => exact (owns.agrees_putUsedfp granted fpn owner).map MemphyReply.ret
  | removeUsedfp fpn => exact (owns.agrees_removeUsedfp fpn).map MemphyReply.ret
  | freeUsedfp granted fpn => exact (owns.agrees_freeUsedfp granted fpn).map MemphyReply.ret
  | findFrame fpn owner => exact looks _ (owns.findFrame fpn owner)
  | isFrameFree fpn => exact looks _ (owns.isFrameFree fpn)
  | getStats => exact looks _ owns.getStats_device.symm
  | validate => exact looks _ owns.validate
  | cleanup =>
      obtain ⟨h', checks, does, -, -, after⟩ := owns.cleanup
      simp only [DeviceHeap.call, Device.call, checks, does]
      exact .some rfl rfl ⟨_, _, after⟩

end DeviceHeap

/-! ## Calls that fail -/

/-- A node that `malloc` has not granted is filled in without a look, and the bytes are gone after
`MEMPHY_cleanup` while the size is not. -/
def MemphyCall.Crashes (d : Device b M) : MemphyCall b M → Prop
  | .read addr => d.Stray addr
  | .write addr _ => d.Stray addr
  | .putFreefp granted _ => granted = false
  | .freeUsedfp granted fpn => granted = false ∧ (d.findFrame fpn none).map Prod.fst = some 0
  | _ => False

/-- A frame is found if it is on the used list. -/
theorem Device.Lists.findFrame_eq_zero_iff {d : Device b M} {free : List b.Word}
    {used : List (b.Word × Option M)} (lists : d.Lists free used) (fpn : b.Word) :
    (d.findFrame fpn none).map Prod.fst = some 0 ↔ ∃ e ∈ used, e.1 = fpn := by
  rw [lists.findFrame]
  cases hit : used.find? fun e => e.1 = fpn with
  | none =>
      refine iff_of_false (by simp) ?_
      rintro ⟨e, member, same⟩
      exact List.find?_eq_none.mp hit e member (decide_eq_true same)
  | some e =>
      have same := List.find?_some hit
      exact iff_of_true rfl ⟨e, List.mem_of_find?_eq_some hit, by simpa using same⟩

/-- On lists that end `MEMPHY_validate` returns. -/
theorem Device.Linked.exists_validate {d : Device b M} {ps qs : List Nat}
    (linked : d.Linked ps qs) : ∃ ret, d.validate = some ret := by
  rw [Device.validate, linked.free.getFrameCount, linked.used.getFrameCount]
  split
  · exact ⟨_, rfl⟩
  · split
    · exact ⟨_, rfl⟩
    · exact ⟨_, (apply_ite some _ _ _).symm⟩

/-- `MEMPHY_free_usedfp` needs a node for a frame that is on the used list. -/
theorem Device.Lists.freeUsedfp_eq_none_iff {d : Device b M} {free : List b.Word}
    {used : List (b.Word × Option M)} (lists : d.Lists free used) (granted : Bool)
    (fpn : b.Word) : d.freeUsedfp granted fpn = none ↔
      granted = false ∧ (d.findFrame fpn none).map Prod.fst = some 0 := by
  rw [lists.findFrame_eq_zero_iff]
  by_cases present : ∃ e ∈ used, e.1 = fpn
  · cases granted with
    | true =>
        obtain ⟨d', freed, -⟩ := lists.freeUsedfp present
        rw [freed]
        exact iff_of_false (Option.some_ne_none _) fun crash => Bool.false_ne_true crash.1.symm
    | false => exact iff_of_true (lists.freeUsedfp_refused present) ⟨rfl, present⟩
  · rw [lists.freeUsedfp_of_absent present]
    exact iff_of_false (Option.some_ne_none _) fun crash => present crash.2

/-- On lists that end there is no other way to fail. -/
theorem Device.Linked.call_eq_none_iff {d : Device b M} {ps qs : List Nat} (linked : d.Linked ps qs)
    (c : MemphyCall b M) : d.call c = none ↔ c.Crashes d := by
  have lists : d.Lists ((ps.map d.entry).map Prod.fst) (qs.map d.entry) := ⟨ps, qs, linked, rfl, rfl⟩
  -- a result that is there
  have done : ∀ {c : MemphyCall b M} {r}, ¬ c.Crashes d → d.call c = some r →
      (d.call c = none ↔ c.Crashes d) := by
    intro c r safe called
    rw [called]
    exact iff_of_false (Option.some_ne_none r) safe
  cases c with
  | read addr =>
      obtain ⟨gone, read⟩ | ⟨safe, value, read⟩ := d.read_cases addr
      · exact iff_of_true (by rw [call, read]; rfl) gone
      · exact done safe (by rw [call, read]; rfl)
  | write addr data =>
      obtain ⟨gone, write⟩ | ⟨safe, storage, ret, write⟩ := d.write_cases addr data
      · exact iff_of_true (by rw [call, write]; rfl) gone
      · exact done safe (by rw [call, write]; rfl)
  | getFreefp =>
      cases got : d.getFreefp with
      | none => exact done id (by rw [call, got])
      | some r => exact done id (by rw [call, got])
  | putFreefp granted fpn =>
      cases granted with
      | true => exact done Bool.false_ne_true.symm rfl
      | false => exact iff_of_true rfl rfl
  | getUsedfp granted fpn owner => exact done id rfl
  | putUsedfp granted fpn owner => exact done id rfl
  | removeUsedfp fpn =>
      by_cases present : ∃ e ∈ qs.map d.entry, e.1 = fpn
      · obtain ⟨d', removed, -⟩ := lists.removeUsedfp present
        exact done id (by rw [call, removed]; rfl)
      · exact done id (by rw [call, lists.removeUsedfp_of_absent present]; rfl)
  | freeUsedfp granted fpn =>
      rw [call, Option.map_eq_none_iff]
      exact lists.freeUsedfp_eq_none_iff granted fpn
  | findFrame fpn owner => exact done id (by rw [call, lists.findFrame]; rfl)
  | isFrameFree fpn => exact done id (by rw [call, lists.isFrameFree]; rfl)
  | getStats =>
      exact done id (by rw [call, getStats, linked.free.getFrameCount, linked.used.getFrameCount]; rfl)
  | validate =>
      obtain ⟨ret, validated⟩ := linked.exists_validate
      exact done id (by rw [call, validated]; rfl)
  | cleanup =>
      obtain ⟨last, ends⟩ := linked.free.toEnd
      obtain ⟨last', ends'⟩ := linked.used.toEnd
      exact done id (by rw [call, cleanup, ends, ends']; rfl)

/-! ## The nodes of a fresh device -/

namespace Device

section Format

variable {d : Device b M} {head : Option Nat} {ps : List Nat} {fst iter left : Nat}

theorem fresh_formatFrom (d : Device b M) (fst iter left : Nat) :
    (d.formatFrom fst iter left).fresh = d.fresh + left := by
  induction left generalizing d fst iter with
  | zero => rfl
  | succ left ih =>
      rw [formatFrom_succ, ih]
      change d.fresh + 1 + left = d.fresh + (left + 1)
      omega

/-- The loop lengthens the list behind `fst` by the nodes that it allocates. -/
theorem path_formatFrom (iter : Nat) (upto : Path d.next head ps (some fst))
    (old : ∀ p ∈ ps, p < d.fresh) (made : fst < d.fresh) (apart : fst ∉ ps)
    (last : left = 0 → d.next fst = none) :
    Path (d.formatFrom fst iter left).next head (ps ++ fst :: List.range' d.fresh left) none := by
  induction left generalizing d ps fst iter with
  | zero => exact path_split.mpr ⟨upto, last rfl⟩
  | succ left ih =>
      have linked : Path (d.formatRound fst iter).next head (ps ++ [fst]) (some d.fresh) := by
        refine path_split.mpr ⟨upto.congr fun p member => ?_, next_formatRound_self⟩
        exact next_formatRound (old p member) (ne_of_mem_of_not_mem member apart)
      have older : ∀ p ∈ ps ++ [fst], p < d.fresh := by
        simpa [or_imp, forall_and] using ⟨old, made⟩
      have further := ih (iter + 1) linked
        (fun p member => (older p member).trans (Nat.lt_succ_self _)) (Nat.lt_succ_self _)
        (fun member => lt_irrefl _ (older _ member)) fun _ => next_formatRound_fresh made
      rw [formatFrom_succ]
      rwa [List.append_assoc, List.singleton_append] at further

/-- A fresh list of several nodes, or of one that happens to have no link. -/
theorem linked_format (several : 0 < d.totalFrames)
    (link : d.totalFrames = 1 → d.next d.fresh = none) (unused : d.usedFpList = none) :
    d.format.1.Linked (List.range' d.fresh d.totalFrames.toNat) [] ∧
      d.format.1.fresh = d.fresh + d.totalFrames.toNat := by
  have count : d.totalFrames.toNat = d.totalFrames.toNat - 1 + 1 := by omega
  have first : d.firstNode.next d.fresh = d.next d.fresh := next_addNode_fresh _
  have upto : Path d.firstNode.next (some d.fresh) [] (some d.fresh) := rfl
  have path : Path (d.firstNode.formatFrom d.fresh 1 (d.totalFrames.toNat - 1)).next (some d.fresh)
      ([] ++ d.fresh :: List.range' d.firstNode.fresh (d.totalFrames.toNat - 1)) none :=
    path_formatFrom 1 upto (List.forall_mem_nil _) (Nat.lt_succ_self d.fresh) List.not_mem_nil
      fun none => first.trans (link (by omega))
  obtain ⟨free, used⟩ := d.firstNode.formatFrom_heads d.fresh 1 (d.totalFrames.toNat - 1)
  have nodes : d.fresh :: List.range' d.firstNode.fresh (d.totalFrames.toNat - 1) =
      List.range' d.fresh d.totalFrames.toNat := by
    rw [count]
    rfl
  have fresh : (d.firstNode.formatFrom d.fresh 1 (d.totalFrames.toNat - 1)).fresh =
      d.fresh + d.totalFrames.toNat := by
    rw [fresh_formatFrom]
    change d.fresh + 1 + _ = _
    omega
  rw [List.nil_append, nodes] at path
  rw [format_of_frames several]
  refine ⟨⟨⟨?_, fun p member => ?_⟩, .nil (used.trans unused), List.disjoint_nil_right _⟩, fresh⟩
  · rw [free]
    exact path
  · rw [fresh]
    exact (List.mem_range'_1.mp member).2

end Format

section Init

variable (d : Device b M) (maxSize : b.Word) (randomflg : BitVec 32)

theorem totalFrames_initMemphy :
    (d.initMemphy maxSize randomflg).totalFrames = (d.sized maxSize).totalFrames := by
  rw [totalFrames, maxsz_initMemphy]
  rfl

/-- The device once it is formatted. -/
def formatted : Device b M :=
  if (d.sized maxSize).format.2 < 0 then (d.sized maxSize).format.1.setFree none
  else (d.sized maxSize).format.1

/-- The flag and the cursor are not in the nodes. -/
theorem initMemphy_eq : ∃ flag cursor, d.initMemphy maxSize randomflg =
    { d.formatted maxSize with rdmflg := flag, cursor := cursor } := by
  rw [initMemphy]
  dsimp only
  cases randomflg != 0
  · exact ⟨_, _, rfl⟩
  · exact ⟨_, _, rfl⟩

theorem formatted_of_frames (several : 0 < (d.sized maxSize).totalFrames) :
    d.formatted maxSize = (d.sized maxSize).format.1 := by
  have done : (d.sized maxSize).format.2 = 0 := congrArg Prod.snd (format_of_frames several)
  rw [formatted, done, if_neg (lt_irrefl 0)]

theorem linked_formatted (link : (d.sized maxSize).totalFrames = 1 → d.next d.fresh = none) :
    ∃ count, (d.formatted maxSize).Linked (List.range' d.fresh count) [] ∧
      (d.formatted maxSize).fresh = d.fresh + count := by
  refine ⟨(d.sized maxSize).totalFrames.toNat, ?_⟩
  by_cases several : 0 < (d.sized maxSize).totalFrames
  · rw [formatted_of_frames d maxSize several]
    exact linked_format several link rfl
  · have failed : (d.sized maxSize).format = (d.sized maxSize, -1) := if_pos (not_lt.mp several)
    have nothing : (d.sized maxSize).totalFrames.toNat = 0 := by omega
    rw [formatted, failed, if_pos neg_one_lt_zero, nothing]
    exact ⟨⟨.nil rfl, .nil rfl, List.disjoint_nil_left _⟩, rfl⟩

/-- All nodes that `init_memphy` allocates are on the free list, which ends with them unless it
has one node, with a link left in it. -/
theorem linked_initMemphy
    (link : (d.initMemphy maxSize randomflg).totalFrames = 1 → d.next d.fresh = none) :
    ∃ count, (d.initMemphy maxSize randomflg).Linked (List.range' d.fresh count) [] ∧
      (d.initMemphy maxSize randomflg).fresh = d.fresh + count := by
  rw [totalFrames_initMemphy] at link
  obtain ⟨count, linked, fresh⟩ := d.linked_formatted maxSize link
  obtain ⟨flag, cursor, same⟩ := d.initMemphy_eq maxSize randomflg
  rw [same]
  exact ⟨count, ⟨⟨linked.free.path, linked.free.bound⟩, .nil linked.used.path, linked.apart⟩, fresh⟩

/-- The node of a single frame, with the link that was left in it. -/
theorem initMemphy_single (single : (d.initMemphy maxSize randomflg).totalFrames = 1) :
    (d.initMemphy maxSize randomflg).freeFpList = some d.fresh ∧
      (d.initMemphy maxSize randomflg).next d.fresh = d.next d.fresh ∧
        (d.initMemphy maxSize randomflg).fresh = d.fresh + 1 := by
  rw [totalFrames_initMemphy] at single
  have first : d.formatted maxSize = (d.sized maxSize).firstNode := by
    rw [formatted_of_frames d maxSize (by omega), format_of_frames (by omega), single]
    rfl
  obtain ⟨flag, cursor, same⟩ := d.initMemphy_eq maxSize randomflg
  rw [same, first]
  exact ⟨rfl, next_addNode_fresh _, rfl⟩

end Init

end Device

/-- `init_memphy`, with the nodes that it allocates. -/
def DeviceHeap.initMemphy (d : Device b M) (maxSize : b.Word) (randomflg : BitVec 32) :
    DeviceHeap b M :=
  ⟨d.initMemphy maxSize randomflg, Finset.Ico d.fresh (d.initMemphy maxSize randomflg).fresh⟩

theorem DeviceHeap.owns_initMemphy (d : Device b M) (maxSize : b.Word) (randomflg : BitVec 32)
    (link : (d.initMemphy maxSize randomflg).totalFrames = 1 → d.next d.fresh = none) :
    ∃ ps, (DeviceHeap.initMemphy d maxSize randomflg).Owns ps [] := by
  obtain ⟨count, linked, fresh⟩ := d.linked_initMemphy maxSize randomflg link
  refine ⟨_, linked, fun p => ?_⟩
  rw [DeviceHeap.initMemphy, Finset.mem_Ico, fresh, List.mem_range'_1]
  simp

/-! ## Runs -/

/-- Any calls on a fresh device, with the replies so far. -/
def Device.system (b : Build) (M : Type) :
    TransitionSystem (Device b M × List (MemphyReply b M)) (MemphyCall b M) where
  init s := ∃ (d : Device b M) (maxSize : b.Word) (randomflg : BitVec 32),
    s = (d.initMemphy maxSize randomflg, [])
  step s c := (s.1.call c).map fun (d, reply) => (d, s.2 ++ [reply])

/-- The same with the checks. -/
def DeviceHeap.system (b : Build) (M : Type) :
    TransitionSystem (DeviceHeap b M × List (MemphyReply b M)) (MemphyCall b M) where
  init s := ∃ (d : Device b M) (maxSize : b.Word) (randomflg : BitVec 32),
    s = (DeviceHeap.initMemphy d maxSize randomflg, [])
  step s c := (s.1.call c).map fun (h, reply) => (h, s.2 ++ [reply])

/-- Without checks a frame is got from whatever the list leads to. -/
theorem Device.step_getFreefp (s : Device b M × List (MemphyReply b M)) :
    ∃ t, (Device.system b M).step s .getFreefp = some t := by
  simp only [Device.system, Device.call]
  split
  · exact ⟨_, rfl⟩
  · exact ⟨_, rfl⟩

namespace DeviceHeap

open Device (step_getFreefp)

variable {h : DeviceHeap b M} {s t : DeviceHeap b M × List (MemphyReply b M)}
  {calls : List (MemphyCall b M)}

/-- What is left of a state without the checks. -/
def unchecked (s : DeviceHeap b M × List (MemphyReply b M)) :
    Device b M × List (MemphyReply b M) := (s.1.device, s.2)

theorem step_unchecked (owned : s.1.Owned) (c : MemphyCall b M) :
    ((DeviceHeap.system b M).step s c).map unchecked = (Device.system b M).step (unchecked s) c := by
  have same := (owned.call c).same
  change ((s.1.call c).map _).map _ = (s.1.device.call c).map _
  rw [← same, Option.map_map, Option.map_map]
  rfl

theorem owned_step {c : MemphyCall b M} (owned : s.1.Owned)
    (step : (DeviceHeap.system b M).step s c = some t) : t.1.Owned := by
  obtain ⟨r, called, rfl⟩ := Option.map_eq_some_iff.mp step
  exact (owned.call c).owned r called

theorem owned_run (owned : s.1.Owned) (run : (DeviceHeap.system b M).run s calls = some t) :
    t.1.Owned :=
  TransitionSystem.run_preserves (fun _ _ _ => owned_step) run owned

/-- A device can be used as if nodes were never freed exactly if it has not one frame, or the node
of that frame happens to have no link. -/
theorem checks_pass_iff (d : Device b M) (maxSize : b.Word) (randomflg : BitVec 32) :
    (∀ calls, ((DeviceHeap.system b M).run (initMemphy d maxSize randomflg, []) calls).map unchecked =
      (Device.system b M).run (d.initMemphy maxSize randomflg, []) calls) ↔
    ((d.initMemphy maxSize randomflg).totalFrames = 1 → d.next d.fresh = none) := by
  constructor
  · intro agree single
    obtain ⟨head, next, fresh⟩ := d.initMemphy_single maxSize randomflg single
    by_contra some
    obtain ⟨left, linked⟩ := Option.ne_none_iff_exists'.mp some
    -- the second call comes to a node that is not there
    have fails : (DeviceHeap.system b M).run (initMemphy d maxSize randomflg, [])
        [.getFreefp, .getFreefp] = none := by
      have alive : d.fresh ∈ (initMemphy d maxSize randomflg).live := by
        simp [initMemphy, fresh]
      have last : (initMemphy d maxSize randomflg).live.erase d.fresh = ∅ := by
        simp [initMemphy, fresh]
      have first := getFreefp_live head alive
      rw [last] at first
      have second : DeviceHeap.getFreefp ⟨(initMemphy d maxSize randomflg).device.setFree
          ((initMemphy d maxSize randomflg).device.next d.fresh), ∅⟩ = none :=
        getFreefp_dead (next.trans linked) (Finset.notMem_empty left)
      simp only [DeviceHeap.system, TransitionSystem.run_cons, DeviceHeap.call, first, second,
        Option.map_some, Option.map_none, Option.bind_some, Option.bind_none]
    have goes := agree [.getFreefp, .getFreefp]
    obtain ⟨s, step⟩ := step_getFreefp (d.initMemphy maxSize randomflg, [])
    obtain ⟨t, step'⟩ := step_getFreefp s
    rw [fails, TransitionSystem.run_cons, step, Option.bind_some, TransitionSystem.run_cons, step'] at goes
    cases goes
  · intro link calls
    obtain ⟨ps, owns⟩ := owns_initMemphy d maxSize randomflg link
    exact TransitionSystem.run_lockstep (fun s c owned => step_unchecked owned c)
      (fun s c t => owned_step) (P := fun s => s.1.Owned) ⟨ps, [], owns⟩ calls

/-- Whatever has been called on a device with the links right at first: the nodes that are allocated
are those that `MEMPHY_get_stats` counts, a call only fails where it goes through `NULL` or leaves
the storage, and `MEMPHY_cleanup` leaves no node and no storage. -/
theorem nodes_accounted {d : Device b M} {maxSize : b.Word} {randomflg : BitVec 32}
    (link : (d.initMemphy maxSize randomflg).totalFrames = 1 → d.next d.fresh = none)
    {replies : List (MemphyReply b M)}
    (run : (DeviceHeap.system b M).run (initMemphy d maxSize randomflg, []) calls =
      some (h, replies)) :
    (∀ c, h.call c = none ↔ c.Crashes h.device) ∧
    (∃ free used, h.live.card = free + used ∧
      h.getStats = some (BitVec.ofNat 32 free, BitVec.ofNat 32 used, h.device.totalFrames)) ∧
    ∃ h', h.cleanup = some (h', 0) ∧ h'.live = ∅ ∧ h'.device.storage = none := by
  obtain ⟨ps, owns⟩ := owns_initMemphy d maxSize randomflg link
  have owned := owned_run ⟨ps, [], owns⟩ run
  obtain ⟨ps, qs, owns⟩ := owned_run ⟨ps, [], owns⟩ run
  refine ⟨fun c => ?_, ⟨ps.length, qs.length, ?_, owns.getStats⟩, ?_⟩
  · have same := (owned.call c).same
    rw [← owns.linked.call_eq_none_iff, ← same, Option.map_eq_none_iff]
  · have nodes : h.live = (ps ++ qs).toFinset := by
      ext p
      rw [owns.live, List.mem_toFinset, List.mem_append]
    rw [nodes, List.toFinset_card_of_nodup owns.nodup, List.length_append]
  · obtain ⟨h', checks, -, none, gone, -⟩ := owns.cleanup
    exact ⟨h', checks, none, gone⟩

theorem nodes_accounted_twoPages : ∃ h replies,
    (DeviceHeap.system .mm32 Unit).run (initMemphy (Device.unset .mm32 Unit) 512 1, [])
        [.getFreefp, .putUsedfp true 0 (some ()), .getUsedfp true 1 none, .removeUsedfp 0,
          .putFreefp true 0] = some (h, replies) ∧
      h.call (.putFreefp false 1) = none ∧ ∃ h', h.cleanup = some (h', 0) ∧ h'.live = ∅ := by
  have replay : ((DeviceHeap.system .mm32 Unit).run
      (initMemphy (Device.unset .mm32 Unit) 512 1, [])
      [.getFreefp, .putUsedfp true 0 (some ()), .getUsedfp true 1 none, .removeUsedfp 0,
        .putFreefp true 0]).isSome = true := by
    decide
  obtain ⟨⟨h, replies⟩, run⟩ := Option.isSome_iff_exists.mp replay
  obtain ⟨crashes, -, h', cleaned, none, -⟩ := nodes_accounted (by decide) run
  exact ⟨h, replies, run, (crashes _).mpr rfl, h', cleaned, none⟩

end DeviceHeap

end SimpleOs.Mem
