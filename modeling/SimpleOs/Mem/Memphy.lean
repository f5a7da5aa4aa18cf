import Mathlib
import SimpleOs.Mem.Build

/-!
# Physical memory devices

`mm-memphy.c`: a byte store with a list of free frames. RAM and the swap device
are both of this kind.
-/

namespace SimpleOs.Mem

abbrev Byte : Type := BitVec 8

/-- `struct memphy_struct` -/
structure Memphy (b : Build) where
  storage : Nat → Byte
  maxsz : Nat
  rdmflg : Bool
  freeFpList : List b.Word

variable {b : Build}

/-- `i` as an `addr_t` -/
abbrev word (b : Build) (i : Nat) : b.Word := BitVec.ofNat b.width i

/-- The frame numbers `0..n-1`. -/
def stock (b : Build) (n : Nat) : List b.Word := (List.range n).map (word b)

theorem nodup_stock {n : Nat} (fits : n ≤ 2 ^ b.width) : (stock b n).Nodup := by
  apply List.Nodup.map_on ?_ List.nodup_range
  intro i first j second same
  rw [List.mem_range] at first second
  have value := congrArg BitVec.toNat same
  rw [BitVec.toNat_ofNat, BitVec.toNat_ofNat, Nat.mod_eq_of_lt (first.trans_le fits),
    Nat.mod_eq_of_lt (second.trans_le fits)] at value
  exact value

theorem lt_of_mem_stock {n : Nat} {f : b.Word} (member : f ∈ stock b n) : f.toNat < n := by
  obtain ⟨i, below, rfl⟩ := List.mem_map.mp member
  rw [List.mem_range] at below
  exact (Nat.mod_le i _).trans_lt below

namespace Memphy

/-- `MEMPHY_seq_read`, which asks for the flag that sends `MEMPHY_read` elsewhere. -/
def seqRead (mp : Memphy b) (addr : b.Word) : Option Byte :=
  if mp.rdmflg then some (mp.storage addr.toNat) else none

/-- `MEMPHY_read`, `none` where it returns `-1` and sets no value. -/
def read (mp : Memphy b) (addr : b.Word) : Option Byte :=
  if mp.rdmflg then
    if mp.maxsz ≤ addr.toNat then none else some (mp.storage addr.toNat)
  else mp.seqRead addr

/-- `MEMPHY_seq_write` -/
def seqWrite (mp : Memphy b) (addr : b.Word) (value : Byte) : Option (Memphy b) :=
  if mp.rdmflg then some { mp with storage := Function.update mp.storage addr.toNat value }
  else none

/-- `MEMPHY_write` -/
def write (mp : Memphy b) (addr : b.Word) (data : Byte) : Option (Memphy b) :=
  if mp.rdmflg then
    if mp.maxsz ≤ addr.toNat then none
    else some { mp with storage := Function.update mp.storage addr.toNat data }
  else mp.seqWrite addr data

/-- `MEMPHY_get_freefp` -/
def getFreefp (mp : Memphy b) : Option (b.Word × Memphy b) :=
  match mp.freeFpList with
  | [] => none
  | fpn :: rest => some (fpn, { mp with freeFpList := rest })

/-- A frame that was got was the first of the list. -/
theorem getFreefp_cases {mp mp' : Memphy b} {fpn : b.Word}
    (popped : mp.getFreefp = some (fpn, mp')) :
    mp.freeFpList = fpn :: mp'.freeFpList ∧
      mp' = { mp with freeFpList := mp'.freeFpList } := by
  rw [getFreefp] at popped
  split at popped
  next => cases popped
  next fpn rest free =>
    obtain ⟨rfl, rfl⟩ := Prod.mk.inj (Option.some.inj popped)
    exact ⟨free, rfl⟩

theorem getFreefp_eq_none {mp : Memphy b} : mp.getFreefp = none ↔ mp.freeFpList = [] := by
  rw [getFreefp]
  split
  next free => simp [free]
  next free => simp [free]

/-- `MEMPHY_put_freefp` -/
def putFreefp (mp : Memphy b) (fpn : b.Word) : Memphy b :=
  { mp with freeFpList := fpn :: mp.freeFpList }

/-- `init_memphy` with the list that `MEMPHY_format` makes. The link of a lone frame,
which it never sets, is taken to be `NULL`. -/
def init (b : Build) (maxSize : Nat) (randomflg : Bool) : Memphy b where
  storage := fun _ => 0
  maxsz := maxSize
  rdmflg := randomflg
  freeFpList := stock b (maxSize / b.pageSz)

/-- The address of cell `i` of frame `fpn`, as the copy and fill loops compute it. -/
def cell (fpn : b.Word) (i : Nat) : b.Word := fpn * word b b.pageSz + word b i

/-- `MEMPHY_write` where the caller drops the return value. -/
def store (mp : Memphy b) (addr : b.Word) (data : Byte) : Memphy b := (mp.write addr data).getD mp

/-- `__swap_cp_page`, from `src` to `dst`. A failed read leaves the byte variable
with whatever was in it. -/
def swapCpPage (src : Memphy b) (srcfpn : b.Word) (dst : Memphy b) (dstfpn : b.Word)
    (junk : Nat → Byte) : Memphy b :=
  (List.range b.pageSz).foldl
    (fun dst i => dst.store (cell dstfpn i) ((src.read (cell srcfpn i)).getD (junk i))) dst

/-- The loop of `pg_getpage` that fills a new page with zeros. -/
def zeroFill (mp : Memphy b) (fpn : b.Word) : Memphy b :=
  (List.range b.pageSz).foldl (fun mp i => mp.store (cell fpn i) 0) mp

/-- How a device is accessed, and its size. -/
def kind (mp : Memphy b) : Bool × Nat := (mp.rdmflg, mp.maxsz)

theorem kind_getFreefp {mp mp' : Memphy b} {fpn : b.Word}
    (popped : mp.getFreefp = some (fpn, mp')) : mp'.kind = mp.kind := by
  rw [(getFreefp_cases popped).2]
  rfl

section Stores

variable (mp : Memphy b)

/-- A store changes the bytes only. -/
theorem store_eq (addr : b.Word) (data : Byte) :
    ∃ storage, mp.store addr data = { mp with storage := storage } := by
  rw [store, write, seqWrite]
  split
  · split <;> exact ⟨_, rfl⟩
  · exact ⟨mp.storage, rfl⟩

theorem foldl_store_eq (addr : Nat → b.Word) (data : Nat → Byte) (is : List Nat) :
    ∃ storage, is.foldl (fun mp i => mp.store (addr i) (data i)) mp =
      { mp with storage := storage } := by
  induction is generalizing mp with
  | nil => exact ⟨mp.storage, rfl⟩
  | cons i is ih =>
      obtain ⟨first, stored⟩ := mp.store_eq (addr i) (data i)
      obtain ⟨storage, rest⟩ := ih { mp with storage := first }
      refine ⟨storage, ?_⟩
      rw [List.foldl_cons, stored, rest]

theorem zeroFill_eq (fpn : b.Word) : ∃ storage, mp.zeroFill fpn = { mp with storage := storage } :=
  mp.foldl_store_eq (cell fpn) (fun _ => 0) _

@[simp] theorem freeFpList_store (addr : b.Word) (data : Byte) :
    (mp.store addr data).freeFpList = mp.freeFpList := by
  obtain ⟨storage, stored⟩ := mp.store_eq addr data
  rw [stored]

@[simp] theorem freeFpList_swapCpPage (src : Memphy b) (srcfpn dstfpn : b.Word)
    (junk : Nat → Byte) : (src.swapCpPage srcfpn mp dstfpn junk).freeFpList = mp.freeFpList := by
  obtain ⟨storage, copied⟩ := mp.foldl_store_eq (cell dstfpn)
    (fun i => (src.read (cell srcfpn i)).getD (junk i)) (List.range b.pageSz)
  rw [swapCpPage, copied]

@[simp] theorem kind_store (addr : b.Word) (data : Byte) : (mp.store addr data).kind = mp.kind := by
  obtain ⟨storage, stored⟩ := mp.store_eq addr data
  rw [stored]
  rfl

@[simp] theorem kind_swapCpPage (src : Memphy b) (srcfpn dstfpn : b.Word) (junk : Nat → Byte) :
    (src.swapCpPage srcfpn mp dstfpn junk).kind = mp.kind := by
  obtain ⟨storage, copied⟩ := mp.foldl_store_eq (cell dstfpn)
    (fun i => (src.read (cell srcfpn i)).getD (junk i)) (List.range b.pageSz)
  rw [swapCpPage, copied]
  rfl

@[simp] theorem kind_zeroFill (fpn : b.Word) : (mp.zeroFill fpn).kind = mp.kind := by
  obtain ⟨storage, filled⟩ := mp.zeroFill_eq fpn
  rw [filled]
  rfl

end Stores

section Cells

variable {mp : Memphy b} {fpn : b.Word} {i : Nat}

theorem toNat_cell (room : fpn.toNat * b.pageSz + i < 2 ^ b.width) (inPage : i < b.pageSz) :
    (cell fpn i).toNat = fpn.toNat * b.pageSz + i := by
  have page := b.pageSz_lt
  rw [cell, BitVec.toNat_add, BitVec.toNat_mul, BitVec.toNat_ofNat, BitVec.toNat_ofNat,
    Nat.mod_eq_of_lt page, Nat.mod_eq_of_lt (inPage.trans page), Nat.mod_add_mod,
    Nat.mod_eq_of_lt room]

theorem storage_store {addr : b.Word} (rdm : mp.rdmflg = true) (inside : addr.toNat < mp.maxsz)
    (data : Byte) : (mp.store addr data).storage = Function.update mp.storage addr.toNat data := by
  rw [store, write, if_pos rdm, if_neg (Nat.not_le.mpr inside)]
  rfl

theorem read_inside {addr : b.Word} (rdm : mp.rdmflg = true) (inside : addr.toNat < mp.maxsz) :
    mp.read addr = some (mp.storage addr.toNat) := by
  rw [read, if_pos rdm, if_neg (Nat.not_le.mpr inside)]

theorem read_ne_none (rdm : mp.rdmflg = true) (addr : b.Word) :
    mp.read addr ≠ none ↔ addr.toNat < mp.maxsz := by
  rw [read, if_pos rdm]
  split
  next outside => exact iff_of_false (fun done => done rfl) (Nat.not_lt.mpr outside)
  next inside => exact iff_of_true (Option.some_ne_none _) (Nat.not_le.mp inside)

theorem write_ne_none (rdm : mp.rdmflg = true) (addr : b.Word) (data : Byte) :
    mp.write addr data ≠ none ↔ addr.toNat < mp.maxsz := by
  rw [write, if_pos rdm]
  split
  next outside => exact iff_of_false (fun done => done rfl) (Nat.not_lt.mpr outside)
  next inside => exact iff_of_true (Option.some_ne_none _) (Nat.not_le.mp inside)

/-- Frame `fpn` lies on the device, and its bytes have addresses. -/
structure Inside (mp : Memphy b) (fpn : b.Word) : Prop where
  address : ∀ i < b.pageSz, fpn.toNat * b.pageSz + i < 2 ^ b.width
  room : (fpn.toNat + 1) * b.pageSz ≤ mp.maxsz

theorem Inside.toNat_cell (inside : mp.Inside fpn) (inPage : i < b.pageSz) :
    (cell fpn i).toNat = fpn.toNat * b.pageSz + i ∧ (cell fpn i).toNat < mp.maxsz := by
  have address := Memphy.toNat_cell (inside.address i inPage) inPage
  have room := inside.room
  rw [Nat.add_mul, one_mul] at room
  omega

/-- Filling a frame cell by cell changes that frame only. -/
theorem storage_fill (rdm : mp.rdmflg = true) (inside : mp.Inside fpn) (data : Nat → Byte) (a : Nat) :
    ((List.range b.pageSz).foldl (fun mp i => mp.store (cell fpn i) (data i)) mp).storage a =
      if a / b.pageSz = fpn.toNat then data (a % b.pageSz) else mp.storage a := by
  have upTo : ∀ k ≤ b.pageSz,
      ((List.range k).foldl (fun mp i => mp.store (cell fpn i) (data i)) mp).storage a =
        if a / b.pageSz = fpn.toNat ∧ a % b.pageSz < k then data (a % b.pageSz)
        else mp.storage a := by
    intro k within
    induction k with
    | zero => simp
    | succ k ih =>
        obtain ⟨storage, filled⟩ := mp.foldl_store_eq (cell fpn) data (List.range k)
        have inPage : k < b.pageSz := Nat.lt_of_succ_le within
        obtain ⟨address, onDevice⟩ := inside.toNat_cell inPage
        have before := ih inPage.le
        rw [List.range_succ, List.foldl_append, List.foldl_cons, List.foldl_nil]
        rw [filled] at before ⊢
        have random : ({ mp with storage := storage } : Memphy b).rdmflg = true := rdm
        rw [storage_store random onDevice, address, Function.update_apply, before]
        simp only [b.addr_eq_iff inPage]
        by_cases same : a / b.pageSz = fpn.toNat
        · by_cases last : a % b.pageSz = k
          · simp [same, last]
          · have order : a % b.pageSz < k ↔ a % b.pageSz < k + 1 := by omega
            simp [same, last, order]
        · simp [same]
  rw [upTo _ le_rfl]
  simp [Nat.mod_lt _ b.pageSz_pos]

/-- A frame that lies on the device is zero afterwards, and the others are as before. -/
theorem storage_zeroFill (rdm : mp.rdmflg = true) (inside : mp.Inside fpn) (a : Nat) :
    (mp.zeroFill fpn).storage a = if a / b.pageSz = fpn.toNat then 0 else mp.storage a :=
  storage_fill rdm inside (fun _ => 0) a

end Cells

end Memphy

end SimpleOs.Mem
