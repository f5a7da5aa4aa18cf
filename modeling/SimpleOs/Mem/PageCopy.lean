import SimpleOs.Mem.Device

/-!
# Copying a page between devices

`__swap_cp_page` reads a byte and writes it, cell by cell, and drops both status codes. Source and
destination may be the same device and even the same frame, so the devices are kept in one
store and the copy goes through it. Where both frames lie on their devices no access fails: the
cells done so far carry the bytes from before, and everything else is as it was.
-/

namespace SimpleOs.Mem

variable {b : Build} {M : Type}

namespace Device

/-- A byte of the storage. -/
def byte (d : Device b M) (a : Nat) : Byte := (d.storage.map fun block => block.byte a).getD 0

/-- The device with one byte changed. -/
def poke (d : Device b M) (a : Nat) (value : Byte) : Device b M :=
  { d with storage := d.storage.map fun block =>
      { block with byte := Function.update block.byte a value } }

/-- Frame `fpn` lies on the device, which has storage and random access. -/
structure WholeFrame (d : Device b M) (fpn : b.Word) : Prop where
  random : d.rdmflg = true
  backed : d.Backed
  inside : ((fpn.toNat + 1) * b.pageSz : Nat) ≤ d.maxsz.toInt

theorem byte_poke {d : Device b M} (storage : d.storage ≠ none) (a x : Nat) (value : Byte) :
    (d.poke a value).byte x = if x = a then value else d.byte x := by
  obtain ⟨block, here⟩ := Option.ne_none_iff_exists'.mp storage
  simp [poke, byte, here, Function.update_apply]

theorem Backed.ne_none {d : Device b M} (backed : d.Backed) : d.storage ≠ none := by
  obtain ⟨block, here, -⟩ := backed
  exact here.trans_ne (Option.some_ne_none _)

/-- The size of the storage is what matters. -/
theorem Backed.congr {d d' : Device b M} (backed : d.Backed)
    (size : d'.storage.map Block.size = d.storage.map Block.size) (maxsz : d'.maxsz = d.maxsz) :
    d'.Backed := by
  obtain ⟨block, here, room⟩ := backed
  rw [here, Option.map_some] at size
  obtain ⟨block', here', same⟩ := Option.map_eq_some_iff.mp size
  exact ⟨block', here', by rwa [maxsz, same]⟩

namespace WholeFrame

variable {d : Device b M} {fpn : b.Word} {i : Nat}

/-- A cell of the frame has an address, which the device does not turn down, in the storage. -/
theorem cell (whole : d.WholeFrame fpn) (inPage : i < b.pageSz) :
    (Memphy.cell fpn i).toNat = fpn.toNat * b.pageSz + i ∧
      ¬ d.maxsz.signExtend b.width ≤ Memphy.cell fpn i ∧
        ∃ block, d.storage = some block ∧ (Memphy.cell fpn i).toNat < block.size := by
  have inside := whole.inside
  rw [Nat.add_mul, one_mul, Nat.cast_add] at inside
  have small : d.maxsz.toInt < 2 ^ 31 := BitVec.toInt_lt
  have wide : 2 ^ 32 ≤ 2 ^ b.width := Nat.pow_le_pow_right (by decide) b.wellFormed.int
  have address : (Memphy.cell fpn i).toNat = fpn.toNat * b.pageSz + i :=
    Memphy.toNat_cell (by omega) inPage
  obtain ⟨block, here, room⟩ := whole.backed
  refine ⟨address, ?_, block, here, by omega⟩
  intro outside
  have signed : (d.maxsz.signExtend b.width).toInt = d.maxsz.toInt :=
    BitVec.toInt_signExtend_of_le b.wellFormed.int
  rw [BitVec.le_def, address] at outside
  rw [BitVec.toInt_eq_toNat_cond] at signed
  split at signed <;> omega

theorem read (whole : d.WholeFrame fpn) (inPage : i < b.pageSz) :
    d.read (Memphy.cell fpn i) = some (d, some (d.byte (fpn.toNat * b.pageSz + i))) := by
  obtain ⟨address, inside, block, here, stored⟩ := whole.cell inPage
  rw [read_inside whole.random inside here, if_pos stored, address, byte, here]
  rfl

theorem write (whole : d.WholeFrame fpn) (inPage : i < b.pageSz) (data : Byte) :
    d.write (Memphy.cell fpn i) data = some (d.poke (fpn.toNat * b.pageSz + i) data, 0) := by
  obtain ⟨address, inside, block, here, stored⟩ := whole.cell inPage
  rw [write_inside whole.random inside here, if_pos stored, address, poke, here]
  rfl

end WholeFrame

end Device

section Copy

variable {D : Type} [DecidableEq D]

/-- A round of the loop: what a failed read leaves in `data` is `junk`. -/
def copyCell (s : D → Device b M) (src : D) (srcfpn : b.Word) (dst : D) (dstfpn : b.Word)
    (junk : Nat → Byte) (cellidx : Nat) : Option (D → Device b M) :=
  match (s src).read (Memphy.cell srcfpn cellidx) with
  | none => none
  | some (d, data) =>
      let s := Function.update s src d
      ((s dst).write (Memphy.cell dstfpn cellidx) (data.getD (junk cellidx))).map fun (d, _) =>
        Function.update s dst d

/-- `__swap_cp_page` -/
def swapCpPage (s : D → Device b M) (src : D) (srcfpn : b.Word) (dst : D) (dstfpn : b.Word)
    (junk : Nat → Byte) : Option (D → Device b M) :=
  (List.range b.pageSz).foldlM (fun s i => copyCell s src srcfpn dst dstfpn junk i) s

/-- The devices differ in bytes only, and in none but those that meet `which`. -/
structure Overwritten (which : D → Nat → Prop) (s t : D → Device b M) : Prop where
  body : ∀ x, { t x with storage := (s x).storage } = s x
  storage : ∀ x, (t x).storage.map Block.size = (s x).storage.map Block.size
  others : ∀ x a, ¬ which x a → (t x).byte a = (s x).byte a

/-- The bytes of a frame of a device. -/
def InFrame (d : D) (fpn : b.Word) (x : D) (a : Nat) : Prop := x = d ∧ a / b.pageSz = fpn.toNat

variable {s t u : D → Device b M} {src dst : D} {srcfpn dstfpn : b.Word} {junk : Nat → Byte}

namespace Overwritten

variable {which : D → Nat → Prop}

omit [DecidableEq D] in
theorem wholeFrame (changed : Overwritten which s t) {x : D} {fpn : b.Word}
    (whole : (s x).WholeFrame fpn) : (t x).WholeFrame fpn := by
  have random := congrArg Device.rdmflg (changed.body x)
  have size := congrArg Device.maxsz (changed.body x)
  refine ⟨random.trans whole.random, whole.backed.congr (changed.storage x) size, ?_⟩
  exact whole.inside.trans_eq (congrArg BitVec.toInt size).symm

end Overwritten

/-- A cell of a frame is at its place in that frame. -/
theorem cell_place (fpn : b.Word) {i : Nat} (inPage : i < b.pageSz) :
    (fpn.toNat * b.pageSz + i) / b.pageSz = fpn.toNat ∧
      (fpn.toNat * b.pageSz + i) % b.pageSz = i :=
  (b.addr_eq_iff inPage).mp rfl

omit [DecidableEq D] in
/-- A cell of a frame is in no other frame. -/
theorem inFrame_cell {d x : D} {fpn fpn' : b.Word} {i : Nat} (inPage : i < b.pageSz) :
    InFrame d fpn x (fpn'.toNat * b.pageSz + i) ↔ (d, fpn) = (x, fpn') := by
  have place := cell_place fpn' inPage
  rw [InFrame, place.1, Prod.mk.injEq, BitVec.toNat_inj, eq_comm (a := x), eq_comm (a := fpn')]

/-- One round pokes one cell of the destination. -/
theorem copyCell_eq (srcFrame : (s src).WholeFrame srcfpn) (dstFrame : (s dst).WholeFrame dstfpn)
    {i : Nat} (inPage : i < b.pageSz) :
    copyCell s src srcfpn dst dstfpn junk i =
      some (Function.update s dst ((s dst).poke (dstfpn.toNat * b.pageSz + i)
        ((s src).byte (srcfpn.toNat * b.pageSz + i)))) := by
  rw [copyCell, srcFrame.read inPage]
  dsimp only
  rw [Function.update_eq_self, Option.getD_some, dstFrame.write inPage]
  rfl

/-- The cells below `k` have been copied. -/
structure CopiedUpto (k : Nat) (s t : D → Device b M) (src : D) (srcfpn : b.Word) (dst : D)
    (dstfpn : b.Word) : Prop where
  body : ∀ x, { t x with storage := (s x).storage } = s x
  storage : ∀ x, (t x).storage.map Block.size = (s x).storage.map Block.size
  bytes : ∀ x a, (t x).byte a =
    if x = dst ∧ a / b.pageSz = dstfpn.toNat ∧ a % b.pageSz < k then
      (s src).byte (srcfpn.toNat * b.pageSz + a % b.pageSz)
    else (s x).byte a

theorem CopiedUpto.overwritten {k : Nat} (copied : CopiedUpto k s t src srcfpn dst dstfpn) :
    Overwritten (InFrame dst dstfpn) s t := by
  refine ⟨copied.body, copied.storage, ?_⟩
  intro x a outside
  rw [copied.bytes, if_neg fun done => outside ⟨done.1, done.2.1⟩]

/-- The source cell is read before it is overwritten, if ever. -/
theorem CopiedUpto.step {k : Nat} (copied : CopiedUpto k s t src srcfpn dst dstfpn)
    (srcFrame : (s src).WholeFrame srcfpn) (dstFrame : (s dst).WholeFrame dstfpn)
    (inPage : k < b.pageSz) (junk : Nat → Byte) :
    ∃ u, copyCell t src srcfpn dst dstfpn junk k = some u ∧
      CopiedUpto (k + 1) s u src srcfpn dst dstfpn := by
  have dstNow := copied.overwritten.wholeFrame dstFrame
  refine ⟨_, copyCell_eq (copied.overwritten.wholeFrame srcFrame) dstNow inPage, ?_, ?_, ?_⟩
  · intro x
    by_cases here : x = dst
    · subst here
      rw [Function.update_self]
      exact copied.body x
    · rw [Function.update_of_ne here]
      exact copied.body x
  · intro x
    by_cases here : x = dst
    · subst here
      rw [Function.update_self, ← copied.storage]
      exact Option.map_map _ _ _
    · rw [Function.update_of_ne here]
      exact copied.storage x
  · intro x a
    have source : (t src).byte (srcfpn.toNat * b.pageSz + k) =
        (s src).byte (srcfpn.toNat * b.pageSz + k) := by
      rw [copied.bytes, (cell_place srcfpn inPage).2, if_neg fun done => lt_irrefl k done.2.2]
    by_cases here : x = dst
    · subst here
      rw [Function.update_self, Device.byte_poke dstNow.backed.ne_none, source, copied.bytes]
      simp only [b.addr_eq_iff inPage]
      by_cases same : a / b.pageSz = dstfpn.toNat
      · by_cases last : a % b.pageSz = k
        · simp [same, last]
        · have order : a % b.pageSz < k ↔ a % b.pageSz < k + 1 := by omega
          simp [same, last, order]
      · simp [same]
    · rw [Function.update_of_ne here, copied.bytes, if_neg fun done => here done.1,
        if_neg fun done => here done.1]

/-- The loop, by induction over its rounds. -/
theorem copiedUpto (srcFrame : (s src).WholeFrame srcfpn) (dstFrame : (s dst).WholeFrame dstfpn)
    (junk : Nat → Byte) {k : Nat} (within : k ≤ b.pageSz) :
    ∃ t, (List.range k).foldlM (fun s i => copyCell s src srcfpn dst dstfpn junk i) s = some t ∧
      CopiedUpto k s t src srcfpn dst dstfpn := by
  induction k with
  | zero => exact ⟨s, rfl, fun _ => rfl, fun _ => rfl, fun _ _ => by simp⟩
  | succ k ih =>
      obtain ⟨t, done, copied⟩ := ih (Nat.le_of_succ_le within)
      obtain ⟨u, round, after⟩ := copied.step srcFrame dstFrame within junk
      refine ⟨u, ?_, after⟩
      rw [List.range_succ, List.foldlM_append, done, Option.bind_eq_bind, Option.bind_some,
        List.foldlM_cons, round]
      rfl

/-- The destination frame gets the bytes of the source frame, and nothing else changes. -/
theorem swapCpPage_copies (srcFrame : (s src).WholeFrame srcfpn)
    (dstFrame : (s dst).WholeFrame dstfpn) (junk : Nat → Byte) :
    ∃ t, swapCpPage s src srcfpn dst dstfpn junk = some t ∧
      Overwritten (InFrame dst dstfpn) s t ∧
      ∀ i < b.pageSz, (t dst).byte (dstfpn.toNat * b.pageSz + i) =
        (s src).byte (srcfpn.toNat * b.pageSz + i) := by
  obtain ⟨t, done, copied⟩ := copiedUpto srcFrame dstFrame junk (le_refl b.pageSz)
  refine ⟨t, done, copied.overwritten, ?_⟩
  intro i inPage
  obtain ⟨page, off⟩ := cell_place dstfpn inPage
  rw [copied.bytes, page, off, if_pos ⟨rfl, rfl, inPage⟩]

/-- A page copy is exact and confined to the destination frame; and a frame that was copied out to
another one, overwritten and copied back is as it was. -/
theorem page_copy_exact (srcFrame : (s src).WholeFrame srcfpn)
    (dstFrame : (s dst).WholeFrame dstfpn) (junk junk' : Nat → Byte) :
    ∃ t, swapCpPage s src srcfpn dst dstfpn junk = some t ∧
      Overwritten (InFrame dst dstfpn) s t ∧
      (∀ i < b.pageSz, (t dst).byte (dstfpn.toNat * b.pageSz + i) =
        (s src).byte (srcfpn.toNat * b.pageSz + i)) ∧
      ((src, srcfpn) ≠ (dst, dstfpn) → ∀ u, Overwritten (InFrame src srcfpn) t u →
        ∃ v, swapCpPage u dst dstfpn src srcfpn junk' = some v ∧
          Overwritten (InFrame src srcfpn) u v ∧
          ∀ i < b.pageSz, (v src).byte (srcfpn.toNat * b.pageSz + i) =
            (s src).byte (srcfpn.toNat * b.pageSz + i)) := by
  obtain ⟨t, done, confined, exact_⟩ := swapCpPage_copies srcFrame dstFrame junk
  refine ⟨t, done, confined, exact_, ?_⟩
  intro distinct u changed
  have srcNow := changed.wholeFrame (confined.wholeFrame srcFrame)
  have dstNow := changed.wholeFrame (confined.wholeFrame dstFrame)
  obtain ⟨v, back, confined', restored⟩ := swapCpPage_copies dstNow srcNow junk'
  refine ⟨v, back, confined', ?_⟩
  intro i inPage
  -- the copy was out of reach of what was overwritten
  have kept := changed.others dst (dstfpn.toNat * b.pageSz + i)
    (mt (inFrame_cell inPage).mp distinct)
  rw [restored i inPage, kept, exact_ i inPage]

/-- RAM and a swap device of two pages each. -/
def twoPages : Bool → Device .mm32 Unit := fun _ => (Device.unset .mm32 Unit).initMemphy 512 1

theorem page_copy_twoPages : ∃ t, swapCpPage twoPages false 0 true 1 (fun _ => 0) = some t ∧
    ∀ i < Build.mm32.pageSz, (t true).byte (1 * Build.mm32.pageSz + i) =
      (twoPages false).byte (0 * Build.mm32.pageSz + i) := by
  have whole : ∀ x, ∀ fpn : Build.mm32.Word, fpn.toNat < 2 → (twoPages x).WholeFrame fpn := by
    intro x fpn onDevice
    refine ⟨Device.rdmflg_initMemphy _ _ _, Device.backed_initMemphy _ _ _, ?_⟩
    · have size : (twoPages x).maxsz.toInt = 512 :=
        congrArg BitVec.toInt (Device.maxsz_initMemphy _ _ _)
      have pages : (fpn.toNat + 1) * Build.mm32.pageSz ≤ 2 * 256 := Nat.mul_le_mul_right 256 onDevice
      omega
  obtain ⟨t, done, -, copied, -⟩ := page_copy_exact (whole false 0 (by decide))
    (whole true 1 (by decide)) (fun _ => 0) fun _ => 0
  exact ⟨t, done, copied⟩

/-- Between two devices this is the copy that the rest of the kernel makes. -/
theorem models_swapCpPage {msrc mdst : Memphy b} (source : (s src).Models msrc)
    (target : (s dst).Models mdst) (other : src ≠ dst) (junk : Nat → Byte) :
    ∃ t, swapCpPage s src srcfpn dst dstfpn junk = some t ∧
      (t dst).Models (msrc.swapCpPage srcfpn mdst dstfpn junk) ∧ ∀ x, x ≠ dst → t x = s x := by
  have loop : ∀ (is : List Nat) (s : D → Device b M) (mdst : Memphy b), (s src).Models msrc →
      (s dst).Models mdst →
      ∃ t, is.foldlM (fun s i => copyCell s src srcfpn dst dstfpn junk i) s = some t ∧
        (t dst).Models (is.foldl (fun mdst i => mdst.store (Memphy.cell dstfpn i)
          ((msrc.read (Memphy.cell srcfpn i)).getD (junk i))) mdst) ∧
        ∀ x, x ≠ dst → t x = s x := by
    intro is
    induction is with
    | nil => exact fun s mdst source target => ⟨s, rfl, target, fun _ _ => rfl⟩
    | cons i is ih =>
        intro s mdst source target
        obtain ⟨d, written, after⟩ := target.write (Memphy.cell dstfpn i)
          ((msrc.read (Memphy.cell srcfpn i)).getD (junk i))
        have round : copyCell s src srcfpn dst dstfpn junk i = some (Function.update s dst d) := by
          rw [copyCell, source.read]
          dsimp only
          rw [Function.update_eq_self, written]
          rfl
        obtain ⟨t, done, models, others⟩ := ih (Function.update s dst d) _
          (by rwa [Function.update_of_ne other]) (by rwa [Function.update_self])
        refine ⟨t, ?_, models, ?_⟩
        · rw [List.foldlM_cons, round]
          exact done
        · intro x away
          rw [others x away, Function.update_of_ne away]
  exact loop _ s mdst source target

end Copy

end SimpleOs.Mem
