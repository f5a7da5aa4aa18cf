import SimpleOs.Mem.Device

/-!
# Sequential devices

`MEMPHY_read` and `MEMPHY_write` hand an access to a sequential device on to `MEMPHY_seq_read`
and `MEMPHY_seq_write`, and these ask for the flag of a random-access device. So a sequential
device turns every access down, and its cursor never moves. It answers like a random-access
device of the same size as long as nobody asks for a byte that there is.
-/

namespace SimpleOs.Mem

variable {b : Build} {M : Type}

inductive DeviceCall (b : Build) where
  | read (addr : b.Word)
  | write (addr : b.Word) (data : Byte)

/-- What a call returns, and the byte that a read delivers. -/
abbrev Answer : Type := Int × Option Byte

def DeviceCall.addr : DeviceCall b → b.Word
  | .read addr => addr
  | .write addr _ => addr

namespace Device

def serve (d : Device b M) : DeviceCall b → Option (Device b M × Answer)
  | .read addr => (d.read addr).map fun (d, value) => (d, if value.isNone then -1 else 0, value)
  | .write addr data => (d.write addr data).map fun (d, ret) => (d, ret, none)

/-- The answers to calls made one after the other. -/
def answers : Device b M → List (DeviceCall b) → Option (List Answer)
  | _, [] => some []
  | d, call :: calls =>
      match d.serve call with
      | none => none
      | some (d, answer) => (d.answers calls).map (answer :: ·)

/-- The call is for an address past the end of the device. -/
def Outside (maxsz : BitVec 32) (call : DeviceCall b) : Prop := maxsz.signExtend b.width ≤ call.addr

variable {d : Device b M} {call : DeviceCall b} {calls : List (DeviceCall b)}

theorem serve_of_sequential (sequential : d.rdmflg = false) (call : DeviceCall b) :
    d.serve call = some (d, -1, none) := by
  cases call with
  | read addr =>
      rw [serve, read_of_sequential sequential]
      rfl
  | write addr data =>
      rw [serve, write_of_sequential sequential]
      rfl

theorem serve_outside (random : d.rdmflg = true) (outside : Outside d.maxsz call) :
    d.serve call = some (d, -1, none) := by
  cases call with
  | read addr =>
      have done : d.read addr = _ := read_outside random outside
      rw [serve, done]
      rfl
  | write addr data =>
      have done : d.write addr data = _ := write_outside random outside data
      rw [serve, done]
      rfl

/-- An address that the device does not turn down is served, or is not in the storage. -/
theorem serve_inside {block : Block} (random : d.rdmflg = true) (inside : ¬ Outside d.maxsz call)
    (storage : d.storage = some block) :
    d.serve call = none ∨ ∃ d' value, d.serve call = some (d', 0, value) := by
  cases call with
  | read addr =>
      have done : d.read addr = _ := read_inside random inside storage
      rw [serve, done]
      split
      · exact .inr ⟨_, _, rfl⟩
      · exact .inl rfl
  | write addr data =>
      have done : d.write addr data = _ := write_inside random inside storage data
      rw [serve, done]
      split
      · exact .inr ⟨_, _, rfl⟩
      · exact .inl rfl

theorem answers_of_sequential (sequential : d.rdmflg = false) (calls : List (DeviceCall b)) :
    d.answers calls = some (calls.map fun _ => (-1, none)) := by
  induction calls with
  | nil => rfl
  | cons call calls ih =>
      rw [answers, serve_of_sequential sequential]
      dsimp only
      rw [ih]
      rfl

/-- A random-access device turns everything down while no call is for one of its bytes. -/
theorem answers_of_random_iff {block : Block} (random : d.rdmflg = true)
    (storage : d.storage = some block) :
    d.answers calls = some (calls.map fun _ => (-1, none)) ↔
      ∀ call ∈ calls, Outside d.maxsz call := by
  induction calls with
  | nil => exact iff_of_true rfl (List.forall_mem_nil _)
  | cons call calls ih =>
      rw [List.forall_mem_cons, answers]
      by_cases outside : Outside d.maxsz call
      · -- the device is as before
        rw [serve_outside random outside, List.map_cons, and_iff_right outside, ← ih]
        dsimp only
        cases d.answers calls with
        | none => simp
        | some later => simp
      · refine iff_of_false ?_ fun all => outside all.1
        obtain stray | ⟨d', value, served⟩ := serve_inside random outside storage
        · rw [stray]
          rintro ⟨⟩
        · rw [served]
          dsimp only
          intro same
          obtain ⟨later, -, front⟩ := Option.map_eq_some_iff.mp same
          have status := (List.cons.inj front).1
          cases status

/-- Two devices of the same size, one sequential and one with random access, give the same answers
exactly to calls that are all past their end. -/
theorem modes_agree_iff (d d' : Device b M) (maxSize : b.Word) (calls : List (DeviceCall b)) :
    (d.initMemphy maxSize 0).answers calls = (d'.initMemphy maxSize 1).answers calls ↔
      ∀ call ∈ calls, Outside (maxSize.setWidth 32) call := by
  have sequential : (d.initMemphy maxSize 0).rdmflg = false := rdmflg_initMemphy d maxSize 0
  have random : (d'.initMemphy maxSize 1).rdmflg = true := rdmflg_initMemphy d' maxSize 1
  rw [answers_of_sequential sequential, eq_comm, ← maxsz_initMemphy d' maxSize 1]
  exact answers_of_random_iff random (storage_initMemphy d' maxSize 1)

/-- A sequential device of one page does not read its first byte. -/
theorem sequential_refuses : ¬ ∀ (maxSize : Build.mm32.Word) (calls : List (DeviceCall .mm32)),
    ((unset .mm32 Unit).initMemphy maxSize 0).answers calls =
      ((unset .mm32 Unit).initMemphy maxSize 1).answers calls := by
  intro agree
  have refused : ((unset .mm32 Unit).initMemphy 256 0).answers [.read 0] = some [(-1, none)] := by
    decide
  have read : ((unset .mm32 Unit).initMemphy 256 1).answers [.read 0] = some [(0, some 0)] := by
    decide
  rw [agree, read] at refused
  cases refused

end Device

end SimpleOs.Mem
