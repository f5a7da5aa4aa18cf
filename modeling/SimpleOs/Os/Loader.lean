import Mathlib.Logic.Function.Basic
import SimpleOs.Lib.Scan
import SimpleOs.Mem.Build

/-!
# Process files

`load` reads a priority, a number of instructions, and as many instructions. Blanks and lines
are free except for a system call, whose arguments are what is left of its line. Nothing looks
at what `fscanf` returns: arguments that are missing stay what `malloc` left there, and past
the end of the file the last opcode counts again.

A file is a text without NUL characters. What C leaves undefined stops the model: a word too
long for `opcode`, a number too large for its variable, a buffer read before it is written.
-/

namespace SimpleOs

open Scan
open Mem (Build)

/-- `enum ins_opcode_t` -/
inductive InsOpcode where
  | calc
  | alloc
  | free
  | read
  | write
  | syscall
  deriving DecidableEq

/-- `struct inst_t` -/
structure InstT (b : Build) where
  opcode : InsOpcode
  arg0 : b.Word
  arg1 : b.Word
  arg2 : b.Word
  arg3 : b.Word

/-- How a function ends that does not return: with `exit(1)`, or with what C leaves undefined. -/
inductive Stop where
  | exit (printed : List Char)
  | undefined
  deriving DecidableEq

/-- The words for the opcodes, `OPT_CALC` and so on. -/
def InsOpcode.opt : InsOpcode → List Char
  | .calc => "calc".toList
  | .alloc => "alloc".toList
  | .free => "free".toList
  | .read => "read".toList
  | .write => "write".toList
  | .syscall => "syscall".toList

/-- `get_opcode` -/
def getOpcode (opt : List Char) : Except Stop InsOpcode :=
  if opt = InsOpcode.calc.opt then .ok .calc
  else if opt = InsOpcode.alloc.opt then .ok .alloc
  else if opt = InsOpcode.free.opt then .ok .free
  else if opt = InsOpcode.read.opt then .ok .read
  else if opt = InsOpcode.write.opt then .ok .write
  else if opt = InsOpcode.syscall.opt then .ok .syscall
  else .error (.exit ("get_opcode return Opcode: ".toList ++ opt ++ ['\n']))

/-- The locals of `load` while it reads instructions: what is left of the file, and `opcode` and `buf`,
which are not set at first. -/
structure Reader where
  file : List Char
  opcode : Option (List Char)
  buf : Option (List Char)

variable {b : Build}

/-- An argument that was read, or what is there. -/
def argument (vs : List Int) (k : Nat) (old : b.Word) : b.Word :=
  (vs[k]?).elim old fun v => BitVec.ofInt b.width v

/-- The numbers that were read are stored as arguments, in order. -/
def InstT.store (inst : InstT b) (vs : List Int) : InstT b :=
  { inst with
    arg0 := argument vs 0 inst.arg0
    arg1 := argument vs 1 inst.arg1
    arg2 := argument vs 2 inst.arg2
    arg3 := argument vs 3 inst.arg3 }

/-- An unsigned variable of that width can hold the number, or its opposite. -/
def Fits (width : Nat) (vs : List Int) : Prop := ∀ v ∈ vs, v.natAbs < 2 ^ width

instance decidableFits (width : Nat) (vs : List Int) : Decidable (Fits width vs) := List.decidableBAll ..

namespace Reader

/-- `fscanf` of `n` arguments, with the line break at the end of its format. -/
def scanArgs (s : Reader) (inst : InstT b) (n : Nat) : Except Stop (Reader × InstT b) :=
  let (vs, file) := numbers n s.file
  if Fits b.width vs then
    .ok ({ s with file := if vs.length = n then skip file else file }, inst.store vs)
  else .error .undefined

/-- `fgets` and `sscanf` of a system call. -/
def scanSyscall (s : Reader) (inst : InstT b) : Except Stop (Reader × InstT b) :=
  let (got, file) := gets 200 s.file
  match got <|> s.buf with
  | none => .error .undefined
  | some buf =>
      if Fits b.width (numbers 4 buf).1 then
        .ok ({ s with file := file, buf := some buf }, inst.store (numbers 4 buf).1)
      else .error .undefined

/-- A round of the loop of `load`. -/
def loadInst (s : Reader) (inst : InstT b) : Except Stop (Reader × InstT b) :=
  let (got, file) := word s.file
  match got <|> s.opcode with
  | none => .error .undefined
  | some opcode =>
      if opcode.length < 10 then do
        let ins ← getOpcode opcode
        let s := { s with file := file, opcode := some opcode }
        let inst := { inst with opcode := ins }
        match ins with
        | .calc => .ok (s, inst)
        | .alloc => s.scanArgs inst 2
        | .free => s.scanArgs inst 1
        | .read => s.scanArgs inst 3
        | .write => s.scanArgs inst 3
        | .syscall => s.scanSyscall inst
      else .error .undefined

/-- The loop of `load` from instruction `i` on, with the text so far. -/
def loadFrom (i : Nat) : (left : Nat) → Reader → (Nat → InstT b) → Except Stop (Nat → InstT b)
  | 0, _, text => .ok text
  | left + 1, s, text => do
      let (s, inst) ← s.loadInst (text i)
      loadFrom (i + 1) left s (Function.update text i inst)

end Reader

/-- What `load` sets of a `struct pcb_t`. -/
structure Pcb (b : Build) where
  pid : BitVec 32
  priority : BitVec 32
  path : List Char
  size : BitVec 32
  text : Nat → InstT b
  bp : BitVec 32
  pc : BitVec 32

/-- `load`, with the PCB as `malloc` left it and `avail_pid`, where a pointer has eight bytes: the
copy of the path has room for sixteen characters. -/
def load (files : List Char → Option (List Char)) (unset : Pcb b) (availPid : BitVec 32)
    (path : List Char) : Except Stop (Pcb b × BitVec 32) :=
  match files path with
  | none =>
      .error (.exit ("Cannot find process description at '".toList ++ path ++ "'\n".toList))
  | some file =>
      let (header, file) := numbers 2 file
      if Fits 32 header then do
        let size := (header[1]?).elim unset.size (BitVec.ofInt 32)
        let text ← Reader.loadFrom 0 size.toNat ⟨file, none, none⟩ unset.text
        .ok ({
          pid := availPid
          priority := (header[0]?).elim unset.priority (BitVec.ofInt 32)
          path := path.take 16
          size := size
          text := text
          bp := 1 <<< 10
          pc := 0 }, availPid + 1)
      else .error .undefined

/-! ## Described programs -/

/-- An instruction as a process file has it. -/
structure Stmt where
  opcode : InsOpcode
  args : List Int

/-- The arguments of an opcode. -/
def InsOpcode.arity : InsOpcode → Nat
  | .calc => 0
  | .alloc => 2
  | .free => 1
  | .read => 3
  | .write => 3
  | .syscall => 4

namespace Stmt

/-- The instruction where another was. -/
def inst (stmt : Stmt) (old : InstT b) : InstT b :=
  ({ old with opcode := stmt.opcode } : InstT b).store stmt.args

/-- What the end of the file makes of the last instruction: a system call has its line still in
the buffer, another opcode finds no arguments. -/
def again (stmt : Stmt) : Stmt := if stmt.opcode = .syscall then stmt else { stmt with args := [] }

/-- The spellings of an instruction after its opcode. -/
inductive Spelled : List Char → Stmt → Prop
  | free {s : List Char} {opcode : InsOpcode} {args : List Int} (other : opcode ≠ .syscall)
      (arity : args.length = opcode.arity) (numerals : Numerals (fun _ => True) s args) :
      Spelled s ⟨opcode, args⟩
  | line {s ws : List Char} {args : List Int} (few : args.length ≤ 4)
      (numerals : Numerals (· ≠ '\n') s args) (blank : Blank ws) (within : Inline ws)
      (short : (s ++ ws).length + 1 < 200) : Spelled (s ++ ws ++ ['\n']) ⟨.syscall, args⟩

end Stmt

/-- A text starts with instructions, and `last` is what follows them. -/
inductive Program : List Char → List Stmt → List Char → Prop
  | nil {last : List Char} : Program last [] last
  | cons {ws s rest last : List Char} {stmt : Stmt} {stmts : List Stmt} (blank : Blank ws)
      (spelled : stmt.Spelled s) (ends : stmt.opcode ≠ .syscall → Break rest)
      (others : Program rest stmts last) :
      Program (ws ++ stmt.opcode.opt ++ s ++ rest) (stmt :: stmts) last

/-- What is kept after instruction `stmt`. -/
structure Reader.Holds (s : Reader) (stmt : Stmt) : Prop where
  opcode : s.opcode = some stmt.opcode.opt
  buf : stmt.opcode = .syscall → ∃ buf, s.buf = some buf ∧ (numbers 4 buf).1 = stmt.args

section Instructions

variable {s : Reader} {inst : InstT b} {stmt : Stmt} {ws t rest : List Char}

@[simp] theorem getOpcode_opt (ins : InsOpcode) : getOpcode ins.opt = .ok ins := by
  cases ins <;> rfl

theorem InsOpcode.word_opt (ins : InsOpcode) : Word ins.opt := by
  cases ins <;> decide

theorem InsOpcode.length_opt (ins : InsOpcode) : ins.opt.length < 10 := by
  cases ins <;> decide

@[simp] theorem InstT.store_nil (inst : InstT b) : inst.store [] = inst := rfl

/-- Of the opcodes that are no system call only the number of arguments matters. -/
theorem Reader.loadInst_free {opcode : InsOpcode} (other : opcode ≠ .syscall)
    (got : ((word s.file).1 <|> s.opcode) = some opcode.opt) :
    s.loadInst inst =
      if opcode.arity = 0 then
        .ok (⟨(word s.file).2, some opcode.opt, s.buf⟩, { inst with opcode := opcode })
      else ({ s with file := (word s.file).2, opcode := some opcode.opt } : Reader).scanArgs
        { inst with opcode := opcode } opcode.arity := by
  have short := opcode.length_opt
  rw [Reader.loadInst]
  simp only [got, if_pos short, getOpcode_opt]
  cases opcode <;> first | exact absurd rfl other | rfl

theorem Reader.loadInst_syscall
    (got : ((word s.file).1 <|> s.opcode) = some InsOpcode.syscall.opt) :
    s.loadInst inst = ({ s with file := (word s.file).2, opcode := some InsOpcode.syscall.opt } :
      Reader).scanSyscall { inst with opcode := .syscall } := by
  have short := InsOpcode.syscall.length_opt
  rw [Reader.loadInst]
  simp only [got, if_pos short, getOpcode_opt]
  rfl

theorem Reader.scanArgs_eq {n : Nat} {vs : List Int} (read : numbers n s.file = (vs, rest))
    (fits : Fits b.width vs) : s.scanArgs inst n =
      .ok ({ s with file := if vs.length = n then skip rest else rest }, inst.store vs) := by
  simp only [Reader.scanArgs, read, if_pos fits]

theorem Reader.scanSyscall_eq {buf : List Char} (got : ((gets 200 s.file).1 <|> s.buf) = some buf)
    (fits : Fits b.width (numbers 4 buf).1) : s.scanSyscall inst =
      .ok ({ s with file := (gets 200 s.file).2, buf := some buf }, inst.store (numbers 4 buf).1) := by
  simp only [Reader.scanSyscall, got, if_pos fits]

/-- An instruction that is spelled out is read. -/
theorem Reader.loadInst_stmt (inst : InstT b) (file : skip s.file = skip (ws ++ stmt.opcode.opt ++ t ++ rest))
    (blank : Blank ws) (spelled : stmt.Spelled t) (ends : stmt.opcode ≠ .syscall → Break rest)
    (fits : Fits b.width stmt.args) :
    ∃ s', s.loadInst inst = .ok (s', stmt.inst inst) ∧ skip s'.file = skip rest ∧
      s'.Holds stmt := by
  have taken : Break (t ++ rest) → word s.file = (some stmt.opcode.opt, t ++ rest) := by
    intro solid
    rw [word_congr file, List.append_assoc]
    exact word_item blank stmt.opcode.word_opt solid
  cases spelled with
  | @free t opcode args other arity numerals =>
      have taken := taken (numerals.break (ends other))
      have got : ((word s.file).1 <|> s.opcode) = some opcode.opt := by
        rw [taken]
        rfl
      have read : numbers args.length (t ++ rest) = (args, rest) :=
        numbers_numerals numerals (ends other) 0 (absurd · (lt_irrefl 0))
      rw [Reader.loadInst_free other got, taken]
      by_cases none : opcode.arity = 0
      · have empty : args = [] := List.eq_nil_of_length_eq_zero (arity.trans none)
        subst empty
        cases numerals
        rw [if_pos none]
        exact ⟨_, rfl, rfl, ⟨rfl, fun same => absurd same other⟩⟩
      · rw [if_neg none, ← arity, Reader.scanArgs_eq read fits, if_pos rfl]
        exact ⟨_, rfl, skip_skip rest, ⟨rfl, fun same => absurd same other⟩⟩
  | @line t ws' args few numerals blank' within short =>
      have solid : Break (t ++ ws' ++ ['\n'] ++ rest) := by
        have tail : Break (ws' ++ ['\n'] ++ rest) :=
          (blank'.append (by decide)).cut (by simp)
        simpa only [List.append_assoc] using numerals.break tail
      have taken := taken solid
      have got : ((word s.file).1 <|> s.opcode) = some InsOpcode.syscall.opt := by
        rw [taken]
        rfl
      have within' : Inline (t ++ ws') := List.forall_mem_append.mpr ⟨numerals.within, within⟩
      have line : gets 200 (t ++ ws' ++ ['\n'] ++ rest) = (some (t ++ ws' ++ ['\n']), rest) := by
        simpa using gets_eq within' short
      have read : (numbers 4 (t ++ ws' ++ ['\n'])).1 = args := by
        have tail : Blank (ws' ++ ['\n']) := blank'.append (by decide)
        have count : 4 = args.length + (4 - args.length) := by omega
        rw [count, List.append_assoc, numbers_numerals numerals tail.break _ fun _ => tail]
      rw [Reader.loadInst_syscall got, taken, Reader.scanSyscall_eq (by rw [line]; rfl) (by rwa [read]),
        line, read]
      exact ⟨_, rfl, rfl, ⟨rfl, fun _ => ⟨_, rfl, read⟩⟩⟩

/-- At the end of the file the last instruction is read again. -/
theorem Reader.loadInst_again (inst : InstT b) (ended : Blank s.file) (holds : s.Holds stmt)
    (fits : Fits b.width stmt.args) :
    ∃ s', s.loadInst inst = .ok (s', stmt.again.inst inst) ∧ Blank s'.file ∧ s'.Holds stmt := by
  have nothing : word s.file = (none, []) := word_blank ended
  have got : ((word s.file).1 <|> s.opcode) = some stmt.opcode.opt := by
    rw [nothing, holds.opcode]
    rfl
  have blank : Blank [] := List.forall_mem_nil _
  by_cases same : stmt.opcode = .syscall
  · obtain ⟨buf, kept, read⟩ := holds.buf same
    rw [same] at got
    have left : ((gets 200 []).1 <|> s.buf) = some buf := kept
    rw [Reader.loadInst_syscall got, nothing, Reader.scanSyscall_eq left (by rwa [read]), read,
      Stmt.again, if_pos same]
    refine ⟨⟨[], some stmt.opcode.opt, some buf⟩, ?_, blank, ⟨rfl, fun _ => ⟨buf, rfl, read⟩⟩⟩
    rw [Stmt.inst, same]
    rfl
  · have unread : numbers stmt.opcode.arity [] = ([], []) := by
      cases stmt.opcode.arity <;> simp [numbers, number_blank blank]
    rw [Reader.loadInst_free same got, nothing, Stmt.again, if_neg same]
    by_cases none : stmt.opcode.arity = 0
    · rw [if_pos none]
      exact ⟨_, rfl, blank, ⟨rfl, fun syscall => absurd syscall same⟩⟩
    · rw [if_neg none, Reader.scanArgs_eq unread (List.forall_mem_nil _)]
      refine ⟨_, rfl, ?_, ⟨rfl, fun syscall => absurd syscall same⟩⟩
      simp [skip, blank]

end Instructions

/-! ## The loop -/

section Loop

variable {s : Reader} {stmt : Stmt} {stmts : List Stmt} {text last : List Char} {i : Nat}

/-- The text of a program whose instructions from `i` on are the ones given. -/
def fill (i : Nat) (old : Nat → InstT b) (stmts : List Stmt) (j : Nat) : InstT b :=
  if j < i then old j else (stmts[j - i]?).elim (old j) fun stmt => stmt.inst (old j)

@[simp] theorem fill_nil (old : Nat → InstT b) : fill i old [] = old := by
  funext j
  simp [fill]

theorem fill_cons (old : Nat → InstT b) (stmt : Stmt) (stmts : List Stmt) :
    fill (i + 1) (Function.update old i (stmt.inst (old i))) stmts = fill i old (stmt :: stmts) := by
  funext j
  rcases Nat.lt_trichotomy j i with before | rfl | after
  · simp [fill, before, Nat.lt_succ_of_lt before, before.ne]
  · simp [fill]
  · have later : j - i = j - (i + 1) + 1 := by omega
    simp [fill, after.ne', later, Nat.not_lt.mpr after.le, Nat.not_lt.mpr (Nat.succ_le_of_lt after)]

/-- The instructions of a program are read one after the other. -/
theorem Reader.loadFrom_program (program : Program text stmts last)
    (fits : ∀ stmt ∈ stmts, Fits b.width stmt.args) (file : skip s.file = skip text)
    (old : Nat → InstT b) (i : Nat) :
    ∃ s', skip s'.file = skip last ∧
      (∀ prev, (stmts = [] → s.Holds prev) → s'.Holds (stmts.getLast?.getD prev)) ∧
      ∀ n, loadFrom i (stmts.length + n) s old = loadFrom (i + stmts.length) n s' (fill i old stmts) := by
  induction program generalizing s old i with
  | nil => exact ⟨s, file, by simp, by simp⟩
  | @cons ws t rest last stmt stmts blank spelled ends others ih =>
      obtain ⟨here, later⟩ := List.forall_mem_cons.mp fits
      obtain ⟨s₁, read, left, holds⟩ := loadInst_stmt (old i) file blank spelled ends here
      obtain ⟨s', left', holds', rest⟩ :=
        ih later left (Function.update old i (stmt.inst (old i))) (i + 1)
      refine ⟨s', left', fun prev _ => ?_, fun n => ?_⟩
      · simpa [List.getLast?_cons] using holds' stmt fun _ => holds
      · have count : (stmt :: stmts).length + n = stmts.length + n + 1 := by
          simp [Nat.add_right_comm]
        have place : i + (stmt :: stmts).length = i + 1 + stmts.length := by
          simp [Nat.add_comm, Nat.add_left_comm]
        rw [count, place, ← fill_cons, ← rest n, loadFrom, read]
        rfl

/-- Past the end of the file the last instruction is read again and again. -/
theorem Reader.loadFrom_ended (ended : Blank s.file) (holds : s.Holds stmt)
    (fits : Fits b.width stmt.args) (old : Nat → InstT b) (i n : Nat) :
    loadFrom i n s old = .ok (fill i old (List.replicate n stmt.again)) := by
  induction n generalizing s old i with
  | zero => simp [loadFrom]
  | succ n ih =>
      obtain ⟨s', read, ended', holds'⟩ := loadInst_again (old i) ended holds fits
      rw [List.replicate_succ, ← fill_cons, loadFrom, read]
      exact ih ended' holds' _ _

theorem fill_append (old : Nat → InstT b) (stmts more : List Stmt) :
    fill (i + stmts.length) (fill i old stmts) more = fill i old (stmts ++ more) := by
  induction stmts generalizing old i with
  | nil => simp
  | cons stmt stmts ih =>
      have place : i + (stmt :: stmts).length = i + 1 + stmts.length := by
        simp [Nat.add_comm, Nat.add_left_comm]
      rw [List.cons_append, ← fill_cons, ← fill_cons, place]
      exact ih _

end Loop

/-! ## Process files -/

/-- A process file with a header and instructions, followed by `last`. -/
inductive ProcessFile : List Char → (priority : Int) → (size : Nat) → List Stmt → List Char → Prop
  | mk {ws s t text last : List Char} {priority : Int} {size : Nat} {stmts : List Stmt}
      (blank : Blank ws) (first : Numeral s priority) (second : Numerals (fun _ => True) t [(size : Int)])
      (ends : Break text) (program : Program text stmts last) :
      ProcessFile (ws ++ s ++ t ++ text) priority size stmts last

/-- The instructions that `load` makes of a file that is too short. -/
def padded (size : Nat) (stmts : List Stmt) : List Stmt :=
  stmts ++ (stmts.getLast?).elim [] fun stmt => List.replicate (size - stmts.length) stmt.again

section Files

variable {files : List Char → Option (List Char)} {path file last : List Char} {priority : Int}
  {size : Nat} {stmts : List Stmt} {unset : Pcb b} {availPid : BitVec 32}

theorem toNat_ofInt_natCast (fits : Fits 32 [(size : Int)]) :
    (BitVec.ofInt 32 (size : Int)).toNat = size := by
  have small : size < 2 ^ 32 := by simpa [Fits] using fits
  rw [BitVec.ofInt_natCast, BitVec.toNat_ofNat, Nat.mod_eq_of_lt small]

/-- The header is read, and the loop starts behind it. -/
theorem load_eq (unset : Pcb b) (availPid : BitVec 32)
    (described : ProcessFile file priority size stmts last) (found : files path = some file)
    (fits : Fits 32 [priority, (size : Int)]) :
    ∃ text, Program text stmts last ∧ load files unset availPid path =
      (Reader.loadFrom 0 size ⟨text, none, none⟩ unset.text).map fun text =>
        ({ pid := availPid
           priority := BitVec.ofInt 32 priority
           path := path.take 16
           size := BitVec.ofNat 32 size
           text := text
           bp := 1024
           pc := 0 }, availPid + 1) := by
  cases described with
  | @mk ws s t text _ _ _ _ blank first second ends program =>
      refine ⟨text, program, ?_⟩
      have header : numbers 2 (ws ++ s ++ t ++ text) = ([priority, (size : Int)], text) :=
        numbers_first blank first second ends
      have read := toNat_ofInt_natCast (List.forall_mem_cons.mp fits).2
      simp only [load, found, header, if_pos fits, List.getElem?_cons_succ, List.getElem?_cons_zero,
        Option.elim_some, read]
      rw [BitVec.ofInt_natCast]
      cases Reader.loadFrom 0 size ⟨text, none, none⟩ unset.text <;> rfl

/-- The loop reads the instructions, and where there are too few it repeats the last. -/
theorem loadFrom_padded {text : List Char} (program : Program text stmts last)
    (args : ∀ stmt ∈ stmts, Fits b.width stmt.args) (enough : stmts.length ≤ size)
    (short : stmts.length < size → stmts ≠ [] ∧ Blank last) (old : Nat → InstT b) :
    Reader.loadFrom 0 size ⟨text, none, none⟩ old = .ok (fill 0 old (padded size stmts)) := by
  obtain ⟨s, left, holds, run⟩ := Reader.loadFrom_program (s := ⟨text, none, none⟩) program args rfl
    old 0
  have count : size = stmts.length + (size - stmts.length) := by omega
  rw [count, run, ← count]
  cases final : stmts.getLast? with
  | none =>
      obtain rfl := List.getLast?_eq_none_iff.mp final
      have none_left : size = 0 := by
        by_contra some
        exact (short (Nat.pos_of_ne_zero some)).1 rfl
      subst none_left
      rfl
  | some stmt =>
      have kept : s.Holds stmt := by
        simpa [final] using holds stmt (by rintro rfl; cases final)
      have member : stmt ∈ stmts := List.mem_of_getLast? final
      simp only [padded, final, Option.elim_some, ← fill_append]
      rcases enough.eq_or_lt with whole | fewer
      · simp [← whole, Reader.loadFrom]
      · refine Reader.loadFrom_ended (blank_of_skip ?_) kept (args stmt member) _ _ _
        rw [left, skip_all (short fewer).2]

/-- A process file is loaded as it describes the process. Where it has fewer instructions than it
says, the last one fills the rest. -/
theorem load_processFile (described : ProcessFile file priority size stmts last)
    (found : files path = some file) (fits : Fits 32 [priority, (size : Int)])
    (args : ∀ stmt ∈ stmts, Fits b.width stmt.args) (enough : stmts.length ≤ size)
    (short : stmts.length < size → stmts ≠ [] ∧ Blank last) :
    load files unset availPid path = .ok
      ({ pid := availPid
         priority := BitVec.ofInt 32 priority
         path := path.take 16
         size := BitVec.ofNat 32 size
         text := fill 0 unset.text (padded size stmts)
         bp := 1024
         pc := 0 }, availPid + 1) := by
  obtain ⟨text, program, loaded⟩ := load_eq unset availPid described found fits
  rw [loaded, loadFrom_padded program args enough short]
  rfl

/-- A word that is no opcode, where an instruction is expected, ends the simulator with a message that
quotes it. It has at most nine characters, the most that the buffer of `load` takes. -/
theorem load_unknown {ws w rest : List Char}
    (described : ProcessFile file priority size stmts (ws ++ w ++ rest))
    (found : files path = some file) (fits : Fits 32 [priority, (size : Int)])
    (args : ∀ stmt ∈ stmts, Fits b.width stmt.args) (more : stmts.length < size)
    (blank : Blank ws) (item : Word w) (ends : Break rest) (room : w.length < 10)
    (unknown : ∀ ins : InsOpcode, w ≠ ins.opt) :
    load files unset availPid path =
      .error (.exit ("get_opcode return Opcode: ".toList ++ w ++ ['\n'])) := by
  obtain ⟨text, program, loaded⟩ := load_eq unset availPid described found fits
  obtain ⟨s, left, -, run⟩ := Reader.loadFrom_program (s := ⟨text, none, none⟩) program args rfl
    unset.text 0
  obtain ⟨n, rfl⟩ := Nat.exists_eq_add_of_lt more
  have taken : word s.file = (some w, rest) := by
    rw [word_congr left]
    exact word_item blank item ends
  have refused : getOpcode w =
      .error (.exit ("get_opcode return Opcode: ".toList ++ w ++ ['\n'])) := by
    simp [getOpcode, unknown]
  have stopped : ∀ inst : InstT b, s.loadInst inst =
      .error (.exit ("get_opcode return Opcode: ".toList ++ w ++ ['\n'])) := by
    intro inst
    have got : (some w <|> s.opcode) = some w := rfl
    simp only [Reader.loadInst, taken, got, if_pos room, refused]
    rfl
  rw [loaded, Nat.add_assoc, run, Reader.loadFrom, stopped]
  rfl

end Files

/-! ## Files for all programs -/

/-- An instruction with as many arguments as its opcode takes, of at most 64 bits. -/
structure Stmt.Valid (stmt : Stmt) : Prop where
  arity : if stmt.opcode = .syscall then stmt.args.length ≤ 4
    else stmt.args.length = stmt.opcode.arity
  fits : Fits 64 stmt.args

/-- An instruction on a line of its own. -/
def Stmt.render (stmt : Stmt) : List Char := stmt.opcode.opt ++ spellAll stmt.args ++ ['\n']

/-- A process file, a line for each instruction. -/
def renderFile (priority : Int) (size : Nat) (stmts : List Stmt) : List Char :=
  spell priority ++ spellAll [(size : Int)] ++ '\n' :: stmts.flatMap Stmt.render

theorem length_spellAll_le {vs : List Int} (fits : Fits 64 vs) :
    (spellAll vs).length ≤ 22 * vs.length := by
  induction vs with
  | nil => simp [spellAll]
  | cons v vs ih =>
      obtain ⟨here, later⟩ := List.forall_mem_cons.mp fits
      have digits : (Nat.toDigits 10 v.natAbs).length ≤ 20 :=
        (Nat.length_toDigits_le_iff (by decide) (by decide)).mpr (here.trans (by decide))
      have first := length_spell_le v
      have others := ih later
      simp only [spellAll, List.flatMap_cons, List.length_append, List.length_cons] at others ⊢
      omega

theorem program_render {stmts : List Stmt} (valid : ∀ stmt ∈ stmts, stmt.Valid) :
    ∀ ws, Blank ws → ∃ last, Blank last ∧ Program (ws ++ stmts.flatMap Stmt.render) stmts last := by
  have newline : Blank ['\n'] := by decide
  induction stmts with
  | nil => exact fun ws blank => ⟨ws ++ [], by simpa using blank, .nil⟩
  | cons stmt stmts ih =>
      intro ws blank
      obtain ⟨here, later⟩ := List.forall_mem_cons.mp valid
      obtain ⟨arity, fits⟩ := here
      by_cases same : stmt.opcode = .syscall
      · obtain ⟨last, ended, others⟩ := ih later [] (List.forall_mem_nil _)
        rw [if_pos same] at arity
        have size := length_spellAll_le fits
        have spelled : stmt.Spelled (spellAll stmt.args ++ [] ++ ['\n']) := by
          obtain ⟨opcode, args⟩ := stmt
          obtain rfl : opcode = .syscall := same
          have few : args.length ≤ 4 := arity
          refine .line few (numerals_spellAll (by decide) args) (List.forall_mem_nil _)
            (List.forall_mem_nil _) ?_
          simp only [List.append_nil] at size ⊢
          omega
        refine ⟨last, ended, ?_⟩
        have program := Program.cons blank spelled (fun other => absurd same other) others
        simpa [Stmt.render] using program
      · obtain ⟨last, ended, others⟩ := ih later ['\n'] newline
        rw [if_neg same] at arity
        have spelled : stmt.Spelled (spellAll stmt.args) := by
          obtain ⟨opcode, args⟩ := stmt
          exact .free same arity (numerals_spellAll trivial args)
        refine ⟨last, ended, ?_⟩
        have program := Program.cons blank spelled (fun _ => newline.cut (by simp)) others
        simpa [Stmt.render] using program

/-- Every program has a file. -/
theorem processFile_render (priority : Int) (size : Nat) {stmts : List Stmt}
    (valid : ∀ stmt ∈ stmts, stmt.Valid) :
    ∃ last, Blank last ∧ ProcessFile (renderFile priority size stmts) priority size stmts last := by
  have newline : Blank ['\n'] := by decide
  obtain ⟨last, ended, program⟩ := program_render valid ['\n'] newline
  refine ⟨last, ended, ?_⟩
  have numerals : Numerals (fun _ => True) (spellAll [(size : Int)]) [(size : Int)] :=
    numerals_spellAll trivial _
  exact .mk (List.forall_mem_nil _) (numeral_spell priority) numerals (newline.cut (by simp)) program


/-! ## A short file -/

/-- What `malloc` leaves: sevens. -/
def sevens (b : Build) : Pcb b where
  pid := 7
  priority := 7
  path := []
  size := 7
  text := fun _ => ⟨.calc, 7, 7, 7, 7⟩
  bp := 7
  pc := 7

/-- Two instructions where the header says four. -/
def shortFile (path : List Char) : Option (List Char) :=
  if path = "input/proc/m0s".toList then
    some (renderFile 1 4 [⟨.alloc, [300, 0]⟩, ⟨.syscall, [101, -1]⟩])
  else none

theorem shortFile_valid : ∀ stmt ∈ [(⟨.alloc, [300, 0]⟩ : Stmt), ⟨.syscall, [101, -1]⟩], stmt.Valid := by
  simp only [List.forall_mem_cons]
  refine ⟨⟨rfl, by decide⟩, ⟨by decide, by decide⟩, List.forall_mem_nil _⟩

theorem load_processFile_short : load shortFile (sevens .mm32) 1 "input/proc/m0s".toList = .ok
    ({ pid := 1
       priority := 1
       path := "input/proc/m0s".toList
       size := 4
       text := fill 0 (sevens .mm32).text
         [⟨.alloc, [300, 0]⟩, ⟨.syscall, [101, -1]⟩, ⟨.syscall, [101, -1]⟩, ⟨.syscall, [101, -1]⟩]
       bp := 1024
       pc := 0 }, 2) := by
  obtain ⟨last, ended, described⟩ := processFile_render 1 4 shortFile_valid
  exact load_processFile described (if_pos rfl) (by decide) (by decide) (by decide)
    fun _ => ⟨by simp, ended⟩

/-- The word `all` in the third line. -/
def misspelled (path : List Char) : Option (List Char) :=
  if path = "input/proc/m0s".toList then
    some ("1 2\n".toList ++ "calc".toList ++ "\nall 300 0\n".toList)
  else none

theorem load_unknown_misspelled : load misspelled (sevens .mm32) 1 "input/proc/m0s".toList =
    .error (.exit "get_opcode return Opcode: all\n".toList) := by
  have blank : Blank ['\n'] := by decide
  have numerals : Numerals (fun _ => True) [' ', '2'] [((2 : Nat) : Int)] :=
    numerals_spellAll trivial [2]
  have spelled : Stmt.Spelled [] ⟨.calc, []⟩ := .free (by decide) rfl .nil
  have program : Program "\ncalc\nall 300 0\n".toList [⟨.calc, []⟩] "\nall 300 0\n".toList :=
    .cons blank spelled (fun _ => blank.cut (by simp)) .nil
  have described : ProcessFile "1 2\ncalc\nall 300 0\n".toList 1 2 [⟨.calc, []⟩]
      (['\n'] ++ "all".toList ++ " 300 0\n".toList) :=
    .mk (List.forall_mem_nil _) (numeral_spell 1) numerals (blank.cut (by simp)) program
  have space : Blank [' '] := by decide
  refine load_unknown described (if_pos rfl) (by decide) (by decide) (by decide) blank (by decide)
    (space.cut (by simp)) (by decide) ?_
  rintro ⟨⟩ <;> decide

end SimpleOs
