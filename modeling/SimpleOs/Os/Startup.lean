import SimpleOs.Os.Bounds
import SimpleOs.Os.ReadConfig

/-!
# Starting from files

`main` reads the configuration and `ld_routine` loads a process for each of its lines, in
order. What the threads run on is therefore decided by the files: the processes of the list,
each with the priority on its line, the number of instructions its own file starts with, and
these instructions.
-/

namespace SimpleOs

open Scan
open Mem (Build)

variable {b : Build}

/-- The calls of `load` in `ld_routine`, from process `i` on. -/
def loadAll (files : List Char → Option (List Char)) (unset : Nat → Pcb b) :
    (i : Nat) → (availPid : BitVec 32) → List LdProcess → Except Stop (List (Pcb b))
  | _, _, [] => .ok []
  | i, availPid, p :: ps => do
      let (proc, availPid) ← load files (unset i) availPid p.path
      let procs ← loadAll files unset (i + 1) availPid ps
      .ok (proc :: procs)

/-- A process of the list: its start time, the priority on its line, and the size of its code. -/
structure Row where
  startTime : BitVec 64
  prio : BitVec 64
  size : Nat

/-- The numbers that the threads run on. -/
def ConfigFile.ofRows (timeSlot numCpus : Int) (rows : List Row) : ConfigFile where
  timeSlot := timeSlot
  numCpus := numCpus.toNat
  numProcesses := rows.length
  startTime := fun p => rows[p].startTime
  prio := fun p => rows[p].prio
  size := fun p => rows[p].size

/-- What the simulator has once all is read. -/
structure Started (b : Build) where
  file : ConfigFile
  sizes : MemSizes
  procs : List (Pcb b)

/-- `read_config` in `main`, and every `load` of `ld_routine`. -/
def startup (files : List Char → Option (List Char)) (unsetList : Nat → LdProcess)
    (unset : Nat → Pcb b) (path : List Char) : Except Stop (Started b) := do
  let c ← readConfig b files unsetList path
  let procs ← loadAll files unset 0 1 c.processes
  let rows := c.processes.zipWith (fun p proc => ⟨p.startTime, p.prio, proc.size.toNat⟩) procs
  .ok ⟨.ofRows c.timeSlot c.numCpus rows, c.toMemSizes, procs⟩

/-! ## Described simulations -/

/-- A line of the configuration and the process file that it names. -/
structure Task where
  entry : Entry
  priority : Int
  size : Nat
  stmts : List Stmt

namespace Task

/-- What the threads run on. -/
def row (task : Task) : Row :=
  ⟨BitVec.ofInt 64 task.entry.start, BitVec.ofInt 64 task.entry.prio, task.size⟩

/-- The PCB of the process, over what `malloc` left there. -/
def pcb (task : Task) (unset : Pcb b) (pid : BitVec 32) : Pcb b where
  pid := pid
  priority := BitVec.ofInt 32 task.priority
  path := task.entry.process.path.take 16
  size := BitVec.ofNat 32 task.size
  text := fill 0 unset.text (padded task.size task.stmts)
  bp := 1024
  pc := 0

/-- The process file of the task says what the task says, in numbers that fit. -/
structure Filed (b : Build) (files : List Char → Option (List Char)) (task : Task) : Prop where
  described : ∃ file last, files task.entry.process.path = some file ∧
    ProcessFile file task.priority task.size task.stmts last ∧
    (task.stmts.length < task.size → task.stmts ≠ [] ∧ Blank last)
  header : Fits 32 [task.priority, (task.size : Int)]
  args : ∀ stmt ∈ task.stmts, Fits b.width stmt.args
  enough : task.stmts.length ≤ task.size

end Task

section Startup

variable {files : List Char → Option (List Char)} {unset : Nat → Pcb b} {task : Task}
  {tasks : List Task} {pid : BitVec 32} {i : Nat}

theorem Task.Filed.load (filed : task.Filed b files) (junk : Pcb b) (pid : BitVec 32) :
    load files junk pid task.entry.process.path = .ok (task.pcb junk pid, pid + 1) := by
  obtain ⟨file, last, found, described, short⟩ := filed.described
  obtain ⟨text, program, loaded⟩ := load_eq junk pid described found filed.header
  rw [loaded, loadFrom_padded program filed.args filed.enough short]
  rfl

/-- The processes are loaded one after the other, with consecutive numbers. -/
theorem loadAll_filed (unset : Nat → Pcb b) (filed : ∀ task ∈ tasks, task.Filed b files) (i : Nat)
    (pid : BitVec 32) :
    loadAll files unset i pid (tasks.map fun task => task.entry.process) =
      .ok (tasks.mapIdx fun j task => task.pcb (unset (i + j)) (pid + BitVec.ofNat 32 j)) := by
  induction tasks generalizing i pid with
  | nil => rfl
  | cons task tasks ih =>
      obtain ⟨here, later⟩ := List.forall_mem_cons.mp filed
      have others := ih later (i + 1) (pid + 1)
      have number : ∀ j, pid + 1 + BitVec.ofNat 32 j = pid + BitVec.ofNat 32 (j + 1) := by
        intro j
        rw [BitVec.add_assoc, BitVec.add_comm 1, BitVec.ofNat_add]
        rfl
      have place : ∀ j, i + 1 + j = i + (j + 1) := fun j => by omega
      simp only [number, place] at others
      rw [List.map_cons, loadAll, here.load]
      change (loadAll files unset (i + 1) (pid + 1) _).bind _ = _
      rw [others, List.mapIdx_cons]
      simp [Except.bind]

theorem size_pcb (filed : task.Filed b files) (junk : Pcb b) (pid : BitVec 32) :
    (task.pcb junk pid).size.toNat = task.size := by
  have small : task.size < 2 ^ 32 := by simpa [Fits] using filed.header task.size (by simp)
  exact Nat.mod_eq_of_lt small

/-- The rows that come out are those of the tasks. -/
theorem rows_filed (filed : ∀ task ∈ tasks, task.Filed b files) (pcbOf : Nat → Pcb b)
    (pidOf : Nat → BitVec 32) :
    (tasks.map fun task => task.entry.process).zipWith
        (fun p proc => (⟨p.startTime, p.prio, proc.size.toNat⟩ : Row))
        (tasks.mapIdx fun j task => task.pcb (pcbOf j) (pidOf j)) =
      tasks.map Task.row := by
  induction tasks generalizing pcbOf pidOf with
  | nil => rfl
  | cons task tasks ih =>
      obtain ⟨here, later⟩ := List.forall_mem_cons.mp filed
      have others := ih later (fun j => pcbOf (j + 1)) fun j => pidOf (j + 1)
      simp only [List.map_cons, List.mapIdx_cons, List.zipWith_cons_cons, others, size_pcb here]
      rfl

/-- The simulator runs the processes that its files describe, in the order of the list. -/
theorem startup_filed {path first line ws procs last : List Char} {timeSlot numCpus : Int}
    {sizes : List Int} {unsetList : Nat → LdProcess}
    (header : FirstLine first timeSlot numCpus tasks.length) (blank : Blank ws) (apart : ws ≠ [])
    (spelled : SizesLine line sizes) (entries : Entries procs (tasks.map Task.entry) last)
    (found : files path = some (first ++ (ws ++ (line ++ '\n' :: procs))))
    (ints : Ints ([timeSlot, numCpus, (tasks.length : Int)] ++ sizes))
    (valid : ∀ task ∈ tasks, task.entry.Valid) (filed : ∀ task ∈ tasks, task.Filed b files) :
    startup files unsetList unset path = .ok
      ⟨.ofRows timeSlot numCpus (tasks.map Task.row), .ofLine b sizes,
        tasks.mapIdx fun i task => task.pcb (unset i) (1 + BitVec.ofNat 32 i)⟩ := by
  have count : (tasks.map Task.entry).length = tasks.length := List.length_map ..
  rw [← count] at header ints
  have read := readConfig_sized b unsetList header blank apart spelled entries found ints
    (by simpa using valid)
  have loaded := loadAll_filed unset filed 0 1
  have rows := rows_filed filed unset fun j => 1 + BitVec.ofNat 32 j
  rw [List.map_map] at read
  simp only [Nat.zero_add] at loaded
  simp only [startup, read]
  change (loadAll files unset 0 1 (tasks.map fun task => task.entry.process)).bind _ = _
  rw [loaded]
  rw [← rows]
  rfl

end Startup

/-! ## Two files -/

/-- One process with one system call. -/
def sc3 : Task := ⟨⟨9, "sc3".toList, 15⟩, 20, 1, [⟨.syscall, [440, 1]⟩]⟩

/-- The files `input/os_sc` and `input/proc/sc3`. -/
def scFiles (path : List Char) : Option (List Char) :=
  if path = "input/os_sc".toList then some "2 1 1\n2048 16777216 0 0 0\n9 sc3 15\n".toList
  else if path = "input/proc/sc3".toList then some (renderFile 20 1 sc3.stmts)
  else none

theorem sc3_filed : sc3.Filed .mm64 scFiles := by
  have valid : ∀ stmt ∈ sc3.stmts, stmt.Valid := by
    simpa [sc3] using ⟨by decide, by decide⟩
  obtain ⟨last, ended, described⟩ := processFile_render 20 1 valid
  exact ⟨⟨_, last, rfl, described, fun _ => ⟨by simp [sc3], ended⟩⟩, by decide, by decide, by decide⟩

/-- The RAM is raised to a page. -/
theorem startup_filed_sc3 :
    startup scFiles (fun _ => ⟨7, [], 7⟩) (fun _ => sevens .mm64) "input/os_sc".toList = .ok
      ⟨.ofRows 2 1 [⟨9, 15, 1⟩], ⟨4096, [16777216, 0, 0, 0]⟩, [sc3.pcb (sevens .mm64) 1]⟩ := by
  have newline : Blank ['\n'] := by decide
  have nothing : Blank [] := by decide
  have first : FirstLine "2 1 1".toList 2 1 1 :=
    .mk nothing (numeral_spell 2) (numerals_spellAll trivial [1, 1])
  have sizes : SizesLine "2048 16777216 0 0 0".toList [2048, 16777216, 0, 0, 0] :=
    .mk (numeral_spell 2048) (numerals_spellAll (by decide) [16777216, 0, 0, 0]) rfl nothing
      (List.forall_mem_nil _) (by decide)
  have entries : Entries "9 sc3 15\n".toList ([sc3].map Task.entry) ['\n'] :=
    .cons nothing (Entry.spelled_render sc3.entry (by decide)) newline.break .nil
  exact startup_filed first newline (by simp) sizes entries rfl (by decide)
    (by simpa [sc3] using ⟨by decide, by decide⟩) (by simpa using sc3_filed)

end SimpleOs
