import SimpleOs.Os.Loader

/-!
# The configuration file

`read_config` reads the first line, looks whether the second one has five numbers, and if so
takes them for the sizes of the devices; else it goes back and takes the line for the first
process. So a file without sizes is read right exactly if its first process does not look like
five numbers, which a name may do: `0 1-2-3 5` is a start, three numbers and a priority.
-/

namespace SimpleOs

open Scan
open Mem (Build)

/-- `ld_processes`, a process. -/
structure LdProcess where
  startTime : BitVec 64
  path : List Char
  prio : BitVec 64

/-- `memramsz` and `memswpsz` -/
structure MemSizes where
  memramsz : Int
  memswpsz : List Int

/-- What `read_config` sets. -/
structure SimConfig extends MemSizes where
  timeSlot : Int
  numCpus : Int
  numProcesses : Int
  processes : List LdProcess

/-- A variable of type `int` can hold the numbers. -/
def Ints (vs : List Int) : Prop := ∀ v ∈ vs, -2 ^ 31 ≤ v ∧ v < 2 ^ 31

instance decidableInts (vs : List Int) : Decidable (Ints vs) := List.decidableBAll ..

/-- The sizes without a line for them. -/
def MemSizes.default : MemSizes := ⟨0x100000, [0x1000000, 0, 0, 0]⟩

/-- The sizes on a line of five numbers. The MM64 build wants a page of RAM at least. -/
def MemSizes.ofLine (b : Build) (vs : List Int) : MemSizes :=
  let ram := vs.headD 0
  ⟨if !b.refuses && decide (ram < b.pageSz) then b.pageSz else ram, vs.tail⟩

/-- The line with the sizes, or none, and the file behind it. -/
def scanSizes (b : Build) (file : List Char) : Except Stop (MemSizes × List Char) :=
  match gets 256 file with
  | (none, _) => .ok (.default, file)
  | (some line, rest) =>
      let vs := (numbers 5 line).1
      if Ints vs then
        if vs.length = 5 then .ok (.ofLine b vs, rest) else .ok (.default, file)
      else .error .undefined

/-- A round of the loop over the processes. The names of a round that reads none are not set, and a
path has 100 characters. -/
def scanProcess (unset : LdProcess) (file : List Char) : Except Stop (LdProcess × List Char) :=
  match number file with
  | (none, _) => .error .undefined
  | (some start, file) =>
      match word file with
      | (none, _) => .error .undefined
      | (some proc, file) =>
          let path := "input/proc/".toList ++ proc
          let (prio, file) := number file
          if Fits 64 (start :: prio.toList) ∧ path.length < 100 then
            .ok (⟨BitVec.ofInt 64 start, path, prio.elim unset.prio (BitVec.ofInt 64)⟩,
              if prio.isSome then skip file else file)
          else .error .undefined

/-- The loop over the processes, with the arrays as `malloc` left them. -/
def scanProcesses (unset : Nat → LdProcess) : (i left : Nat) → List Char → Except Stop (List LdProcess)
  | _, 0, _ => .ok []
  | i, left + 1, file => do
      let (process, file) ← scanProcess (unset i) file
      let processes ← scanProcesses unset (i + 1) left file
      .ok (process :: processes)

/-- `read_config` -/
def readConfig (b : Build) (files : List Char → Option (List Char)) (unset : Nat → LdProcess)
    (path : List Char) : Except Stop SimConfig :=
  match files path with
  | none => .error (.exit ("Cannot find configure file at ".toList ++ path ++ ['\n']))
  | some file =>
      let (header, file) := numbers 3 file
      if Ints header then do
        let file := if header.length = 3 then skip file else file
        let numProcesses := (header[2]?).getD 0
        let (sizes, file) ← scanSizes b file
        let processes ← scanProcesses unset 0 numProcesses.toNat file
        .ok ⟨sizes, (header[0]?).getD 0, (header[1]?).getD 0, numProcesses, processes⟩
      else .error .undefined

/-! ## Described configurations -/

/-- A line for a process. -/
structure Entry where
  start : Int
  name : List Char
  prio : Int

/-- What the loader gets of a line. -/
def Entry.process (e : Entry) : LdProcess :=
  ⟨BitVec.ofInt 64 e.start, "input/proc/".toList ++ e.name, BitVec.ofInt 64 e.prio⟩

/-- The numbers fit their variables and the name the path. -/
structure Entry.Valid (e : Entry) : Prop where
  fits : Fits 64 [e.start, e.prio]
  room : e.name.length < 89

/-- The spellings of a line, up to the blanks that end it. -/
inductive Entry.Spelled : List Char → Entry → Prop
  | mk {s ws name t : List Char} {start prio : Int} (first : Numeral s start) (blank : Blank ws)
      (some : ws ≠ []) (item : Word name) (second : Numerals (fun _ => True) t [prio]) :
      Entry.Spelled (s ++ ws ++ name ++ t) ⟨start, name, prio⟩

/-- A text starts with lines for processes, and `last` is what follows them. -/
inductive Entries : List Char → List Entry → List Char → Prop
  | nil {last : List Char} : Entries last [] last
  | cons {ws s rest last : List Char} {e : Entry} {es : List Entry} (blank : Blank ws)
      (spelled : e.Spelled s) (ends : Break rest) (others : Entries rest es last) :
      Entries (ws ++ s ++ rest) (e :: es) last

/-- The spellings of the first line, for so many processes. -/
inductive FirstLine : List Char → (timeSlot numCpus : Int) → (numProcesses : Nat) → Prop
  | mk {ws s t : List Char} {timeSlot numCpus : Int} {numProcesses : Nat} (blank : Blank ws)
      (first : Numeral s timeSlot) (others : Numerals (fun _ => True) t [numCpus, (numProcesses : Int)]) :
      FirstLine (ws ++ s ++ t) timeSlot numCpus numProcesses

/-- The spellings of the sizes on a line, up to its end. -/
inductive SizesLine : List Char → List Int → Prop
  | mk {s t ws : List Char} {ram : Int} {swps : List Int} (first : Numeral s ram)
      (others : Numerals (· ≠ '\n') t swps) (four : swps.length = 4) (blank : Blank ws)
      (within : Inline ws) (short : (s ++ t ++ ws).length + 1 < 256) :
      SizesLine (s ++ t ++ ws) (ram :: swps)

/-- Blanks in front change nothing. -/
theorem Entries.after_blank {w text last : List Char} {es : List Entry} (blank : Blank w)
    (entries : Entries text es last) : ∃ last', Entries (w ++ text) es last' := by
  cases entries with
  | nil => exact ⟨_, .nil⟩
  | cons spaces spelled ends others =>
      refine ⟨last, ?_⟩
      simpa only [List.append_assoc] using Entries.cons (blank.append spaces) spelled ends others

section Processes

variable {unset : Nat → LdProcess} {file ws s rest last : List Char} {e : Entry} {es : List Entry}

theorem number_congr {text text' : List Char} (same : skip text = skip text') :
    number text = number text' := by
  simp only [number, same]

theorem number_numerals {t : List Char} {v : Int} (numerals : Numerals (fun _ => True) t [v])
    (ends : Break rest) : number (t ++ rest) = (some v, rest) := by
  cases numerals with
  | cons blank some fits numeral others =>
      cases others
      rw [List.append_nil]
      exact number_numeral blank numeral ends.not_isDigit

/-- A line that is spelled out is read. -/
theorem scanProcess_entry (junk : LdProcess) (same : skip file = skip (ws ++ s ++ rest))
    (blank : Blank ws) (spelled : e.Spelled s) (ends : Break rest) (valid : e.Valid) :
    scanProcess junk file = .ok (e.process, skip rest) := by
  cases spelled with
  | @mk s between name t start prio first spaces apart item second =>
      have after : Break (between ++ (name ++ (t ++ rest))) := spaces.cut apart
      have start_read : number file = (some start, between ++ (name ++ (t ++ rest))) := by
        rw [number_congr same]
        simpa only [List.append_assoc] using number_numeral blank first after.not_isDigit
      have name_read : word (between ++ (name ++ (t ++ rest))) = (some name, t ++ rest) := by
        simpa only [List.append_assoc] using word_item spaces item (second.break ends)
      have prio_read := number_numerals second ends
      have room : ("input/proc/".toList ++ name).length < 100 := by
        have := valid.room
        simp only [List.length_append, String.length_toList]
        exact Nat.add_lt_add_left this 11
      have fits : Fits 64 (start :: (Option.some prio).toList) := valid.fits
      simp only [scanProcess, start_read, name_read, prio_read, if_pos (And.intro fits room)]
      rfl

/-- The lines are read one after the other. -/
theorem scanProcesses_entries (unset : Nat → LdProcess) (entries : Entries file es last)
    (valid : ∀ e ∈ es, e.Valid)
    {text : List Char} (same : skip text = skip file) (i : Nat) :
    ∃ left, skip left = skip last ∧ ∀ n, scanProcesses unset i (es.length + n) text =
      (scanProcesses unset (i + es.length) n left).map (es.map Entry.process ++ ·) := by
  induction entries generalizing text i with
  | nil =>
      refine ⟨text, same, fun n => ?_⟩
      simp only [List.length_nil, Nat.zero_add, Nat.add_zero, List.map_nil, List.nil_append]
      cases scanProcesses unset i n text <;> rfl
  | @cons ws s rest last e es blank spelled ends others ih =>
      obtain ⟨here, later⟩ := List.forall_mem_cons.mp valid
      have read := scanProcess_entry (unset i) same blank spelled ends here
      obtain ⟨left, ended, tail⟩ := ih later (skip_skip rest) (i + 1)
      refine ⟨left, ended, fun n => ?_⟩
      have count : (e :: es).length + n = es.length + n + 1 := by
        simp [Nat.add_right_comm]
      have place : i + (e :: es).length = i + 1 + es.length := by
        simp [Nat.add_comm, Nat.add_left_comm]
      rw [count, place, scanProcesses, read]
      change (scanProcesses unset (i + 1) (es.length + n) (skip rest)).bind _ = _
      rw [tail]
      cases scanProcesses unset (i + 1 + es.length) n left <;> rfl

/-- As many processes as there are lines. -/
theorem scanProcesses_all (unset : Nat → LdProcess) (entries : Entries file es last)
    (valid : ∀ e ∈ es, e.Valid)
    {text : List Char} (same : skip text = skip file) :
    scanProcesses unset 0 es.length text = .ok (es.map Entry.process) := by
  obtain ⟨left, -, read⟩ := scanProcesses_entries unset entries valid same 0
  rw [← Nat.add_zero es.length, read]
  simp [scanProcesses, Except.map]

/-- One process more than there are lines. -/
theorem scanProcesses_more (unset : Nat → LdProcess) (entries : Entries file es last)
    (valid : ∀ e ∈ es, e.Valid)
    {text : List Char} (same : skip text = skip file) (blank : Blank last) :
    scanProcesses unset 0 (es.length + 1) text = .error .undefined := by
  obtain ⟨left, ended, read⟩ := scanProcesses_entries unset entries valid same 0
  have nothing : number left = (none, []) := by
    rw [number_congr ended, number_blank blank]
  rw [read, scanProcesses, scanProcess, nothing]
  rfl

end Processes

section Files

variable {b : Build} {files : List Char → Option (List Char)} {unset : Nat → LdProcess}
  {path first line rest last : List Char} {timeSlot numCpus : Int} {sizes : List Int} {e : Entry}
  {es : List Entry}

/-- The first line is read. -/
theorem readConfig_eq {n : Nat} (header : FirstLine first timeSlot numCpus n) (ends : Break rest)
    (ints : Ints [timeSlot, numCpus, (n : Int)]) (found : files path = some (first ++ rest)) :
    readConfig b files unset path = (scanSizes b (skip rest)).bind fun (sizes, file) =>
      (scanProcesses unset 0 n file).map fun processes => ⟨sizes, timeSlot, numCpus, n, processes⟩ := by
  cases header with
  | @mk ws s t _ _ _ blank numeral others =>
      have read : numbers 3 (ws ++ s ++ t ++ rest) = ([timeSlot, numCpus, (n : Int)], rest) :=
        numbers_first blank numeral others ends
      have three : [timeSlot, numCpus, (n : Int)].length = 3 := rfl
      simp only [readConfig, found, read, if_pos ints, if_pos three, List.getElem?_cons_zero,
        List.getElem?_cons_succ, Option.getD_some, Int.toNat_natCast]
      cases scanSizes b (skip rest) with
      | error stop => rfl
      | ok given =>
          obtain ⟨sizes, file⟩ := given
          change (scanProcesses unset 0 n file).bind _ = (scanProcesses unset 0 n file).map _
          cases scanProcesses unset 0 n file <;> rfl

/-- The second line is taken for sizes exactly if it starts with five numbers. -/
theorem scanSizes_line (b : Build) (starts : ∀ c ∈ line.head?, isSpace c = false) (some : line ≠ [])
    (inside : Inline line) (short : line.length + 1 < 256) (rest : List Char) :
    scanSizes b (skip (line ++ '\n' :: rest)) =
      if Ints (numbers 5 (line ++ ['\n'])).1 then
        if (numbers 5 (line ++ ['\n'])).1.length = 5 then
          .ok (.ofLine b (numbers 5 (line ++ ['\n'])).1, rest)
        else .ok (.default, line ++ '\n' :: rest)
      else .error .undefined := by
  have start : skip (line ++ '\n' :: rest) = line ++ '\n' :: rest := by
    refine skip_eq_self fun c head => starts c ?_
    cases line with
    | nil => exact absurd rfl some
    | cons d line => exact head
  simp only [scanSizes, start, gets_eq inside short]

theorem Numeral.starts {s : List Char} {v : Int} (numeral : Numeral s v) (rest : List Char) :
    (∀ c ∈ (s ++ rest).head?, isSpace c = false) ∧ s ++ rest ≠ [] := by
  cases s with
  | nil => exact absurd rfl numeral.some
  | cons d s => exact ⟨fun c head => numeral.solid c (by simp_all), by simp⟩

/-- A line of sizes is found and read. -/
theorem scanSizes_sized (b : Build) (spelled : SizesLine line sizes) (ints : Ints sizes) (rest : List Char) :
    scanSizes b (skip (line ++ '\n' :: rest)) = .ok (.ofLine b sizes, rest) := by
  cases spelled with
  | @mk s t ws ram swps numeral others four blank within short =>
      have inside : Inline (s ++ (t ++ ws)) := List.forall_mem_append.mpr
        ⟨numeral.within, List.forall_mem_append.mpr ⟨others.within, within⟩⟩
      have tail : Break (ws ++ ['\n']) := (blank.append (by decide)).break
      have read : (numbers 5 (s ++ (t ++ ws) ++ ['\n'])).1 = ram :: swps := by
        have all := numbers_first (List.forall_mem_nil _) numeral others tail
        rw [four] at all
        simpa only [List.append_assoc, List.nil_append] using congrArg Prod.fst all
      have five : (ram :: swps).length = 5 := by rw [List.length_cons, four]
      obtain ⟨starts, some⟩ := Numeral.starts numeral (t ++ ws)
      rw [List.append_assoc s t ws] at short ⊢
      rw [scanSizes_line b starts some inside short, read, if_pos ints, if_pos five]

/-- A configuration with a line of sizes is read as it is described. -/
theorem readConfig_sized (b : Build) (unset : Nat → LdProcess) {ws procs : List Char}
    (header : FirstLine first timeSlot numCpus es.length)
    (blank : Blank ws) (apart : ws ≠ []) (spelled : SizesLine line sizes)
    (entries : Entries procs es last)
    (found : files path = some (first ++ (ws ++ (line ++ '\n' :: procs))))
    (ints : Ints ([timeSlot, numCpus, (es.length : Int)] ++ sizes)) (valid : ∀ e ∈ es, e.Valid) :
    readConfig b files unset path =
      .ok ⟨.ofLine b sizes, timeSlot, numCpus, es.length, es.map Entry.process⟩ := by
  obtain ⟨intsFirst, intsSizes⟩ := List.forall_mem_append.mp ints
  have read := scanSizes_sized b spelled intsSizes procs
  have processes := scanProcesses_all unset entries valid rfl
  rw [readConfig_eq header (blank.cut apart) intsFirst found, skip_blank blank, read]
  change (scanProcesses unset 0 es.length procs).map _ = _
  rw [processes]
  rfl

/-- A configuration without a line of sizes is read as it is described exactly if the line of its first
process does not start with five numbers, and those that it starts with are of type `int`. The line
fits the buffer of `read_config`, and so do the described numbers their types. -/
theorem readConfig_legacy_iff {ws s ws' procs : List Char}
    (header : FirstLine first timeSlot numCpus (es.length + 1)) (blank : Blank ws) (apart : ws ≠ [])
    (spelled : e.Spelled s) (spaces : Blank ws') (inside : Inline (s ++ ws'))
    (short : (s ++ ws').length + 1 < 256) (entries : Entries procs es last) (ended : Blank last)
    (found : files path = some (first ++ (ws ++ (s ++ ws' ++ '\n' :: procs))))
    (ints : Ints [timeSlot, numCpus, ((es.length + 1 : Nat) : Int)])
    (valid : ∀ e' ∈ e :: es, e'.Valid) :
    readConfig b files unset path =
        .ok ⟨.default, timeSlot, numCpus, (es.length + 1 : Nat), (e :: es).map Entry.process⟩ ↔
      Ints (numbers 5 (s ++ ws' ++ ['\n'])).1 ∧ (numbers 5 (s ++ ws' ++ ['\n'])).1.length ≠ 5 := by
  have starts : (∀ c ∈ (s ++ ws').head?, isSpace c = false) ∧ s ++ ws' ≠ [] := by
    cases spelled with
    | mk numeral =>
        simp only [List.append_assoc]
        exact Numeral.starts numeral _
  have line := scanSizes_line b starts.1 starts.2 inside short procs
  rw [readConfig_eq header (blank.cut apart) ints found, skip_blank blank, line]
  split_ifs with range five
  · have short := scanProcesses_more unset entries
      (fun e' member => valid e' (List.mem_cons_of_mem _ member)) rfl ended
    refine iff_of_false ?_ fun right => right.2 five
    change ¬ (scanProcesses unset 0 (es.length + 1) procs).map _ = _
    rw [short]
    exact nofun
  · have newline : Blank (ws' ++ ['\n']) := spaces.append (by decide)
    obtain ⟨last', others⟩ := entries.after_blank newline
    have all : Entries (s ++ ws' ++ '\n' :: procs) (e :: es) last' := by
      have cons := Entries.cons (List.forall_mem_nil _) spelled (newline.cut (by simp)) others
      simpa using cons
    have read := scanProcesses_all unset all valid rfl
    refine iff_of_true ?_ ⟨range, five⟩
    change (scanProcesses unset 0 (es.length + 1) _).map _ = _
    rw [List.length_cons] at read
    rw [read]
    rfl
  · exact iff_of_false nofun fun right => range right.1

end Files

/-! ## Two files -/

/-- A line for a process, with one blank between its parts. -/
def Entry.render (e : Entry) : List Char := spell e.start ++ [' '] ++ e.name ++ spellAll [e.prio]

theorem Entry.spelled_render (e : Entry) (item : Word e.name) : e.Spelled e.render :=
  .mk (numeral_spell e.start) (by decide) (by simp) item (numerals_spellAll trivial _)

/-- A file at `input/os_sc`. -/
def onlyFile (file : List Char) (path : List Char) : Option (List Char) :=
  if path = "input/os_sc".toList then some file else none

/-- The name of the one process decides whether the file is read right. -/
theorem readConfig_legacy_names :
    readConfig .mm32 (onlyFile "4 2 1\n0 p1s 5\n".toList) (fun _ => ⟨7, [], 7⟩) "input/os_sc".toList =
        .ok ⟨.default, 4, 2, 1, [⟨0, "input/proc/p1s".toList, 5⟩]⟩ ∧
      readConfig .mm32 (onlyFile "4 2 1\n0 1-2-3 5\n".toList) (fun _ => ⟨7, [], 7⟩)
          "input/os_sc".toList ≠
        .ok ⟨.default, 4, 2, 1, [⟨0, "input/proc/1-2-3".toList, 5⟩]⟩ := by
  have newline : Blank ['\n'] := by decide
  have first : FirstLine "4 2 1".toList 4 2 1 :=
    .mk (List.forall_mem_nil _) (numeral_spell 4) (numerals_spellAll trivial [2, 1])
  have nothing : Blank [] := List.forall_mem_nil _
  have none : Entries [] [] [] := .nil
  have plain : onlyFile "4 2 1\n0 p1s 5\n".toList "input/os_sc".toList =
      some ("4 2 1".toList ++
        (['\n'] ++ ((⟨0, "p1s".toList, 5⟩ : Entry).render ++ [] ++ '\n' :: []))) := rfl
  have numbered : onlyFile "4 2 1\n0 1-2-3 5\n".toList "input/os_sc".toList =
      some ("4 2 1".toList ++
        (['\n'] ++ ((⟨0, "1-2-3".toList, 5⟩ : Entry).render ++ [] ++ '\n' :: []))) := rfl
  constructor
  · exact (readConfig_legacy_iff first newline (by simp)
      (Entry.spelled_render ⟨0, "p1s".toList, 5⟩ (by decide)) nothing
      (by decide) (by decide) none nothing plain (by decide)
      (by simpa using ⟨by decide, by decide⟩)).mpr (by decide)
  · refine mt (readConfig_legacy_iff first newline (by simp)
      (Entry.spelled_render ⟨0, "1-2-3".toList, 5⟩ (by decide)) nothing
      (by decide) (by decide) none nothing numbered (by decide)
      (by simpa using ⟨by decide, by decide⟩)).mp ?_
    decide

end SimpleOs
