import Mathlib.Data.List.DropRight
import Mathlib.Data.List.TakeWhile

/-!
# Scanning text

The conversions of `scanf` on a text without NUL characters. A conversion skips blanks,
takes the longest item of its kind, and leaves the rest of the text. Where there is no such
item it fails, and a sequence of conversions stops there.

The rules go the other way: they say how a text that was put together from blanks, numerals
and words is taken apart. What may follow an item matters, for a digit after a numeral would
belong to it.
-/

namespace Scan

variable {text rest ws s : List Char} {v : Int} {vs : List Int} {n : Nat}

/-- `isspace` -/
def isSpace (c : Char) : Bool := c.toNat == 32 || (9 ≤ c.toNat && c.toNat ≤ 13)

/-- What a blank in a format does. -/
def skip (text : List Char) : List Char := text.dropWhile isSpace

/-- An optional sign, and whether it is a minus. -/
def sign : List Char → Bool × List Char
  | [] => (false, [])
  | c :: text => if c = '-' then (true, text) else if c = '+' then (false, text) else (false, c :: text)

/-- A decimal number with an optional sign. A sign alone is taken, but is none. -/
def number (text : List Char) : Option Int × List Char :=
  let (minus, text) := sign (skip text)
  let digits := text.takeWhile Char.isDigit
  let magnitude : Int := Nat.ofDigitChars 10 digits 0
  (if digits = [] then none else some (if minus then -magnitude else magnitude),
    text.dropWhile Char.isDigit)

/-- `n` numbers, or those before the first that fails. -/
def numbers : (n : Nat) → List Char → List Int × List Char
  | 0, text => ([], text)
  | n + 1, text =>
      match number text with
      | (none, rest) => ([], rest)
      | (some v, rest) =>
          let (vs, rest) := numbers n rest
          (v :: vs, rest)

/-- `%s`, which only fails at the end of the text. -/
def word (text : List Char) : Option (List Char) × List Char :=
  let text := skip text
  let w := text.takeWhile fun c => !isSpace c
  (if w = [] then none else some w, text.dropWhile fun c => !isSpace c)

/-- At most `n` characters, up to the end of the line. -/
def line : (n : Nat) → List Char → List Char × List Char
  | 0, text => ([], text)
  | _, [] => ([], [])
  | n + 1, c :: text =>
      if c = '\n' then ([c], text)
      else
        let (l, rest) := line n text
        (c :: l, rest)

/-- `fgets` into a buffer of that size, with `none` for `NULL`. -/
def gets (size : Nat) (text : List Char) : Option (List Char) × List Char :=
  if text = [] then (none, []) else
    let (l, rest) := line (size - 1) text
    (some l, rest)

/-- A text of blanks. -/
def Blank (ws : List Char) : Prop := ∀ c ∈ ws, isSpace c = true

/-- An item ends before the text. -/
def Break (rest : List Char) : Prop := ∀ c ∈ rest.head?, isSpace c = true

/-- A text without line breaks. -/
def Inline (s : List Char) : Prop := ∀ c ∈ s, c ≠ '\n'

instance decidableBlank (ws : List Char) : Decidable (Blank ws) := List.decidableBAll ..

instance decidableInline (s : List Char) : Decidable (Inline s) := List.decidableBAll ..

/-- The spellings of a number. -/
inductive Numeral : List Char → Int → Prop
  | plain {ds : List Char} (some : ds ≠ []) (digits : ∀ c ∈ ds, c.isDigit = true) :
      Numeral ds (Nat.ofDigitChars 10 ds 0)
  | plus {ds : List Char} (some : ds ≠ []) (digits : ∀ c ∈ ds, c.isDigit = true) :
      Numeral ('+' :: ds) (Nat.ofDigitChars 10 ds 0)
  | minus {ds : List Char} (some : ds ≠ []) (digits : ∀ c ∈ ds, c.isDigit = true) :
      Numeral ('-' :: ds) (-(Nat.ofDigitChars 10 ds 0 : Int))

/-- Numerals, each after blanks that meet a condition. -/
inductive Numerals (ok : Char → Prop) : List Char → List Int → Prop
  | nil : Numerals ok [] []
  | cons {ws s text : List Char} {v : Int} {vs : List Int} (blank : Blank ws) (some : ws ≠ [])
      (fits : ∀ c ∈ ws, ok c) (numeral : Numeral s v) (others : Numerals ok text vs) :
      Numerals ok (ws ++ s ++ text) (v :: vs)

/-- A word can be taken by `%s`. -/
structure Word (s : List Char) : Prop where
  some : s ≠ []
  solid : ∀ c ∈ s, isSpace c = false

instance decidableWord (s : List Char) : Decidable (Word s) :=
  have _ : Decidable (∀ c ∈ s, isSpace c = false) := List.decidableBAll ..
  decidable_of_iff (s ≠ [] ∧ ∀ c ∈ s, isSpace c = false)
    ⟨fun item => ⟨item.1, item.2⟩, fun item => ⟨item.some, item.solid⟩⟩

theorem not_isSpace_of_isDigit {c : Char} (digit : c.isDigit = true) : isSpace c = false := by
  simp only [Char.isDigit, Bool.and_eq_true, decide_eq_true_eq, UInt32.le_iff_toNat_le] at digit
  have low : 48 ≤ c.toNat := digit.1
  simp only [isSpace, Bool.or_eq_false_iff, beq_eq_false_iff_ne, Bool.and_eq_false_iff,
    decide_eq_false_iff_not]
  omega

/-! ## Blanks -/

theorem Blank.append {ws' : List Char} (first : Blank ws) (second : Blank ws') : Blank (ws ++ ws') :=
  fun c member => (List.mem_append.mp member).elim (first c) (second c)

theorem Blank.cut (blank : Blank ws) (some : ws ≠ []) : Break (ws ++ rest) := by
  cases ws with
  | nil => exact absurd rfl some
  | cons c ws =>
      intro d first
      obtain rfl : c = d := Option.some.inj first
      exact blank c (by simp)

@[simp] theorem break_nil : Break [] := nofun

theorem Blank.break (blank : Blank ws) : Break ws := by
  cases ws with
  | nil => exact break_nil
  | cons c ws =>
      have ends : Break (c :: ws ++ []) := blank.cut (by simp)
      simpa using ends

theorem skip_blank (blank : Blank ws) (text : List Char) : skip (ws ++ text) = skip text :=
  List.dropWhile_append_of_pos blank

theorem skip_eq_self (solid : ∀ c ∈ text.head?, isSpace c = false) : skip text = text := by
  cases text with
  | nil => rfl
  | cons c text => simp [skip, solid c rfl]

theorem skip_all (blank : Blank ws) : skip ws = [] := by
  simpa [skip] using skip_blank blank []

theorem blank_of_skip (nothing : skip text = []) : Blank text := by
  simpa [Blank] using List.dropWhile_eq_nil_iff.mp nothing

/-! ## Items -/

theorem takeWhile_item {p : Char → Bool} (all : ∀ c ∈ s, p c = true)
    (ends : ∀ c ∈ rest.head?, p c = false) : (s ++ rest).takeWhile p = s := by
  have stops : rest.takeWhile p = [] := by cases rest <;> simp_all
  rw [List.takeWhile_append_of_pos all, stops, List.append_nil]

theorem dropWhile_item {p : Char → Bool} (all : ∀ c ∈ s, p c = true)
    (ends : ∀ c ∈ rest.head?, p c = false) : (s ++ rest).dropWhile p = rest := by
  rw [List.dropWhile_append_of_pos all]
  cases rest <;> simp_all

theorem Break.not_isDigit (ends : Break rest) : ∀ c ∈ rest.head?, c.isDigit = false := by
  intro c first
  by_contra digit
  have blank := ends c first
  rw [not_isSpace_of_isDigit (by simpa using digit)] at blank
  cases blank

theorem Break.not_solid (ends : Break rest) : ∀ c ∈ rest.head?, (!isSpace c) = false := by
  intro c first
  simp [ends c first]

theorem Numeral.some (numeral : Numeral s v) : s ≠ [] := by
  cases numeral <;> simp_all

theorem Numeral.solid (numeral : Numeral s v) : ∀ c ∈ s, isSpace c = false := by
  have signs : isSpace '+' = false ∧ isSpace '-' = false := by decide
  cases numeral with
  | plain some digits => exact fun c member => not_isSpace_of_isDigit (digits c member)
  | plus some digits =>
      exact List.forall_mem_cons.mpr ⟨signs.1, fun c member => not_isSpace_of_isDigit (digits c member)⟩
  | minus some digits =>
      exact List.forall_mem_cons.mpr ⟨signs.2, fun c member => not_isSpace_of_isDigit (digits c member)⟩

theorem Numeral.within (numeral : Numeral s v) : Inline s := by
  rintro c member rfl
  exact absurd (numeral.solid _ member) (by decide)

/-- Numerals that are set off within a line are within that line. -/
theorem Numerals.within (numerals : Numerals (· ≠ '\n') text vs) : Inline text := by
  induction numerals with
  | nil => exact List.forall_mem_nil _
  | cons blank some fits numeral others ih =>
      exact List.forall_mem_append.mpr ⟨List.forall_mem_append.mpr ⟨fits, numeral.within⟩, ih⟩

/-- The decimal spelling of a number. -/
def spell (v : Int) : List Char :=
  if v < 0 then '-' :: Nat.toDigits 10 v.natAbs else Nat.toDigits 10 v.natAbs

theorem numeral_spell (v : Int) : Numeral (spell v) v := by
  have digits : ∀ c ∈ Nat.toDigits 10 v.natAbs, c.isDigit = true := fun c member =>
    Nat.isDigit_of_mem_toDigits (by decide) (by decide) member
  have magnitude : Nat.ofDigitChars 10 (Nat.toDigits 10 v.natAbs) 0 = v.natAbs :=
    Nat.ofDigitChars_ten_toDigits
  rw [spell]
  split
  · have numeral := Numeral.minus Nat.toDigits_ne_nil digits
    rwa [magnitude, Int.ofNat_natAbs_of_nonpos (by omega), Int.neg_neg] at numeral
  · have numeral := Numeral.plain Nat.toDigits_ne_nil digits
    rwa [magnitude, Int.natAbs_of_nonneg (by omega)] at numeral

theorem length_spell_le (v : Int) : (spell v).length ≤ (Nat.toDigits 10 v.natAbs).length + 1 := by
  rw [spell]
  split
  · exact Nat.le_refl _
  · exact Nat.le_succ _

/-- Numbers after one blank each. -/
def spellAll (vs : List Int) : List Char := vs.flatMap fun v => ' ' :: spell v

theorem numerals_spellAll {ok : Char → Prop} (fits : ok ' ') (vs : List Int) :
    Numerals ok (spellAll vs) vs := by
  induction vs with
  | nil => exact .nil
  | cons v vs ih =>
      have blank : Blank [' '] := by decide
      exact .cons blank (by simp) (by simpa using fits) (numeral_spell v) ih

/-- A numeral starts with its sign or with a digit. -/
theorem Numeral.sign (numeral : Numeral s v) (rest : List Char) :
    ∃ minus ds, Scan.sign (skip (s ++ rest)) = (minus, ds ++ rest) ∧ ds ≠ [] ∧
      (∀ c ∈ ds, c.isDigit = true) ∧
      v = if minus then -(Nat.ofDigitChars 10 ds 0 : Int) else Nat.ofDigitChars 10 ds 0 := by
  have solid : ∀ c, c = '+' ∨ c = '-' → ∀ ds, skip (c :: ds) = c :: ds := by
    rintro c signed ds
    refine skip_eq_self fun d first => ?_
    obtain rfl : c = d := Option.some.inj first
    rcases signed with rfl | rfl <;> decide
  cases numeral with
  | plain some digits =>
      refine ⟨false, s, ?_, some, digits, rfl⟩
      cases s with
      | nil => exact absurd rfl some
      | cons d ds =>
          have digit : d.isDigit = true := digits d (by simp)
          have start : skip (d :: (ds ++ rest)) = d :: (ds ++ rest) := by
            refine skip_eq_self fun c first => ?_
            obtain rfl : d = c := Option.some.inj first
            exact not_isSpace_of_isDigit digit
          have minus : d ≠ '-' := by
            rintro rfl
            exact absurd digit (by decide)
          have plus : d ≠ '+' := by
            rintro rfl
            exact absurd digit (by decide)
          simp [start, Scan.sign, minus, plus]
  | @plus ds some digits =>
      refine ⟨false, ds, ?_, some, digits, rfl⟩
      simp [solid '+' (.inl rfl), Scan.sign]
  | @minus ds some digits =>
      refine ⟨true, ds, ?_, some, digits, rfl⟩
      simp [solid '-' (.inr rfl), Scan.sign]

/-- A numeral is read as its number if no digit follows. -/
theorem number_numeral (blank : Blank ws) (numeral : Numeral s v)
    (ends : ∀ c ∈ rest.head?, c.isDigit = false) : number (ws ++ s ++ rest) = (some v, rest) := by
  obtain ⟨minus, ds, start, some, digits, rfl⟩ := numeral.sign rest
  rw [number, List.append_assoc, skip_blank blank, start]
  simp only [takeWhile_item digits ends, dropWhile_item digits ends, if_neg some]

theorem word_item (blank : Blank ws) (item : Word s) (ends : Break rest) :
    word (ws ++ s ++ rest) = (some s, rest) := by
  have start : skip (s ++ rest) = s ++ rest := by
    refine skip_eq_self fun c first => ?_
    cases s with
    | nil => exact absurd rfl item.some
    | cons d s => exact item.solid c (by simp_all)
  have solid : ∀ c ∈ s, (!isSpace c) = true := fun c member => by simp [item.solid c member]
  rw [word, List.append_assoc, skip_blank blank, start]
  simp only [takeWhile_item solid ends.not_solid, dropWhile_item solid ends.not_solid,
    if_neg item.some]

/-- At the end of the text there is neither a number nor a word. -/
theorem number_blank (blank : Blank ws) : number ws = (none, []) := by
  simp [number, skip_all blank, sign]

theorem word_blank (blank : Blank ws) : word ws = (none, []) := by
  simp [word, skip_all blank]

theorem Numerals.break {ok : Char → Prop} (numerals : Numerals ok text vs) (ends : Break rest) :
    Break (text ++ rest) := by
  cases numerals with
  | nil => exact ends
  | cons blank some fits numeral others =>
      simpa only [List.append_assoc] using blank.cut some

/-- As many numbers as there are numerals are read, also if more are asked for and nothing
follows. -/
theorem numbers_numerals {ok : Char → Prop} (numerals : Numerals ok text vs) (ends : Break rest)
    (n : Nat) (blank : 0 < n → Blank rest) :
    numbers (vs.length + n) (text ++ rest) = (vs, if n = 0 then rest else []) := by
  induction numerals with
  | nil =>
      cases n with
      | zero => rfl
      | succ n => simp [numbers, number_blank (blank n.succ_pos)]
  | @cons ws s text v vs blanks some fits numeral others ih =>
      have next := number_numeral blanks numeral (others.break ends).not_isDigit
      have count : (v :: vs).length + n = vs.length + n + 1 := by
        simp [Nat.add_right_comm]
      simp only [count, numbers, List.append_assoc] at next ⊢
      simp only [next, ih]

/-- The same for numerals of which the first need not be set off. -/
theorem numbers_first {ok : Char → Prop} {t : List Char} (blank : Blank ws) (numeral : Numeral s v)
    (numerals : Numerals ok t vs) (ends : Break rest) :
    numbers (vs.length + 1) (ws ++ s ++ t ++ rest) = (v :: vs, rest) := by
  have first := number_numeral blank numeral (numerals.break ends).not_isDigit
  have others : numbers vs.length (t ++ rest) = (vs, rest) :=
    numbers_numerals numerals ends 0 (absurd · (lt_irrefl 0))
  rw [← List.append_assoc] at first
  simp only [numbers, first, others]

theorem word_congr {text' : List Char} (same : skip text = skip text') : word text = word text' := by
  simp only [word, same]

theorem skip_skip (text : List Char) : skip (skip text) = skip text :=
  List.dropWhile_idempotent _ _

/-! ## Lines -/

/-- A line that fits is taken with its end. -/
theorem line_eq (within : Inline s) (fits : s.length < n) :
    line n (s ++ '\n' :: rest) = (s ++ ['\n'], rest) := by
  induction s generalizing n with
  | nil =>
      cases n with
      | zero => cases fits
      | succ n => simp [line]
  | cons c s ih =>
      obtain ⟨here, later⟩ := List.forall_mem_cons.mp within
      cases n with
      | zero => cases fits
      | succ n => simp [line, here, ih later (Nat.lt_of_succ_lt_succ fits)]

theorem gets_eq {size : Nat} (within : Inline s) (fits : s.length + 1 < size) :
    gets size (s ++ '\n' :: rest) = (some (s ++ ['\n']), rest) := by
  have short : s.length < size - 1 := by omega
  simp [gets, line_eq within short]

end Scan
