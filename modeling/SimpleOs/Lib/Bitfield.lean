import Mathlib.Data.Nat.Bitwise
import Mathlib.Tactic.Common

/-!
# Bit fields of a machine word

The mask, get and set idioms with which C code packs several fields into one
unsigned word. A field is given by its highest and its lowest bit. Everything
is read off `getLsbD`: which bits a mask has, and which bits a set leaves alone.
-/

namespace Bitfield

variable {w : Nat}

/-- Ones in the bits `lo..hi`, zeros elsewhere. -/
def genmask (hi lo : Nat) : BitVec w :=
  (BitVec.allOnes w <<< lo) &&& (BitVec.allOnes w >>> (w - hi - 1))

/-- A single one, in bit `n`. -/
def bit (n : Nat) : BitVec w := 1#w <<< n

/-- The bits of `v` under `mask`, shifted down. -/
def getval (v mask : BitVec w) (offst : Nat) : BitVec w := (v &&& mask) >>> offst

/-- Replace the bits of `v` under `mask` by `value`, shifted up. -/
def setval (v value mask : BitVec w) (offst : Nat) : BitVec w :=
  (v &&& ~~~mask) ||| ((value <<< offst) &&& mask)

def setbit (v mask : BitVec w) : BitVec w := v ||| mask

def clrbit (v mask : BitVec w) : BitVec w := v &&& ~~~mask

theorem getLsbD_genmask {hi : Nat} (fits : hi < w) (lo i : Nat) :
    (genmask hi lo : BitVec w).getLsbD i = decide (lo ≤ i ∧ i ≤ hi) := by
  rw [genmask, BitVec.getLsbD_and, BitVec.getLsbD_shiftLeft, BitVec.getLsbD_ushiftRight,
    BitVec.getLsbD_allOnes, BitVec.getLsbD_allOnes]
  by_cases inside : lo ≤ i ∧ i ≤ hi
  · have below : i < w := by omega
    have shifted : w - hi - 1 + i < w := by omega
    have unshifted : i - lo < w := by omega
    simp [inside, below, shifted, unshifted]
  · rw [decide_eq_false inside]
    simp only [Bool.and_eq_false_iff, decide_eq_false_iff_not, Bool.not_eq_false']
    simp only [decide_eq_true_eq]
    omega

theorem getLsbD_bit {n : Nat} (fits : n < w) (i : Nat) :
    (bit n : BitVec w).getLsbD i = decide (i = n) := by
  rw [bit, BitVec.getLsbD_shiftLeft, BitVec.getLsbD_one]
  by_cases here : i = n
  · subst here
    simp [fits]
    omega
  · simp only [here, decide_false, Bool.and_eq_false_iff, decide_eq_false_iff_not,
      Bool.not_eq_false']
    simp only [decide_eq_true_eq]
    omega

/-- A field is the word divided down to the field's lowest bit, cut off above
its highest. -/
theorem toNat_getval {hi lo : Nat} (fits : hi < w) (v : BitVec w) :
    (getval v (genmask hi lo) lo).toNat = v.toNat / 2 ^ lo % 2 ^ (hi + 1 - lo) := by
  apply Nat.eq_of_testBit_eq
  intro i
  rw [Nat.testBit_mod_two_pow, Nat.testBit_div_two_pow]
  change (getval v (genmask hi lo) lo).getLsbD i = _
  rw [getval, BitVec.getLsbD_ushiftRight, BitVec.getLsbD_and, getLsbD_genmask fits, Bool.and_comm,
    Nat.add_comm i lo]
  congr 1
  rw [decide_eq_decide]
  omega

theorem getLsbD_setval {hi lo : Nat} (fits : hi < w) (v value : BitVec w) (i : Nat) :
    (setval v value (genmask hi lo) lo).getLsbD i =
      if lo ≤ i ∧ i ≤ hi then value.getLsbD (i - lo) else v.getLsbD i := by
  rw [setval, BitVec.getLsbD_or, BitVec.getLsbD_and, BitVec.getLsbD_and, BitVec.getLsbD_not,
    BitVec.getLsbD_shiftLeft, getLsbD_genmask fits]
  by_cases inside : lo ≤ i ∧ i ≤ hi
  · have below : i < w := by omega
    have above : ¬ i < lo := by omega
    simp [inside, below, above]
  · rw [decide_eq_false inside, if_neg inside]
    by_cases below : i < w
    · simp [below]
    · simp [below, BitVec.getLsbD_of_ge v i (by omega)]

theorem getLsbD_setbit {n : Nat} (fits : n < w) (v : BitVec w) (i : Nat) :
    (setbit v (bit n)).getLsbD i = (v.getLsbD i || decide (i = n)) := by
  rw [setbit, BitVec.getLsbD_or, getLsbD_bit fits]

theorem getLsbD_clrbit {n : Nat} (fits : n < w) (v : BitVec w) (i : Nat) :
    (clrbit v (bit n)).getLsbD i = (v.getLsbD i && !decide (i = n)) := by
  rw [clrbit, BitVec.getLsbD_and, BitVec.getLsbD_not, getLsbD_bit fits]
  by_cases below : i < w
  · simp [below]
  · simp [BitVec.getLsbD_of_ge v i (by omega)]

/-- Testing a word against a one-bit mask reads that bit. -/
theorem and_bit_ne_zero {n : Nat} (fits : n < w) (v : BitVec w) :
    (v &&& bit n != 0) = v.getLsbD n := by
  cases set : v.getLsbD n with
  | true =>
      have kept : (v &&& bit n).getLsbD n = true := by
        rw [BitVec.getLsbD_and, getLsbD_bit fits, set]
        simp
      rw [bne_iff_ne]
      intro zero
      rw [zero] at kept
      simp at kept
  | false =>
      have cleared : v &&& bit n = 0 := by
        apply BitVec.eq_of_getLsbD_eq
        intro i _
        rw [BitVec.getLsbD_and, getLsbD_bit fits]
        by_cases here : i = n
        · simp [here, set]
        · simp [here]
      simp [cleared]

/-- A field reads only the bits between its ends. -/
theorem getval_congr {hi lo : Nat} (fits : hi < w) {v v' : BitVec w}
    (same : ∀ i, lo ≤ i → i ≤ hi → v.getLsbD i = v'.getLsbD i) :
    getval v (genmask hi lo) lo = getval v' (genmask hi lo) lo := by
  apply BitVec.eq_of_getLsbD_eq
  intro i _
  rw [getval, getval, BitVec.getLsbD_ushiftRight, BitVec.getLsbD_ushiftRight, BitVec.getLsbD_and,
    BitVec.getLsbD_and, getLsbD_genmask fits]
  by_cases inside : lo + i ≤ hi
  · rw [same (lo + i) (Nat.le_add_right lo i) inside]
  · simp [inside]

/-- A field holds what was put in it, where the value fits. -/
theorem getval_setval {hi lo : Nat} (fits : hi < w) (ordered : lo ≤ hi) (v : BitVec w)
    {value : BitVec w} (small : value.toNat < 2 ^ (hi + 1 - lo)) :
    getval (setval v value (genmask hi lo) lo) (genmask hi lo) lo = value := by
  apply BitVec.eq_of_getLsbD_eq
  intro i _
  rw [getval, BitVec.getLsbD_ushiftRight, BitVec.getLsbD_and, getLsbD_genmask fits,
    getLsbD_setval fits]
  by_cases inside : lo + i ≤ hi
  · simp [inside]
  · have zero : value.getLsbD i = false := by
      apply Nat.testBit_lt_two_pow
      exact Nat.lt_of_lt_of_le small (Nat.pow_le_pow_right (by decide) (by omega))
    simp [inside, zero]

/-- A field holds what was put in it exactly where the value fits. -/
theorem getval_setval_iff {hi lo : Nat} (fits : hi < w) (ordered : lo ≤ hi) (v value : BitVec w) :
    getval (setval v value (genmask hi lo) lo) (genmask hi lo) lo = value ↔
      value.toNat < 2 ^ (hi + 1 - lo) := by
  constructor
  · intro same
    rw [← same, toNat_getval fits]
    exact Nat.mod_lt _ (Nat.two_pow_pos _)
  · exact getval_setval fits ordered v

end Bitfield
