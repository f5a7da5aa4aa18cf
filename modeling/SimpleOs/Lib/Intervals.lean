import Mathlib.Data.List.Pairwise
import Mathlib.Order.Lattice

/-!
# Lists of half-open intervals

`lo` and `hi` give the ends of an interval, which holds the points from `lo` on and
below `hi`. `cover` counts the intervals of a list that hold a point. Intervals do not
overlap when no point counts twice, and what is cut off an interval, or cut in two, is
a matter of adding counts.
-/

namespace Intervals

variable {R α : Type*} [LinearOrder α] {lo hi : R → α}

/-- The interval holds the point. -/
def Holds (lo hi : R → α) (r : R) (x : α) : Prop := lo r ≤ x ∧ x < hi r

instance (lo hi : R → α) (r : R) (x : α) : Decidable (Holds lo hi r x) :=
  inferInstanceAs (Decidable (_ ∧ _))

/-- No point lies in both. -/
def Apart (lo hi : R → α) (r s : R) : Prop := ∀ x, ¬ (Holds lo hi r x ∧ Holds lo hi s x)

/-- How many of the intervals hold the point. -/
def cover (lo hi : R → α) (rs : List R) (x : α) : ℕ := rs.countP fun r => decide (Holds lo hi r x)

variable {r s t : R} {rs ss : List R} {x c : α}

@[simp] theorem cover_nil : cover lo hi [] x = 0 := rfl

theorem cover_cons : cover lo hi (r :: rs) x =
    (if Holds lo hi r x then 1 else 0) + cover lo hi rs x := by
  simp only [cover, List.countP_cons, decide_eq_true_eq]
  exact Nat.add_comm _ _

@[simp] theorem cover_append : cover lo hi (rs ++ ss) x = cover lo hi rs x + cover lo hi ss x :=
  List.countP_append

theorem cover_pos_iff : 0 < cover lo hi rs x ↔ ∃ r ∈ rs, Holds lo hi r x := by
  rw [cover, List.countP_pos_iff]
  simp only [decide_eq_true_eq]

theorem cover_eq_zero_iff : cover lo hi rs x = 0 ↔ ∀ r ∈ rs, ¬ Holds lo hi r x := by
  rw [cover, List.countP_eq_zero]
  simp only [decide_eq_true_eq]

/-- An interval without points. -/
theorem not_holds_of_le (empty : hi r ≤ lo r) : ¬ Holds lo hi r x :=
  fun holds => absurd (holds.1.trans_lt holds.2) (not_lt.mpr empty)

/-- Intervals do not overlap when no point counts twice. -/
theorem pairwise_apart_iff : rs.Pairwise (Apart lo hi) ↔ ∀ x, cover lo hi rs x ≤ 1 := by
  induction rs with
  | nil => simp
  | cons r rs ih =>
      rw [List.pairwise_cons, ih]
      constructor
      · rintro ⟨apart, once⟩ x
        rw [cover_cons]
        split
        next here =>
          have none : cover lo hi rs x = 0 :=
            cover_eq_zero_iff.mpr fun s member there => apart s member x ⟨here, there⟩
          omega
        next =>
          have rest := once x
          omega
      · intro once
        refine ⟨fun s member x both => ?_, fun x => ?_⟩
        · have counted : 0 < cover lo hi rs x := cover_pos_iff.mpr ⟨s, member, both.2⟩
          have total := once x
          rw [cover_cons, if_pos both.1] at total
          omega
        · have total := once x
          rw [cover_cons] at total
          omega

/-- An interval cut in two. -/
theorem holds_cut (low : lo r ≤ c) (high : c ≤ hi r) (start : lo s = lo r) (upto : hi s = c)
    (from_ : lo t = c) (stop : hi t = hi r) :
    ((if Holds lo hi s x then 1 else 0) + if Holds lo hi t x then 1 else 0) =
      if Holds lo hi r x then 1 else 0 := by
  simp only [Holds, start, upto, from_, stop]
  obtain below | above := lt_or_ge x c
  · have notUpper : ¬ c ≤ x := not_le.mpr below
    simp [below, below.trans_le high, notUpper]
  · have notLower : ¬ x < c := not_lt.mpr above
    simp [above, low.trans above, notLower]

end Intervals
