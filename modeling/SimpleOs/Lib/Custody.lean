import Mathlib.Algebra.BigOperators.Group.Finset.Basic
import Mathlib.Algebra.BigOperators.Group.List.Basic
import Mathlib.Algebra.Order.BigOperators.Group.Finset
import Mathlib.Data.Fintype.BigOperators

/-!
# Tokens in the custody of places

Finitely many places hold lists of tokens, and tokens move from place to place
one list update at a time. `occurrences` counts a token over all places. A token
is in exclusive custody when that count is at most one, and the tokens of a
stock are conserved when every count is the count in the stock.
-/

namespace Custody

variable {ι T : Type*} [Fintype ι] [DecidableEq T]

/-- How often a token is held, over all places. -/
def occurrences (held : ι → List T) (t : T) : Nat := ∑ i, (held i).count t

/-- No token is held twice, at one place or at two. -/
def Exclusive (held : ι → List T) : Prop := ∀ t, occurrences held t ≤ 1

theorem count_le_occurrences (held : ι → List T) (i : ι) (t : T) :
    (held i).count t ≤ occurrences held t :=
  Finset.single_le_sum (f := fun i => (held i).count t) (fun _ _ => Nat.zero_le _)
    (Finset.mem_univ i)

theorem occurrences_eq_zero {held : ι → List T} {t : T} :
    occurrences held t = 0 ↔ ∀ i, t ∉ held i := by
  simp [occurrences, List.count_eq_zero]

theorem exists_of_occurrences {held : ι → List T} {t : T} (counted : occurrences held t ≠ 0) :
    ∃ i, t ∈ held i := by
  by_contra missing
  exact counted (occurrences_eq_zero.mpr fun i member => missing ⟨i, member⟩)

theorem occurrences_ne_zero {held : ι → List T} {i : ι} {t : T} (member : t ∈ held i) :
    occurrences held t ≠ 0 := fun none => occurrences_eq_zero.mp none i member

/-- The tokens left over and those held at all places, in one list. -/
theorem count_append_flatMap (rest : List T) (held : ι → List T) (t : T) :
    (rest ++ Finset.univ.toList.flatMap held).count t = rest.count t + occurrences held t := by
  rw [List.count_append, List.count_flatMap, occurrences, Finset.sum_map_toList]
  rfl

/-- The tokens left over and the tokens held, all places together, are the stock. -/
theorem append_flatMap_perm_iff {rest stock : List T} {held : ι → List T} :
    (rest ++ Finset.univ.toList.flatMap held).Perm stock ↔
      ∀ t, rest.count t + occurrences held t = stock.count t := by
  rw [List.perm_iff_count]
  simp only [count_append_flatMap]

variable [DecidableEq ι]

/-- The accounting rule: replacing what one place holds changes the count of a
token by the difference of the two lists. -/
theorem occurrences_update (held : ι → List T) (i : ι) (ts : List T) (t : T) :
    occurrences (Function.update held i ts) t + (held i).count t =
      occurrences held t + ts.count t := by
  have apart : ∀ g : ι → List T, occurrences g t =
      (g i).count t + ∑ j ∈ Finset.univ.erase i, (g j).count t := by
    intro g
    exact (Finset.add_sum_erase _ (fun j => (g j).count t) (Finset.mem_univ i)).symm
  have others : ∑ j ∈ Finset.univ.erase i, (Function.update held i ts j).count t =
      ∑ j ∈ Finset.univ.erase i, (held j).count t := by
    apply Finset.sum_congr rfl
    intro j away
    rw [Function.update_of_ne (Finset.ne_of_mem_erase away)]
  rw [apart (Function.update held i ts), apart held, others, Function.update_self]
  omega

/-- Two different places cannot hold the same token without its counting twice. -/
theorem Exclusive.unique {held : ι → List T} (exclusive : Exclusive held) {i j : ι} {t : T}
    (here : t ∈ held i) (there : t ∈ held j) : i = j := by
  by_contra apart
  have account := occurrences_update held i [] t
  have kept := count_le_occurrences (Function.update held i []) j t
  have first := List.count_pos_iff.mpr here
  have second := List.count_pos_iff.mpr there
  have bound := exclusive t
  rw [Function.update_of_ne (Ne.symm apart)] at kept
  simp only [List.count_nil] at account
  omega

end Custody
