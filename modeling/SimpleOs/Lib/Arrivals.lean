import Mathlib.Data.List.Range
import Mathlib.Data.List.Perm.Basic

/-!
# Arrivals that leave in order

Items arrive one after the other. Some are removed out of turn; the others keep
their order of arrival. `InOrder` says so by positions in the list of arrivals,
so that equal items are told apart.
-/

namespace Arrivals

variable {α : Type*}

/-- `kept` holds, in their order of arrival, the items of `arrived` that are
not among `removed`: every position of `arrived` is either one that stays or
one that was removed, and those that stay are taken in increasing order. -/
def InOrder (arrived kept removed : List α) : Prop :=
  ∃ stay leave : List Nat,
    stay.Pairwise (· < ·) ∧ (stay ++ leave).Perm (List.range arrived.length) ∧
      stay.map (arrived[·]?) = kept.map some ∧ leave.map (arrived[·]?) = removed.map some

namespace InOrder

/-- Before anything is removed, the arrivals are kept as they came. -/
theorem start (arrived : List α) : InOrder arrived arrived [] := by
  refine ⟨List.range arrived.length, [], List.pairwise_lt_range, by simp, ?_, rfl⟩
  apply List.ext_getElem?
  intro i
  by_cases inside : i < arrived.length
  · simp [inside]
  · simp [inside]

variable {arrived kept removed : List α}

/-- Appending an arrival changes no position that was there. -/
theorem map_getElem?_append {positions : List Nat}
    (inside : ∀ i ∈ positions, i < arrived.length) (x : α) :
    positions.map ((arrived ++ [x])[·]?) = positions.map (arrived[·]?) :=
  List.map_congr_left fun i member => List.getElem?_append_left (inside i member)

/-- A new arrival goes to the end. -/
theorem arrive (order : InOrder arrived kept removed) (x : α) :
    InOrder (arrived ++ [x]) (kept ++ [x]) removed := by
  obtain ⟨stay, leave, increasing, all, keeps, removes⟩ := order
  have inside : ∀ i ∈ stay ++ leave, i < arrived.length :=
    fun i member => List.mem_range.mp (all.mem_iff.mp member)
  have stays : ∀ i ∈ stay, i < arrived.length :=
    fun i member => inside i (List.mem_append_left _ member)
  have leaves : ∀ i ∈ leave, i < arrived.length :=
    fun i member => inside i (List.mem_append_right _ member)
  refine ⟨stay ++ [arrived.length], leave, ?_, ?_, ?_, ?_⟩
  · rw [List.pairwise_append]
    refine ⟨increasing, List.pairwise_singleton _ _, ?_⟩
    intro i member j last
    rw [List.mem_singleton.mp last]
    exact stays i member
  · rw [List.length_append, List.length_singleton, List.range_succ]
    calc (stay ++ [arrived.length] ++ leave).Perm (stay ++ leave ++ [arrived.length]) := by
          rw [List.append_assoc, List.append_assoc]
          exact List.perm_append_comm.append_left stay
      _ |>.Perm (List.range arrived.length ++ [arrived.length]) := all.append_right _
  · rw [List.map_append, List.map_append, map_getElem?_append stays, keeps]
    simp
  · rw [map_getElem?_append leaves, removes]

/-- An item taken out of the middle leaves the others in their order. -/
theorem remove (order : InOrder arrived kept removed) {i : Nat} (inside : i < kept.length) :
    InOrder arrived (kept.eraseIdx i) (removed ++ [kept[i]]) := by
  obtain ⟨stay, leave, increasing, all, keeps, removes⟩ := order
  have lengths := congrArg List.length keeps
  simp only [List.length_map] at lengths
  have there : i < stay.length := by omega
  have here : arrived[stay[i]]? = some kept[i] := by
    have cells := congrArg (·[i]?) keeps
    simpa [there, inside] using cells
  refine ⟨stay.eraseIdx i, leave ++ [stay[i]], ?_, ?_, ?_, ?_⟩
  · exact increasing.sublist (List.eraseIdx_sublist stay i)
  · have taken : (stay.eraseIdx i ++ [stay[i]]).Perm stay :=
      (List.perm_append_singleton _ _).trans (List.getElem_cons_eraseIdx_perm there)
    calc (stay.eraseIdx i ++ (leave ++ [stay[i]])).Perm
          (stay.eraseIdx i ++ ([stay[i]] ++ leave)) := List.perm_append_comm.append_left _
      _ |>.Perm (stay ++ leave) := by
          rw [← List.append_assoc]
          exact taken.append_right leave
      _ |>.Perm (List.range arrived.length) := all
  · rw [← List.eraseIdx_map, ← List.eraseIdx_map, keeps]
  · rw [List.map_append, List.map_append, removes, List.map_singleton, here]
    rfl

end InOrder
end Arrivals
