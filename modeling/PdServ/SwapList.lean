import Mathlib.Algebra.Order.Ring.Nat
import Mathlib.Data.List.Basic
import Mathlib.Data.List.Perm.Basic
import Mathlib.Logic.Function.Basic
import Mathlib.Tactic.Common

/-!
Lists from which an element is removed by moving the last one into its place.
Nothing here names the server.
-/

namespace SwapList

variable {Value : Type}

/-- Move the last element to `position` and drop the last place. -/
def swapRemove (list : List Value) (position : Nat) : List Value :=
  match list.getLast? with
  | none => []
  | some last => (list.set position last).dropLast

theorem length_swapRemove (list : List Value) (position : Nat) :
    (swapRemove list position).length = list.length - 1 := by
  unfold swapRemove
  cases last : list.getLast? with
  | none =>
      rw [List.getLast?_eq_none_iff.mp last]
      rfl
  | some value => simp

theorem getElem?_swapRemove {list : List Value} {position : Nat}
    (inside : position < list.length) (i : Nat) :
    (swapRemove list position)[i]? =
      if i + 1 < list.length then
        if i = position then list[list.length - 1]? else list[i]?
      else none := by
  unfold swapRemove
  rw [List.getLast?_eq_getElem?]
  cases last : list[list.length - 1]? with
  | none =>
      rw [List.getElem?_eq_none_iff] at last
      omega
  | some value =>
      simp only [List.getElem?_dropLast, List.length_set]
      by_cases short : i + 1 < list.length
      · rw [if_pos short, if_pos (by omega)]
        by_cases here : i = position
        · subst here
          rw [if_pos rfl, List.getElem?_set_self inside]
        · rw [if_neg here, List.getElem?_set_ne (Ne.symm here)]
      · rw [if_neg short, if_neg (by omega)]

/-- The removed element and the rest make up the list. -/
theorem perm_swapRemove {list : List Value} {position : Nat} {value : Value}
    (found : list[position]? = some value) :
    list.Perm (value :: swapRemove list position) := by
  rcases List.eq_nil_or_concat list with rfl | ⟨front, last, rfl⟩
  · simp at found
  · rw [List.concat_eq_append] at found ⊢
    simp only [swapRemove, List.getLast?_append, List.getLast?_singleton, Option.some_or]
    by_cases before : position < front.length
    · rw [List.getElem?_append_left before] at found
      obtain ⟨_, here⟩ := List.getElem?_eq_some_iff.mp found
      rw [List.set_append_left _ _ before, List.dropLast_concat]
      have moved := List.set_perm_cons_eraseIdx before last
      have split := List.getElem_cons_eraseIdx_perm before
      rw [here] at split
      calc (front ++ [last]).Perm (last :: front) := List.perm_append_comm
        _ |>.Perm (last :: value :: front.eraseIdx position) := split.symm.cons last
        _ |>.Perm (value :: last :: front.eraseIdx position) := .swap ..
        _ |>.Perm (value :: front.set position last) := moved.symm.cons value
    · obtain ⟨inside, -⟩ := List.getElem?_eq_some_iff.mp found
      simp only [List.length_append, List.length_singleton] at inside
      have here : position = front.length := by omega
      subst here
      simp only [List.getElem?_append_right (Nat.le_refl _), Nat.sub_self,
        List.getElem?_cons_zero, Option.some.injEq] at found
      subst found
      rw [List.set_append_right _ _ (Nat.le_refl _)]
      simp only [Nat.sub_self, List.set_cons_zero, List.dropLast_concat]
      exact List.perm_append_comm

end SwapList
