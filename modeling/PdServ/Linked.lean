import Mathlib.Algebra.Order.Ring.Nat
import Mathlib.Data.List.Basic
import Mathlib.Tactic.Common

/-!
Cells that are linked by the number of the next cell, 0 behind the last one.
Nothing here names the server.
-/

/-- These cells are linked in this order, and nothing follows the last one. -/
def Linked (next : Nat → Nat) : List Nat → Prop
  | [] => True
  | [last] => next last = 0
  | cell :: other :: rest => next cell = other ∧ Linked next (other :: rest)

namespace Linked

variable {next next' : Nat → Nat}

theorem tail {cell : Nat} {rest : List Nat} (linked : Linked next (cell :: rest)) :
    Linked next rest := by
  cases rest with
  | nil => trivial
  | cons other rest => exact linked.2

theorem suffix {front rest : List Nat} (linked : Linked next (front ++ rest)) :
    Linked next rest := by
  induction front with
  | nil => exact linked
  | cons cell front ih => exact ih linked.tail

theorem next_last {front : List Nat} {last : Nat} (linked : Linked next (front ++ [last])) :
    next last = 0 :=
  linked.suffix

/-- Behind the last cell comes a new one. -/
theorem push {front : List Nat} {last new : Nat} (linked : Linked next (front ++ [last]))
    (same : ∀ cell ∈ front, next' cell = next cell) (link : next' last = new)
    (ends : next' new = 0) : Linked next' (front ++ [last, new]) := by
  induction front with
  | nil => exact ⟨link, ends⟩
  | cons cell front ih =>
      have later := ih linked.tail fun other member => same other (List.mem_cons_of_mem _ member)
      cases front with
      | nil => exact ⟨(same cell List.mem_cons_self).trans linked.1, later⟩
      | cons other front => exact ⟨(same cell List.mem_cons_self).trans linked.1, later⟩

end Linked
