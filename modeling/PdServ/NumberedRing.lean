import Mathlib.Data.Nat.ModEq
import Mathlib.Logic.Function.Basic
import Mathlib.Tactic.Common

/-!
A ring whose writer puts the number of each entry into the entry's slot, counting from
zero, and that begins as zeros. The first entry goes into any slot, the others follow
slot by slot. A reader that stands on an entry learns from the difference to the slot
behind it whether there is another entry. Nothing here names the server.
-/

namespace NumberedRing

variable {size first count width : Nat} {slots : Nat → Nat}

/-- The slot of an entry, when entry 0 went into slot `first`. -/
def place (size first number : Nat) : Nat := (first + number) % size

/-- The slots after `count` entries. -/
structure Holds (size first count : Nat) (slots : Nat → Nat) : Prop where
  written : ∀ number < count, count ≤ number + size → slots (place size first number) = number
  untouched : ∀ number < size, count ≤ number → slots (place size first number) = 0

/-- The slot was written at least once. -/
def Written (size first count slot : Nat) : Prop := ∃ number < count, place size first number = slot

variable (first) in
theorem place_lt (positive : 0 < size) (number : Nat) : place size first number < size :=
  Nat.mod_lt _ positive

theorem place_inj {left right : Nat} (before : left ≤ right) (near : right < left + size)
    (same : place size first left = place size first right) : left = right := by
  have close : left ≡ right [MOD size] := Nat.ModEq.add_left_cancel' first same
  obtain ⟨laps, apart⟩ := (Nat.modEq_iff_dvd' before).mp close
  rcases Nat.eq_zero_or_pos laps with rfl | positive
  · omega
  · have lap : size * 1 ≤ size * laps := Nat.mul_le_mul_left size positive
    omega

theorem place_lap (size first number : Nat) :
    place size first (number + size) = place size first number := by
  rw [place, ← Nat.add_assoc, Nat.add_mod_right]
  rfl

theorem place_succ (size first number : Nat) :
    place size first (number + 1) = (place size first number + 1) % size := by
  rw [place, place, Nat.mod_add_mod, Nat.add_assoc]

/-- Every slot is the place of an entry of each lap. -/
theorem place_onto {slot : Nat} (inside : slot < size) (start : first < size) :
    ∃ number < size, place size first number = slot := by
  by_cases behind : first ≤ slot
  · refine ⟨slot - first, by omega, ?_⟩
    rw [place, Nat.add_sub_cancel' behind, Nat.mod_eq_of_lt inside]
  · refine ⟨slot + size - first, by omega, ?_⟩
    rw [place, Nat.add_sub_cancel' (by omega), Nat.add_mod_right, Nat.mod_eq_of_lt inside]

/-- The latest entry in a slot that was written. -/
theorem Written.latest (positive : 0 < size) {slot : Nat}
    (written : Written size first count slot) :
    ∃ number < count, count ≤ number + size ∧ place size first number = slot := by
  obtain ⟨number, early, here⟩ := written
  -- the induction is on how far the entry is behind the writer, lap after lap
  induction distance : count - number using Nat.strong_induction_on generalizing number with
  | _ distance ih =>
      by_cases last : count ≤ number + size
      · exact ⟨number, early, last, here⟩
      · exact ih (count - (number + size)) (by omega) (number + size) (by omega)
          ((place_lap size first number).trans here) rfl

namespace Holds

theorem start (size first : Nat) : Holds size first 0 fun _ => 0 where
  written := by simp
  untouched := by simp

theorem write (holds : Holds size first count slots) :
    Holds size first (count + 1) (Function.update slots (place size first count) count) where
  written := by
    intro number early late
    by_cases last : number = count
    · rw [last, Function.update_self]
    · have apart : place size first number ≠ place size first count := by
        intro same
        exact last (place_inj (by omega) (by omega) same)
      rw [Function.update_of_ne apart]
      exact holds.written number (by omega) (by omega)
  untouched := by
    intro number inside late
    have apart : place size first number ≠ place size first count := by
      intro same
      have equal := place_inj (by omega) (by omega) same.symm
      omega
    rw [Function.update_of_ne apart]
    exact holds.untouched number inside (by omega)

/-- The slot behind the last entry: an entry of the lap before, or nothing yet. -/
theorem behind (holds : Holds size first count slots) (positive : 0 < size) :
    slots (place size first count) = if size ≤ count then count - size else 0 := by
  split
  · next lap =>
    have here := holds.written (count - size) (by omega) (by omega)
    rwa [← place_lap, Nat.sub_add_cancel lap] at here
  · next early => exact holds.untouched count (by omega) (Nat.le_refl count)

/-- A reader on entry `number` sees a difference of one exactly when there is another
entry, also when the difference is taken modulo `width`. -/
theorem announces (holds : Holds size first count slots) (several : 2 ≤ size)
    (few : count < width) {number : Nat} (early : number < count)
    (near : count ≤ number + size) :
    (slots (place size first (number + 1)) + (width - slots (place size first number))) % width = 1 ↔
      number + 1 < count := by
  rw [holds.written number early near]
  by_cases more : number + 1 < count
  · have next := holds.written (number + 1) more (by omega)
    have sum : number + 1 + (width - number) = width + 1 := by omega
    rw [next, sum, Nat.add_mod_left, Nat.mod_eq_of_lt (by omega)]
    exact iff_of_true rfl more
  · have last : number + 1 = count := by omega
    rw [last, holds.behind (by omega)]
    split
    · next lap =>
      -- one lap behind: short of `width` by `size - 1`
      have sum : count - size + (width - number) = width - (size - 1) := by omega
      rw [sum, Nat.mod_eq_of_lt (by omega)]
      omega
    · next early =>
      rw [Nat.zero_add]
      rcases Nat.eq_zero_or_pos number with rfl | positive
      · rw [Nat.sub_zero, Nat.mod_self]
        omega
      · rw [Nat.mod_eq_of_lt (by omega)]
        omega

variable (width) in
/-- A reader on a slot without an entry sees no difference of one. -/
theorem silent (holds : Holds size first count slots) (several : 2 ≤ size)
    (start : first < size) {slot : Nat} (inside : slot < size)
    (unwritten : ¬ Written size first count slot) :
    (slots ((slot + 1) % size) + (width - slots slot)) % width ≠ 1 := by
  obtain ⟨number, small, rfl⟩ := place_onto inside start
  have late : count ≤ number := by
    by_contra early
    exact unwritten ⟨number, by omega, rfl⟩
  rw [holds.untouched number small late, ← place_succ]
  have next : slots (place size first (number + 1)) = 0 := by
    by_cases lap : number + 1 = size
    · -- the slot before the first one: entry 0 is behind it, its number is zero as well
      have here : place size first (number + 1) = place size first 0 := by
        rw [lap, ← place_lap size first 0, Nat.zero_add]
      rw [here]
      by_cases none : count = 0
      · exact holds.untouched 0 (by omega) (by omega)
      · exact holds.written 0 (by omega) (by omega)
    · exact holds.untouched (number + 1) (by omega) (by omega)
  rw [next, Nat.sub_zero, Nat.zero_add, Nat.mod_self]
  exact Nat.zero_ne_one

end Holds

end NumberedRing
