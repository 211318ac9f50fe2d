import PdServ.DataTypePrint
import PdServ.Memory
import PdServ.ParameterWrite
import Mathlib.Data.Nat.Digits.Lemmas

/-!
The text of integer values: `os << *val` for each element, decimal and without
padding, with a comma in between.
-/

namespace PdServ

abbrev Chr.comma : Byte := 44

/-- The decimal digits of a number. -/
def digits (n : Nat) : List Byte :=
  if n = 0 then [Chr.digit0] else (Nat.digits 10 n).reverse.map fun d => UInt8.ofNat (48 + d)

/-- `os << v` for an integer -/
def integerText (v : Int) : List Byte :=
  if v < 0 then Chr.minus :: digits v.natAbs else digits v.natAbs

namespace Primary

def isInteger : Primary → Bool
  | .double | .single => false
  | _ => true

def isSigned : Primary → Bool
  | .int8 | .int16 | .int32 | .int64 => true
  | _ => false

/-- The value of a word of this type; the word of a `bool` is 0 or 1. -/
def value (kind : Primary) (word : Nat) : Int :=
  if kind = .boolean then (if word = 0 then 0 else 1)
  else if kind.isSigned ∧ 2 ^ (8 * kind.size - 1) ≤ word then word - 2 ^ (8 * kind.size)
  else word

/-- The longest text of a value, with its sign. -/
def width : Primary → Nat
  | .boolean => 1
  | .uint8 => 3
  | .int8 => 4
  | .uint16 => 5
  | .int16 => 6
  | .uint32 => 10
  | .int32 => 11
  | .uint64 | .int64 => 20
  | .double | .single => 0

end Primary

namespace DataType

def Output.text (memory : Memory) : Output → List Byte
  | .delim => [Chr.comma]
  | .value leaf => integerText (leaf.kind.value (memory.word leaf.address leaf.kind.size))

/-- `dtype.print(os, data, data, data + n * sizeof(T))` -/
def printedText (kind : Primary) (n : Nat) (memory : Memory) (data : Nat) : Option (List Byte) :=
  ((DataType.primary kind).print data data (data + n * kind.size)).map fun out =>
    out.flatMap (Output.text memory)

end DataType

/-! ### Digits -/

theorem digits_length {n k : Nat} (some : 0 < k) (small : n < 10 ^ k) : (digits n).length ≤ k := by
  unfold digits
  split
  · exact some
  · rw [List.length_map, List.length_reverse]
    exact (Nat.digits_length_le_iff (by decide) n).mpr small

theorem isdigit_digits (n : Nat) (c : Byte) (member : c ∈ digits n) : isdigit c = true := by
  have all : ∀ d < 10, isdigit (UInt8.ofNat (48 + d)) = true := by decide
  unfold digits at member
  split at member
  · rw [List.mem_singleton.mp member]
    rfl
  · obtain ⟨d, inside, rfl⟩ := List.mem_map.mp member
    exact all d (Nat.digits_lt_base (by decide) (List.mem_reverse.mp inside))

theorem integerText_length {v : Int} {k : Nat} (some : 0 < k) (small : v.natAbs < 10 ^ k) :
    (integerText v).length ≤ k + if v < 0 then 1 else 0 := by
  have short := digits_length some small
  unfold integerText
  split
  · exact Nat.succ_le_succ short
  · exact short

/-- Digits, minus signs and commas. -/
def isListed (c : Byte) : Bool := isdigit c || c == Chr.minus || c == Chr.comma

theorem isListed_integerText (v : Int) (c : Byte) (member : c ∈ integerText v) :
    isListed c = true := by
  unfold integerText at member
  split at member
  · rcases List.mem_cons.mp member with rfl | inside
    · rfl
    · simp [isListed, isdigit_digits _ c inside]
  · simp [isListed, isdigit_digits _ c member]

namespace Primary

/-- A value of an integer type against the powers of ten that bound it. -/
theorem value_bounds {kind : Primary} (integer : kind.isInteger = true) {word : Nat}
    (fits : word < 256 ^ kind.size) :
    (kind.value word).natAbs < 10 ^ (kind.width - if kind.isSigned then 1 else 0) ∧
      (kind.value word < 0 → kind.isSigned = true) := by
  cases kind with
  | double => cases integer
  | single => cases integer
  | boolean =>
      simp only [value, width, isSigned, if_true, Bool.false_eq_true, if_false]
      split <;> decide
  | _ =>
      simp only [size, Nat.reducePow] at fits
      simp only [value, width, isSigned, size, reduceCtorEq, true_and, false_and,
        Bool.false_eq_true, if_true, if_false, implies_true, and_true,
        Nat.reduceMul, Nat.reduceSub, Nat.reducePow, Int.reducePow]
      try split
      all_goals omega

/-- No text of a value is longer than the width of its type. -/
theorem integerText_width {kind : Primary} (integer : kind.isInteger = true) {word : Nat}
    (fits : word < 256 ^ kind.size) : (integerText (kind.value word)).length ≤ kind.width := by
  obtain ⟨small, negative⟩ := value_bounds integer fits
  have some : 0 < kind.width - if kind.isSigned then 1 else 0 := by
    cases kind <;> first | decide | cases integer
  have short := integerText_length some small
  by_cases sign : kind.isSigned = true
  · rw [if_pos sign] at short some
    split at short <;> omega
  · rw [if_neg sign, if_neg fun below => sign (negative below)] at short
    exact short

/-- Except for `int8_t`, a value and its comma take at most four characters a byte. -/
theorem width_lt {kind : Primary} (other : kind ≠ .int8) : kind.width < 4 * kind.size := by
  cases kind <;> first | decide | exact absurd rfl other

end Primary

/-! ### The whole list -/

namespace DataType

theorem text_joined_true (memory : Memory) {list : List Leaf} (some : list ≠ []) :
    (joined true list).flatMap (Output.text memory) =
      Chr.comma :: (joined false list).flatMap (Output.text memory) := by
  cases list with
  | nil => exact absurd rfl some
  | cons leaf rest => simp [joined, separate, Output.text]

theorem text_length (memory : Memory) (list : List Leaf) :
    ((joined true list).flatMap (Output.text memory)).length =
      (list.map fun leaf => (integerText
        (leaf.kind.value (memory.word leaf.address leaf.kind.size))).length + 1).sum := by
  induction list with
  | nil => rfl
  | cons leaf rest ih =>
      simp only [joined, separate, if_true, List.flatMap_cons, List.length_append, ih,
        Output.text, List.map_cons, List.sum_cons, List.length_singleton]
      omega

theorem printedText_eq (kind : Primary) (n : Nat) (memory : Memory) (data : Nat) :
    printedText kind n memory data = some ((joined false ((List.range n).map fun i =>
      ⟨kind, data + i * kind.size⟩)).flatMap (Output.text memory)) := by
  rw [printedText, print_primary kind n (Nat.le_refl data), Option.map_some]

/-- A list of values is one comma shorter than its values with a comma each. -/
theorem printedText_length {kind : Primary} {n : Nat} {memory : Memory} {data : Nat}
    {text : List Byte} (printed : printedText kind n memory data = some text) :
    n = 0 ∧ text = [] ∨ text.length + 1 = ((List.range n).map fun i => (integerText
      (kind.value (memory.word (data + i * kind.size) kind.size))).length + 1).sum := by
  rw [printedText_eq] at printed
  cases printed
  by_cases none : n = 0
  · subst none
    exact .inl ⟨rfl, rfl⟩
  · right
    have some : ((List.range n).map fun i => (⟨kind, data + i * kind.size⟩ : Leaf)) ≠ [] := by
      simpa using none
    have whole := text_length memory ((List.range n).map fun i => ⟨kind, data + i * kind.size⟩)
    rw [text_joined_true memory some, List.length_cons, List.map_map] at whole
    exact whole

theorem printedText_listed {kind : Primary} {n : Nat} {memory : Memory} {data : Nat}
    {text : List Byte} (printed : printedText kind n memory data = some text) :
    ∀ c ∈ text, isListed c = true := by
  rw [printedText_eq] at printed
  cases printed
  intro c member
  obtain ⟨out, -, inside⟩ := List.mem_flatMap.mp member
  cases out with
  | delim =>
      rw [List.mem_singleton.mp inside]
      rfl
  | value leaf => exact isListed_integerText _ c inside

end DataType

end PdServ
