import Mathlib.Algebra.Order.Ring.Nat
import Mathlib.Data.List.Basic
import Mathlib.Tactic.Common

/-!
Byte-addressed memory with copies of whole ranges and little-endian words.
Nothing here names the server.
-/

abbrev Memory := Nat → UInt8

namespace Memory

/-- `std::copy(bytes, bytes + count, address)` -/
def write (memory : Memory) (address : Nat) (bytes : List UInt8) : Memory :=
  fun a => if address ≤ a then (bytes[a - address]?).getD (memory a) else memory a

def read (memory : Memory) (address count : Nat) : List UInt8 :=
  (List.range count).map fun i => memory (address + i)

theorem write_outside (memory : Memory) {address a : Nat} (bytes : List UInt8)
    (outside : a < address ∨ address + bytes.length ≤ a) :
    memory.write address bytes a = memory a := by
  unfold write
  cases outside with
  | inl below => rw [if_neg (Nat.not_le.mpr below)]
  | inr above =>
      split
      · rw [List.getElem?_eq_none (by omega)]
        rfl
      · rfl

theorem write_inside (memory : Memory) (address : Nat) (bytes : List UInt8)
    {i : Nat} (inside : i < bytes.length) :
    memory.write address bytes (address + i) = bytes[i] := by
  unfold write
  rw [if_pos (Nat.le_add_right _ _), Nat.add_sub_cancel_left,
    List.getElem?_eq_getElem inside]
  rfl

@[simp] theorem read_length (memory : Memory) (address count : Nat) :
    (memory.read address count).length = count := by
  simp [read]

/-- A part of what is read at once. -/
theorem read_part (memory : Memory) (address : Nat) {length offset count : Nat}
    (inside : offset + count ≤ length) :
    memory.read (address + offset) count =
      ((memory.read address length).drop offset).take count := by
  apply List.ext_getElem
  · simp only [read_length, List.length_take, List.length_drop]
    omega
  · intro i short long
    simp only [read, List.getElem_map, List.getElem_range, List.getElem_take,
      List.getElem_drop, Nat.add_assoc]

theorem read_congr {memory other : Memory} {address count : Nat}
    (same : ∀ a, address ≤ a → a < address + count → memory a = other a) :
    memory.read address count = other.read address count := by
  apply List.map_congr_left
  intro i member
  have inside := List.mem_range.mp member
  exact same (address + i) (Nat.le_add_right _ _) (by omega)

/-- A write leaves every range alone that it does not meet. -/
theorem read_write_apart (memory : Memory) {address from_ count : Nat}
    (bytes : List UInt8)
    (apart : from_ + count ≤ address ∨ address + bytes.length ≤ from_) :
    (memory.write address bytes).read from_ count = memory.read from_ count := by
  apply read_congr
  intro a low high
  apply write_outside
  omega

theorem read_write_self (memory : Memory) (address : Nat) (bytes : List UInt8) :
    (memory.write address bytes).read address bytes.length = bytes := by
  apply List.ext_getElem
  · simp
  · intro i short long
    simp [read, write_inside memory address bytes long]

/-- What is read inside a range that was just written. -/
theorem read_write_inside (memory : Memory) (address : Nat) (bytes : List UInt8)
    {offset count : Nat} (inside : offset + count ≤ bytes.length) :
    (memory.write address bytes).read (address + offset) count =
      (bytes.drop offset).take count := by
  apply List.ext_getElem
  · simp only [read_length, List.length_take, List.length_drop]
    omega
  · intro i short long
    rw [read_length] at short
    simp only [read, List.getElem_map, List.getElem_range, List.getElem_take,
      List.getElem_drop, Nat.add_assoc]
    exact write_inside memory address bytes (by omega)

/-- A write, byte by byte from an address in front of it. -/
theorem write_at (memory : Memory) (start offset : Nat) (bytes : List UInt8) (i : Nat) :
    memory.write (start + offset) bytes (start + i) =
      if offset ≤ i then (bytes[i - offset]?).getD (memory (start + i)) else memory (start + i) := by
  have distance : start + i - (start + offset) = i - offset := by omega
  simp only [write, Nat.add_le_add_iff_left, distance]

/-- A write and the backup on top of it. -/
theorem write_backup (memory : Memory) (address : Nat) (bytes : List UInt8) :
    (memory.write address bytes).write address (memory.read address bytes.length) = memory := by
  funext a
  by_cases inside : address ≤ a ∧ a < address + bytes.length
  · obtain ⟨i, rfl⟩ := Nat.exists_eq_add_of_le inside.1
    have short : i < (memory.read address bytes.length).length := by
      rw [read_length]
      omega
    rw [write_inside _ _ _ short]
    simp [read]
  · have outside : a < address ∨ address + bytes.length ≤ a := by omega
    rw [write_outside _ _ (by simpa using outside), write_outside _ _ outside]

/-- Writing what is there already. -/
theorem write_unchanged {memory : Memory} {address : Nat} {bytes : List UInt8}
    (there : memory.read address bytes.length = bytes) : memory.write address bytes = memory := by
  have backup := write_backup memory address bytes
  rw [there] at backup
  funext a
  by_cases inside : address ≤ a ∧ a < address + bytes.length
  · obtain ⟨i, rfl⟩ := Nat.exists_eq_add_of_le inside.1
    have short : i < bytes.length := by omega
    rw [← congrFun backup, write_inside _ _ _ short, write_inside _ _ _ short]
  · exact write_outside _ _ (by omega)

/-- A write that changes nothing writes what is there already. -/
theorem read_of_unchanged {memory : Memory} {address : Nat} {bytes : List UInt8}
    (same : ∀ i < bytes.length, memory.write address bytes (address + i) = memory (address + i)) :
    memory.read address bytes.length = bytes := by
  calc memory.read address bytes.length
      = (memory.write address bytes).read address bytes.length := by
        apply read_congr
        intro a low high
        obtain ⟨i, rfl⟩ := Nat.exists_eq_add_of_le low
        exact (same i (by omega)).symm
    _ = bytes := read_write_self memory address bytes

/-- Copy one range after the other. -/
def store (memory : Memory) (stores : List (Nat × List UInt8)) : Memory :=
  stores.foldl (fun m range => m.write range.1 range.2) memory

theorem store_outside (memory : Memory) {stores : List (Nat × List UInt8)} {a : Nat}
    (outside : ∀ range ∈ stores, a < range.1 ∨ range.1 + range.2.length ≤ a) :
    memory.store stores a = memory a := by
  induction stores generalizing memory with
  | nil => rfl
  | cons range rest ih =>
      calc (memory.write range.1 range.2).store rest a
          = memory.write range.1 range.2 a :=
            ih _ fun other member => outside other (List.mem_cons_of_mem _ member)
        _ = memory a := write_outside memory range.2 (outside range List.mem_cons_self)

/-! ### Words -/

/-- The `count` low bytes of a number, lowest first. -/
def encode : (count : Nat) → Nat → List UInt8
  | 0, _ => []
  | count + 1, value => UInt8.ofNat value :: encode count (value / 256)

def decode : List UInt8 → Nat
  | [] => 0
  | byte :: rest => byte.toNat + 256 * decode rest

@[simp] theorem encode_length (count value : Nat) : (encode count value).length = count := by
  induction count generalizing value with
  | zero => rfl
  | succ count ih => simp [encode, ih]

theorem decode_encode (count value : Nat) :
    decode (encode count value) = value % 256 ^ count := by
  induction count generalizing value with
  | zero => simp [encode, decode, Nat.mod_one]
  | succ count ih =>
      have low : (UInt8.ofNat value).toNat = value % 256 := by simp
      rw [encode, decode, ih, low, Nat.pow_succ', Nat.mod_mul]

def word (memory : Memory) (address count : Nat) : Nat :=
  decode (memory.read address count)

def putWord (memory : Memory) (address count value : Nat) : Memory :=
  memory.write address (encode count value)

theorem decode_lt (bytes : List UInt8) : decode bytes < 256 ^ bytes.length := by
  induction bytes with
  | nil => exact Nat.one_pos
  | cons byte rest ih =>
      have low := byte.toNat_lt
      rw [decode, List.length_cons, Nat.pow_succ]
      omega

theorem word_lt (memory : Memory) (address count : Nat) :
    memory.word address count < 256 ^ count := by
  have bound := decode_lt (memory.read address count)
  rwa [read_length] at bound

theorem word_clear (address count : Nat) : word (fun _ => 0) address count = 0 := by
  have zeros : ∀ n, decode (List.replicate n 0) = 0 := by
    intro n
    induction n with
    | zero => rfl
    | succ n ih =>
        rw [List.replicate_succ, decode, ih]
        rfl
  have same : read (fun _ => 0) address count = List.replicate count 0 := by
    simp [read]
  rw [word, same, zeros]

theorem word_congr {memory other : Memory} {address count : Nat}
    (same : ∀ a, address ≤ a → a < address + count → memory a = other a) :
    memory.word address count = other.word address count := by
  rw [word, read_congr same]
  rfl

theorem word_putWord_self (memory : Memory) (address count value : Nat) :
    (memory.putWord address count value).word address count = value % 256 ^ count := by
  have same := memory.read_write_self address (encode count value)
  rw [encode_length] at same
  rw [word, putWord, same, decode_encode]

theorem read_putWord_apart (memory : Memory) {address count from_ length : Nat}
    (value : Nat) (apart : from_ + length ≤ address ∨ address + count ≤ from_) :
    (memory.putWord address count value).read from_ length = memory.read from_ length := by
  apply read_write_apart
  rw [encode_length]
  exact apart

theorem word_putWord_apart (memory : Memory) {address count from_ length : Nat}
    (value : Nat) (apart : from_ + length ≤ address ∨ address + count ≤ from_) :
    (memory.putWord address count value).word from_ length = memory.word from_ length := by
  rw [word, read_putWord_apart memory value apart]
  rfl

theorem word_write_apart (memory : Memory) {address from_ length : Nat}
    (bytes : List UInt8)
    (apart : from_ + length ≤ address ∨ address + bytes.length ≤ from_) :
    (memory.write address bytes).word from_ length = memory.word from_ length := by
  rw [word, read_write_apart memory bytes apart]
  rfl

@[simp] theorem length_flatMap_encode (count : Nat) (values : List Nat) :
    (values.flatMap (encode count)).length = count * values.length := by
  induction values with
  | nil => rfl
  | cons value rest ih =>
      rw [List.flatMap_cons, List.length_append, ih, encode_length, List.length_cons]
      rw [Nat.mul_succ, Nat.add_comm]

theorem flatMap_encode_part (count : Nat) (values : List Nat) {i : Nat}
    (h : i < values.length) :
    ((values.flatMap (encode count)).drop (count * i)).take count =
      encode count values[i] := by
  induction values generalizing i with
  | nil => exact absurd h (Nat.not_lt_zero i)
  | cons value rest ih =>
      rw [List.flatMap_cons]
      cases i with
      | zero =>
          rw [Nat.mul_zero, List.drop_zero]
          exact List.take_left' (encode_length count value)
      | succ i =>
          have shorter : i < rest.length := by simpa using h
          rw [Nat.mul_succ, Nat.add_comm, ← List.drop_drop,
            List.drop_left' (encode_length count value)]
          exact ih shorter

/-- The words of an array, one behind the other. -/
theorem word_write_array (memory : Memory) (address count : Nat) (values : List Nat)
    {i : Nat} (h : i < values.length) :
    (memory.write address (values.flatMap (encode count))).word (address + count * i) count =
      values[i] % 256 ^ count := by
  have inside : count * i + count ≤ (values.flatMap (encode count)).length := by
    rw [length_flatMap_encode, ← Nat.mul_succ]
    exact Nat.mul_le_mul_left count h
  rw [word, read_write_inside memory address _ inside, flatMap_encode_part count values h,
    decode_encode]

end Memory
