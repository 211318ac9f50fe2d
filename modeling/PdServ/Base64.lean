import Mathlib.Algebra.Order.Ring.Nat
import Mathlib.Data.List.Basic
import Mathlib.Tactic.Common

/-!
The base 64 encoding of RFC 4648 as its reader sees it: the alphabet, and what a
text stands for. Groups of four characters give three bytes; only the last group may
be padded, and the bits that the padding cuts off must be zero. Nothing here names the
server.
-/

namespace Base64

/-- The 64 characters, each at the place of its value. -/
def alphabet : List UInt8 :=
  "ABCDEFGHIJKLMNOPQRSTUVWXYZabcdefghijklmnopqrstuvwxyz0123456789+/".toList.map Char.toUInt8

def pad : UInt8 := 61

def value (c : UInt8) : Option Nat :=
  if c ∈ alphabet then some (alphabet.idxOf c) else none

/-- The bytes of a number of `count` bytes, the most significant one first. -/
def bytes : (count : Nat) → Nat → List UInt8
  | 0, _ => []
  | count + 1, n => bytes count (n / 256) ++ [UInt8.ofNat n]

/-- The last group: one or two bytes, and no bits left over. -/
def padded (a b c : UInt8) : Option (List UInt8) := do
  let x ← value a
  let y ← value b
  if c = pad then
    if y % 16 = 0 then some (bytes 1 ((x * 64 + y) / 16)) else none
  else
    let z ← value c
    if z % 4 = 0 then some (bytes 2 (((x * 64 + y) * 64 + z) / 4)) else none

def group (a b c d : UInt8) : Option (List UInt8) := do
  let w ← value a
  let x ← value b
  let y ← value c
  let z ← value d
  some (bytes 3 (((w * 64 + x) * 64 + y) * 64 + z))

def decode : List UInt8 → Option (List UInt8)
  | [] => some []
  | a :: b :: c :: d :: rest =>
      if d = pad then
        if rest = [] then padded a b c else none
      else do
        let first ← group a b c d
        let others ← decode rest
        some (first ++ others)
  | _ => none

theorem pad_not_mem : pad ∉ alphabet := by decide

set_option maxRecDepth 20000 in
/-- The alphabet has a character for each of 64 values. -/
theorem value_getElem (n : Nat) (small : n < 64) : value (alphabet.getD n 0) = some n := by
  have all : ∀ n < 64, value (alphabet.getD n 0) = some n := by decide
  exact all n small

theorem getElem_mem (n : Nat) (small : n < 64) : alphabet.getD n 0 ∈ alphabet := by
  by_contra outside
  have found := value_getElem n small
  rw [value, if_neg outside] at found
  cases found

theorem getElem_ne_pad (n : Nat) (small : n < 64) : alphabet.getD n 0 ≠ pad := by
  intro same
  exact pad_not_mem (same ▸ getElem_mem n small)

end Base64
