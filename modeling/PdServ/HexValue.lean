import PdServ.ParameterRange

/-!
Values as hexadecimal strings, `Parameter::setHexValue` and
`XmlElement::Attribute::hexDec`. The table `hexNum` has an entry for every code from
`0` to `f`, and the codes between the digits and the letters have a 0 in it, so they
pass for digits.
-/

namespace PdServ

/-- An entry of the table `hexValue`: two digits for each byte. -/
def hexValue (byte : Byte) : List Byte :=
  let digits := ascii "0123456789ABCDEF"
  [digits.getD (byte.toNat / 16) 0, digits.getD (byte.toNat % 16) 0]

/-- `XmlElement::Attribute::hexDec(data, len)` -/
def hexDec (data : List Byte) : List Byte := data.flatMap hexValue

namespace Parameter

/-! ### What a string denotes -/

def hexDigit (c : Byte) : Option Byte :=
  if isdigit c then some (c - 48)
  else if 65 ≤ c && c ≤ 70 then some (c - 55)
  else if 97 ≤ c && c ≤ 102 then some (c - 87)
  else none

def isHexDigit (c : Byte) : Bool := (hexDigit c).isSome

/-- Two digits for each byte; no bytes where a character is no digit or one is left
over. -/
def pairs : List Byte → Option (List Byte)
  | [] => some []
  | [_] => none
  | high :: low :: rest => do
      let h ← hexDigit high
      let l ← hexDigit low
      let bytes ← pairs rest
      return (16 * h + l) :: bytes

/-- The bytes a string denotes for a parameter of `room` bytes. -/
def denoted (room : Nat) (s : List Byte) : Option (List Byte) := pairs (s.take (2 * room))

/-- `setHexValue` stores the bytes that the string denotes, and fails without a call
where it denotes none. -/
def StoresDenoted (p : Parameter) (s : List Byte) (startindex : Nat) : Prop :=
  p.setHexValue s startindex = (denoted p.memSize s).map fun bytes =>
    { mainParam := p.mainParam
      offset := p.offset + startindex * p.dtype.size
      buf := bytes }

/-- Where the string is accepted it has digits only. -/
def DigitsOnly (room : Nat) (s : List Byte) : Prop :=
  hexCount room s ≠ none → (s.take (2 * room)).all isHexDigit = true

/-! ### Digits -/

theorem forall_byte {P : Byte → Prop} (all : ∀ n < 256, P (UInt8.ofNat n)) (c : Byte) : P c := by
  have here := all c.toNat c.toNat_lt
  rwa [UInt8.ofNat_toNat] at here

set_option maxRecDepth 20000 in
theorem hexNum_digit (c : Byte) (digit : isHexDigit c = true) :
    hexNum[(c - 48).toNat]? = hexDigit c := by
  revert digit
  exact forall_byte (P := fun c => isHexDigit c = true → hexNum[(c - 48).toNat]? = hexDigit c)
    (by decide) c

theorem isHexCode_of_digit (c : Byte) (digit : isHexDigit c = true) : isHexCode c = true := by
  rw [← hexNum_isSome, hexNum_digit c digit]
  exact digit

theorem hexDigit_small (c : Byte) {v : Byte} (digit : hexDigit c = some v) : v < 16 := by
  simp only [hexDigit, isdigit, Bool.and_eq_true, decide_eq_true_eq] at digit
  grind

/-- The shift and the disjunction put two digits together. -/
theorem join_digits {high low : Byte} (h : high < 16) (l : low < 16) :
    (high <<< 4 ||| low) = 16 * high + low := by
  have all : ∀ m < 16, ∀ n < 16,
      (UInt8.ofNat m <<< 4 ||| UInt8.ofNat n) = 16 * UInt8.ofNat m + UInt8.ofNat n := by
    decide
  have joined := all high.toNat (UInt8.lt_iff_toNat_lt.mp h) low.toNat (UInt8.lt_iff_toNat_lt.mp l)
  rwa [UInt8.ofNat_toNat, UInt8.ofNat_toNat] at joined

/-! ### The loop of setHexValue -/

theorem hexBytes_digits : ∀ (room : Nat) (s : List Byte),
    (s.take (2 * room)).all isHexDigit = true → hexBytes room s = denoted room s
  | 0, _, _ => by simp [hexBytes, denoted, pairs]
  | room + 1, [], _ => rfl
  | room + 1, [c], _ => by
      have nul : hexNum[(Chr.nul - 48 : Byte).toNat]? = none := by decide
      have whole : [c].take (2 * (room + 1)) = [c] := List.take_of_length_le (by simp; omega)
      rw [denoted, whole, pairs, hexBytes]
      simp only [List.headD_nil, nul]
      cases hexNum[(c - 48).toNat]? <;> rfl
  | room + 1, high :: low :: rest, digits => by
      have twice : 2 * (room + 1) = 2 * room + 1 + 1 := by omega
      rw [twice, List.take_succ_cons, List.take_succ_cons, List.all_cons, List.all_cons,
        Bool.and_eq_true, Bool.and_eq_true] at digits
      obtain ⟨first, second, others⟩ := digits
      obtain ⟨h, high_digit⟩ := Option.isSome_iff_exists.mp first
      obtain ⟨l, low_digit⟩ := Option.isSome_iff_exists.mp second
      have later := hexBytes_digits room rest others
      have joined := join_digits (hexDigit_small high high_digit) (hexDigit_small low low_digit)
      rw [denoted, twice, List.take_succ_cons, List.take_succ_cons, pairs, hexBytes]
      simp only [List.headD_cons, List.drop_succ_cons, List.drop_zero, hexNum_digit high first,
        hexNum_digit low second, high_digit, low_digit, later, denoted, joined,
        Option.bind_eq_bind, Option.bind_some, Option.pure_def, Option.map_eq_bind]
      rfl

theorem digits_of_pairs : ∀ (s : List Byte) {bytes : List Byte}, pairs s = some bytes →
    s.all isHexDigit = true ∧ s.length % 2 = 0
  | [], _, _ => by simp
  | [_], _, found => by cases found
  | high :: low :: rest, _, found => by
      simp only [pairs, Option.bind_eq_bind, Option.bind_eq_some_iff] at found
      obtain ⟨h, high_digit, l, low_digit, bytes, others, -⟩ := found
      obtain ⟨digits, even⟩ := digits_of_pairs rest others
      refine ⟨?_, ?_⟩
      · simp [isHexDigit, high_digit, low_digit] at digits ⊢
        exact digits
      · simp only [List.length_cons]
        omega

/-- What denotes bytes is accepted. -/
theorem hexCount_of_denoted {room : Nat} {s bytes : List Byte} (found : denoted room s = some bytes) :
    hexCount room s ≠ none := by
  obtain ⟨digits, even⟩ := digits_of_pairs _ found
  have codes : (s.take (2 * room)).all isHexCode = true := by
    rw [List.all_eq_true] at digits ⊢
    exact fun c member => isHexCode_of_digit c (digits c member)
  have whole : s.length % 2 = 0 ∨ 2 * room ≤ s.length := by
    rw [List.length_take] at even
    omega
  rw [hexCount, if_pos ⟨codes, whole⟩]
  exact Option.some_ne_none _

theorem hexBytes_iff (room : Nat) (s : List Byte) :
    hexBytes room s = denoted room s ↔ DigitsOnly room s := by
  have count := hexBytes_length room s
  constructor
  · intro same accepted
    cases found : denoted room s with
    | none =>
        rw [same, found] at count
        exact absurd count.symm accepted
    | some bytes => exact (digits_of_pairs _ found).1
  · intro digits
    by_cases accepted : hexCount room s = none
    · have refused : hexBytes room s = none := by
        rw [accepted, Option.map_eq_none_iff] at count
        exact count
      have nothing : denoted room s = none := by
        by_contra some
        obtain ⟨bytes, found⟩ := Option.ne_none_iff_exists'.mp some
        exact hexCount_of_denoted found accepted
      rw [refused, nothing]
    · exact hexBytes_digits room s (digits accepted)

/-! ### What is printed comes back -/

set_option maxRecDepth 20000 in
theorem pairs_hexValue (byte : Byte) (rest : List Byte) :
    pairs (hexValue byte ++ rest) = (pairs rest).map (byte :: ·) := by
  have single : pairs (hexValue byte) = some [byte] :=
    forall_byte (P := fun byte => pairs (hexValue byte) = some [byte]) (by decide) byte
  simp only [hexValue, pairs, Option.bind_eq_bind, Option.bind_eq_some_iff] at single
  obtain ⟨h, high_digit, l, low_digit, bytes, nothing, joined⟩ := single
  cases nothing
  have same : 16 * h + l = byte := (List.cons.inj (Option.some.inj joined)).1
  simp only [hexValue, List.cons_append, List.nil_append, pairs, high_digit, low_digit, same,
    Option.bind_eq_bind, Option.bind_some, Option.map_eq_bind]
  rfl

theorem pairs_hexDec (data : List Byte) : pairs (hexDec data) = some data := by
  induction data with
  | nil => rfl
  | cons byte rest ih =>
      rw [hexDec, List.flatMap_cons, pairs_hexValue, ← hexDec, ih]
      rfl

theorem hexDec_length (data : List Byte) : (hexDec data).length = 2 * data.length := by
  induction data with
  | nil => rfl
  | cons byte rest ih =>
      rw [hexDec, List.flatMap_cons, List.length_append, ← hexDec, ih, List.length_cons]
      simp only [hexValue, List.length_cons, List.length_nil]
      omega

theorem denoted_hexDec (data : List Byte) : denoted data.length (hexDec data) = some data := by
  rw [denoted, ← hexDec_length, List.take_length, pairs_hexDec]

/-- `setHexValue` stores what a string denotes if and only if it takes nothing but
digits for digits; what `hexDec` printed is stored again. -/
theorem setHexValue_denoted_iff (p : Parameter) (startindex : Nat) :
    (∀ s, StoresDenoted p s startindex ↔ DigitsOnly p.memSize s) ∧
      ∀ data, data.length = p.memSize → p.setHexValue (hexDec data) startindex = some
        { mainParam := p.mainParam
          offset := p.offset + startindex * p.dtype.size
          buf := data } := by
  constructor
  · intro s
    rw [StoresDenoted, setHexValue, ← hexBytes_iff]
    constructor
    · intro same
      refine Option.map_injective ?_ same
      intro first second calls
      exact (Call.mk.inj calls).2.2
    · intro same
      rw [same]
  · intro data size
    have found := denoted_hexDec data
    have digits : DigitsOnly p.memSize (hexDec data) := by
      intro _
      rw [denoted, size] at found
      exact (digits_of_pairs _ found).1
    rw [setHexValue, (hexBytes_iff _ _).mpr digits, ← size, found]
    rfl

/-- A parameter of two bytes. -/
def bytePair : Parameter :=
  { mainParam := 0, dtype := .primary .uint8, dim := ⟨[2], DimType.positive_two⟩, offset := 0
    hidden := false, persistent := false, dependent := none }

theorem setHexValue_bytePair :
    bytePair.setHexValue (hexDec [0x1f, 0xa0]) 0 = some ⟨0, 0, [0x1f, 0xa0]⟩ ∧
      StoresDenoted bytePair (ascii "1fA0") 0 :=
  ⟨(setHexValue_denoted_iff bytePair 0).2 [0x1f, 0xa0] rfl,
    ((setHexValue_denoted_iff bytePair 0).1 (ascii "1fA0")).mpr fun _ => by decide⟩

/-- `G` is taken for a zero. -/
theorem setHexValue_takes_G :
    ¬ ∀ (p : Parameter) (s : List Byte) (startindex : Nat), StoresDenoted p s startindex := by
  intro claim
  have stores := claim bytePair (ascii "G1") 0
  rw [StoresDenoted] at stores
  have written : bytePair.setHexValue (ascii "G1") 0 = some ⟨0, 0, [1]⟩ := by decide
  have nothing : denoted bytePair.memSize (ascii "G1") = none := by decide
  rw [written, nothing] at stores
  cases stores

end Parameter
end PdServ
