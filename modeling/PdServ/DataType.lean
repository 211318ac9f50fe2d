import PdServ.XmlParser

/-!
Data types of variables and the walk over their elements, `src/src/DataType.h`
and `DataType.cpp`. A type is a tree: a compound lists its fields, each with a
type and a dimension vector of its own. Sizes and offsets are numbers of bytes
inside an object in memory. Dimensions are positive: a walk over a dimension of
zero divides by it.
-/

namespace PdServ

/-- `DataType::DimType`, a vector of dimensions. -/
structure DimType where
  dims : List Nat
  positive : ∀ d ∈ dims, 0 < d
deriving DecidableEq

namespace DimType

def single : DimType := ⟨[1], by simp⟩

theorem positive_two : ∀ d ∈ [2], 0 < d := by simp

theorem positive_three : ∀ d ∈ [3], 0 < d := by simp

theorem positive_five : ∀ d ∈ [5], 0 < d := by simp

/-- `std::accumulate(begin(), end(), 1U, std::multiplies<size_t>())`: the result is
stored in an `unsigned int` after every factor. -/
def nelem (dim : DimType) : Nat := dim.dims.foldl (fun n d => n * d % 2 ^ 32) 1

def isScalar (dim : DimType) : Bool := dim.nelem == 1

theorem isScalar_iff (dim : DimType) : dim.isScalar = true ↔ dim.nelem = 1 := by
  simp [isScalar]

end DimType

inductive Primary where
  | boolean | uint8 | int8 | uint16 | int16 | uint32 | int32 | uint64 | int64 | double | single
deriving DecidableEq, Repr

def Primary.size : Primary → Nat
  | .boolean | .uint8 | .int8 => 1
  | .uint16 | .int16 => 2
  | .uint32 | .int32 | .single => 4
  | .uint64 | .int64 | .double => 8

mutual
inductive DataType where
  | primary (kind : Primary)
  | compound (size : Nat) (fieldList : FieldList)
inductive FieldList where
  | nil
  | cons (name : List Byte) (type : DataType) (offset : Nat) (dim : DimType) (rest : FieldList)
end

/-- `DataType::Field` -/
structure Field where
  name : List Byte
  type : DataType
  offset : Nat
  dim : DimType

namespace DataType

def size : DataType → Nat
  | .primary kind => kind.size
  | .compound size _ => size

def isPrimary : DataType → Bool
  | .primary _ => true
  | .compound _ _ => false

/-! ### The walk -/

/-- The class an `Iterator` is instantiated with. `C` is its own state, copied where
the source passes it by value, and `W` what its methods change elsewhere. -/
structure Visitor (C W : Type) where
  newVariable : DataType → DimType → (dimIdx elemIdx offset : Nat) → C → W → Bool × C × W
  newDimension : DataType → DimType → (dimIdx elemIdx offset : Nat) → C → W → C × W
  newField : Field → (offset : Nat) → C → W → C × W
  copy : C → C

namespace Iterator

variable {C W : Type} (v : Visitor C W)

/-- The loop of `iterateDims` with `left` of its rounds to go. -/
def iterateDims (dtype : DataType) (dim : DimType) (dimIdx dtypeSize : Nat)
    (dispatch : (elemIdx : Nat) → C → (offset : Nat) → W → W) :
    (left i : Nat) → C → (offset : Nat) → W → W
  | 0, _, _, _, w => w
  | left + 1, i, c, offset, w =>
      let next := v.newDimension dtype dim dimIdx i offset c w
      let w := dispatch i (v.copy next.1) offset next.2
      iterateDims dtype dim dimIdx dtypeSize dispatch left (i + 1) next.1 (offset + dtypeSize) w

/-- `dispatch` inside one type: `unwalked` are the dimensions from `dimIdx` on, and
`iterateFields` is what is done to an element. -/
def dispatchDims (dtype : DataType) (dim : DimType) (iterateFields : C → (offset : Nat) → W → W) :
    (unwalked : List Nat) → (dtypeSize dimIdx elemIdx : Nat) → C → (offset : Nat) → W → W
  | [], _, dimIdx, elemIdx, c, offset, w =>
      let result := v.newVariable dtype dim dimIdx elemIdx offset c w
      if result.1 then result.2.2 else iterateFields result.2.1 offset result.2.2
  | d :: rest, dtypeSize, dimIdx, elemIdx, c, offset, w =>
      let result := v.newVariable dtype dim dimIdx elemIdx offset c w
      if result.1 then result.2.2
      else if !dim.isScalar then
        iterateDims v dtype dim (dimIdx + 1) (dtypeSize / d)
          (fun i c offset w =>
            dispatchDims dtype dim iterateFields rest (dtypeSize / d) (dimIdx + 1) i c offset w)
          d 0 result.2.1 offset result.2.2
      else iterateFields result.2.1 offset result.2.2

mutual
def dispatch : DataType → (dtypeSize : Nat) → DimType → C → (offset : Nat) → W → W
  | .primary kind, dtypeSize, dim, c, offset, w =>
      dispatchDims v (.primary kind) dim (fun _ _ w => w) dim.dims dtypeSize 0 0 c offset w
  | .compound size fieldList, dtypeSize, dim, c, offset, w =>
      dispatchDims v (.compound size fieldList) dim
        (fun c offset w => iterateFields fieldList c offset w) dim.dims dtypeSize 0 0 c offset w
def iterateFields : FieldList → C → (offset : Nat) → W → W
  | .nil, _, _, w => w
  | .cons name type fieldOffset dim rest, c, offset, w =>
      let next := v.newField ⟨name, type, fieldOffset, dim⟩ (offset + fieldOffset) c w
      let w := dispatch type type.size dim (v.copy next.1) (offset + fieldOffset) next.2
      iterateFields rest next.1 offset w
end

/-- `DataType::Iterator<C>(dtype, dim, c)` -/
def iterate (dtype : DataType) (dim : DimType) (c : C) (w : W) : W :=
  dispatch v dtype (dtype.size * dim.nelem) dim (v.copy c) 0 w

end Iterator
end DataType
end PdServ
