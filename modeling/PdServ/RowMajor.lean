import PdServ.DataType
import Mathlib.Algebra.BigOperators.Group.List.Basic
import Mathlib.Algebra.Order.BigOperators.GroupWithZero.List
import Mathlib.Tactic.Ring

/-!
The offsets the walk over a data type hands to `newVariable`, against the layout of
C: a path of array indices and fields selects a sub-object, whose offset is the sum
of what the steps of the path skip. The walk starts a field with the size of one
element instead of the size of the field, so arrays inside compounds come out wrong.
-/

namespace PdServ

namespace DimType

/-- Truncating after every factor is truncating the product. -/
theorem foldl_truncated (dims : List Nat) (n : Nat) :
    dims.foldl (fun n d => n * d % 2 ^ 32) (n % 2 ^ 32) = n * dims.prod % 2 ^ 32 := by
  induction dims generalizing n with
  | nil => simp
  | cons d rest ih =>
      rw [List.foldl_cons, List.prod_cons, ← Nat.mul_assoc, ← ih (n * d), Nat.mod_mul_mod]

theorem nelem_eq (dim : DimType) : dim.nelem = dim.dims.prod % 2 ^ 32 := by
  have truncated := foldl_truncated dim.dims 1
  rw [Nat.one_mul] at truncated
  exact truncated

theorem product_ne_one (dim : DimType) (array : dim.nelem ≠ 1) : dim.dims.prod ≠ 1 := by
  intro one
  apply array
  rw [nelem_eq, one]
  rfl

/-- An array has a dimension with a second element. -/
theorem exists_second (dims : List Nat) (positive : ∀ d ∈ dims, 0 < d)
    (several : dims.prod ≠ 1) : ∃ d ∈ dims, 2 ≤ d := by
  induction dims with
  | nil => exact absurd rfl several
  | cons d rest ih =>
      by_cases first : 2 ≤ d
      · exact ⟨d, List.mem_cons_self, first⟩
      · have one : d = 1 := by
          have above := positive d List.mem_cons_self
          omega
        have others : rest.prod ≠ 1 := by
          intro same
          apply several
          rw [List.prod_cons, one, same]
        obtain ⟨e, member, second⟩ :=
          ih (fun x member => positive x (List.mem_cons_of_mem d member)) others
        exact ⟨e, List.mem_cons_of_mem d member, second⟩

end DimType

namespace DataType

open DimType Iterator

/-! ### Paths -/

inductive Step where
  /-- element `i` of an array whose elements have `subArray` bytes each -/
  | index (subArray i : Nat)
  | field (offset : Nat)
deriving DecidableEq, Repr

def Step.skips : Step → Nat
  | .index subArray i => i * subArray
  | .field offset => offset

/-- The offset of the sub-object at the end of a path. -/
def rowMajor (path : List Step) : Nat := (path.map Step.skips).sum

theorem rowMajor_snoc (path : List Step) (step : Step) :
    rowMajor (path ++ [step]) = rowMajor path + step.skips := by
  simp [rowMajor]

/-! ### Following the walk -/

/-- A visitor's state together with the path walked so far. -/
structure Traced (C : Type) where
  inner : C
  path : List Step
  here : Option Step
deriving DecidableEq

/-- One call of `newVariable`: where the walk is and the offset it is told. -/
structure Call where
  path : List Step
  offset : Nat
deriving DecidableEq, Repr

/-- The visitor `v`, with its calls of `newVariable` recorded. The size of the
sub-array behind an index is that of C: the product of the dimensions to come. -/
def Visitor.traced {C W : Type} (v : Visitor C W) : Visitor (Traced C) (W × List Call) where
  newVariable := fun dtype dim dimIdx elemIdx offset c w =>
    let result := v.newVariable dtype dim dimIdx elemIdx offset c.inner w.1
    (result.1, { c with inner := result.2.1 }, (result.2.2, w.2 ++ [⟨c.path, offset⟩]))
  newDimension := fun dtype dim dimIdx elemIdx offset c w =>
    let result := v.newDimension dtype dim dimIdx elemIdx offset c.inner w.1
    ({ c with
      inner := result.1
      here := some (.index (dtype.size * (dim.dims.drop dimIdx).prod) elemIdx) },
      (result.2, w.2))
  newField := fun field offset c w =>
    let result := v.newField field offset c.inner w.1
    ({ c with inner := result.1, here := some (.field field.offset) }, (result.2, w.2))
  copy := fun c => ⟨v.copy c.inner, c.path ++ c.here.toList, none⟩

section TracedVisitor

variable {C W : Type} (v : Visitor C W) (dtype : DataType) (dim : DimType) (field : Field)
  (dimIdx elemIdx offset : Nat) (c : Traced C) (w : W × List Call)

@[simp] theorem traced_newVariable_stops :
    (v.traced.newVariable dtype dim dimIdx elemIdx offset c w).1 =
      (v.newVariable dtype dim dimIdx elemIdx offset c.inner w.1).1 := rfl

@[simp] theorem traced_newVariable_inner :
    (v.traced.newVariable dtype dim dimIdx elemIdx offset c w).2.1.inner =
      (v.newVariable dtype dim dimIdx elemIdx offset c.inner w.1).2.1 := rfl

@[simp] theorem traced_newVariable_outside :
    (v.traced.newVariable dtype dim dimIdx elemIdx offset c w).2.2.1 =
      (v.newVariable dtype dim dimIdx elemIdx offset c.inner w.1).2.2 := rfl

@[simp] theorem traced_newVariable_log :
    (v.traced.newVariable dtype dim dimIdx elemIdx offset c w).2.2.2 = w.2 ++ [⟨c.path, offset⟩] :=
  rfl

@[simp] theorem traced_newVariable_path :
    (v.traced.newVariable dtype dim dimIdx elemIdx offset c w).2.1.path = c.path := rfl

@[simp] theorem traced_newDimension_log :
    (v.traced.newDimension dtype dim dimIdx elemIdx offset c w).2.2 = w.2 := rfl

@[simp] theorem traced_newDimension_path :
    (v.traced.newDimension dtype dim dimIdx elemIdx offset c w).1.path = c.path := rfl

@[simp] theorem traced_dimension_path :
    (v.traced.copy (v.traced.newDimension dtype dim dimIdx elemIdx offset c w).1).path =
      c.path ++ [.index (dtype.size * (dim.dims.drop dimIdx).prod) elemIdx] := rfl

@[simp] theorem traced_newField_log : (v.traced.newField field offset c w).2.2 = w.2 := rfl

@[simp] theorem traced_newField_path : (v.traced.newField field offset c w).1.path = c.path := rfl

@[simp] theorem traced_field_path :
    (v.traced.copy (v.traced.newField field offset c w).1).path =
      c.path ++ [.field field.offset] := rfl

end TracedVisitor

/-- The calls of `newVariable` in a walk with visitor `v`. -/
def calls {C W : Type} (v : Visitor C W) (dtype : DataType) (dim : DimType) (c : C) (w : W) :
    List Call :=
  (iterate v.traced dtype dim ⟨c, [], none⟩ (w, [])).2

def Right (log : List Call) : Prop := ∀ call ∈ log, call.offset = rowMajor call.path

/-- Every call of every visitor is told the offset of the layout of C. -/
def OffsetsRowMajor (dtype : DataType) (dim : DimType) : Prop :=
  ∀ (C W : Type) (v : Visitor C W) (c : C) (w : W), Right (calls v dtype dim c w)

/-- Whether the fields of a type are scalars throughout; the elements of an array
without bytes all lie at the same offset. -/
def scalarFields : DataType → Prop
  | .primary _ => True
  | .compound _ fieldList => scalar fieldList
where
  scalar : FieldList → Prop
    | .nil => True
    | .cons _ type _ dim rest =>
        (dim.nelem = 1 ∨ type.size = 0) ∧ scalarFields type ∧ scalar rest

/-! ### Recording does not change the walk -/

section Observation

variable {C W : Type} (v : Visitor C W)

theorem iterateDims_observed (dtype : DataType) (dim : DimType) (dimIdx dtypeSize : Nat)
    (dispatch : Nat → Traced C → Nat → W × List Call → W × List Call)
    (plain : Nat → C → Nat → W → W)
    (same : ∀ i c offset w, (dispatch i c offset w).1 = plain i c.inner offset w.1)
    (left i : Nat) (c : Traced C) (offset : Nat) (w : W × List Call) :
    (iterateDims v.traced dtype dim dimIdx dtypeSize dispatch left i c offset w).1 =
      iterateDims v dtype dim dimIdx dtypeSize plain left i c.inner offset w.1 := by
  induction left generalizing i c offset w with
  | zero => rfl
  | succ left ih =>
      rw [iterateDims, iterateDims, ih, same]
      rfl

theorem dispatchDims_observed (dtype : DataType) (dim : DimType)
    (fields : Traced C → Nat → W × List Call → W × List Call) (plain : C → Nat → W → W)
    (same : ∀ c offset w, (fields c offset w).1 = plain c.inner offset w.1)
    (unwalked : List Nat) (dtypeSize dimIdx elemIdx : Nat) (c : Traced C) (offset : Nat)
    (w : W × List Call) :
    (dispatchDims v.traced dtype dim fields unwalked dtypeSize dimIdx elemIdx c offset w).1 =
      dispatchDims v dtype dim plain unwalked dtypeSize dimIdx elemIdx c.inner offset w.1 := by
  induction unwalked generalizing dtypeSize dimIdx elemIdx c offset w with
  | nil =>
      by_cases stops : (v.newVariable dtype dim dimIdx elemIdx offset c.inner w.1).1 = true
      · simp [dispatchDims, stops]
      · simp [dispatchDims, stops, same]
  | cons d rest ih =>
      have rounds := iterateDims_observed v dtype dim (dimIdx + 1) (dtypeSize / d)
        (fun i c offset w => dispatchDims v.traced dtype dim fields rest (dtypeSize / d) (dimIdx + 1)
          i c offset w)
        (fun i c offset w => dispatchDims v dtype dim plain rest (dtypeSize / d) (dimIdx + 1)
          i c offset w) (fun i c offset w => ih _ _ i c offset w)
      by_cases stops : (v.newVariable dtype dim dimIdx elemIdx offset c.inner w.1).1 = true
      · simp [dispatchDims, stops]
      · by_cases scalar : dim.isScalar = true
        · simp [dispatchDims, stops, scalar, same]
        · simp [dispatchDims, stops, scalar, rounds]

mutual
theorem dispatch_observed (dtype : DataType) (dtypeSize : Nat) (dim : DimType) (c : Traced C)
    (offset : Nat) (w : W × List Call) :
    (dispatch v.traced dtype dtypeSize dim c offset w).1 =
      dispatch v dtype dtypeSize dim c.inner offset w.1 := by
  cases dtype with
  | primary kind =>
      rw [dispatch, dispatch]
      exact dispatchDims_observed v _ _ _ _ (fun _ _ _ => rfl) _ _ _ _ _ _ _
  | compound size fieldList =>
      rw [dispatch, dispatch]
      exact dispatchDims_observed v _ _ _ _
        (fun c offset w => iterateFields_observed fieldList c offset w) _ _ _ _ _ _ _
theorem iterateFields_observed (fieldList : FieldList) (c : Traced C) (offset : Nat)
    (w : W × List Call) :
    (iterateFields v.traced fieldList c offset w).1 =
      iterateFields v fieldList c.inner offset w.1 := by
  cases fieldList with
  | nil => rfl
  | cons name type fieldOffset dim rest =>
      rw [iterateFields, iterateFields, iterateFields_observed, dispatch_observed]
      rfl
end

theorem iterate_observed (dtype : DataType) (dim : DimType) (c : C) (w : W) :
    (iterate v.traced dtype dim ⟨c, [], none⟩ (w, [])).1 = iterate v dtype dim c w :=
  dispatch_observed v dtype _ dim _ 0 _

end Observation

/-! ### Where the offsets are right -/

section Forward

variable {C W : Type} (v : Visitor C W)

theorem right_snoc {log : List Call} (call : Call) (right : Right log)
    (same : call.offset = rowMajor call.path) : Right (log ++ [call]) := by
  intro other member
  rcases List.mem_append.mp member with earlier | last
  · exact right other earlier
  · rw [List.mem_singleton.mp last]
    exact same

theorem iterateDims_right (dtype : DataType) (dim : DimType) (dimIdx dtypeSize : Nat)
    (dispatch : Nat → Traced C → Nat → W × List Call → W × List Call)
    (stride : dtypeSize = dtype.size * (dim.dims.drop dimIdx).prod)
    (keeps : ∀ i c offset w, offset = rowMajor c.path → Right w.2 →
      Right (dispatch i c offset w).2)
    (left i : Nat) (c : Traced C) (offset : Nat) (w : W × List Call)
    (here : offset = rowMajor c.path + i * dtypeSize) (right : Right w.2) :
    Right (iterateDims v.traced dtype dim dimIdx dtypeSize dispatch left i c offset w).2 := by
  induction left generalizing i c offset w with
  | zero => exact right
  | succ left ih =>
      rw [iterateDims]
      apply ih
      · rw [traced_newDimension_path, here]
        ring
      · apply keeps
        · rw [traced_dimension_path, rowMajor_snoc, here, stride]
          rfl
        · exact right

theorem dispatchDims_right (dtype : DataType) (dim : DimType)
    (fields : Traced C → Nat → W × List Call → W × List Call)
    (keeps : ∀ c offset w, offset = rowMajor c.path → Right w.2 → Right (fields c offset w).2)
    (unwalked : List Nat) (dtypeSize dimIdx elemIdx : Nat) (c : Traced C) (offset : Nat)
    (w : W × List Call) (behind : unwalked = dim.dims.drop dimIdx)
    (stride : dim.isScalar = true ∨ dtypeSize = dtype.size * unwalked.prod)
    (here : offset = rowMajor c.path) (right : Right w.2) :
    Right (dispatchDims v.traced dtype dim fields unwalked dtypeSize dimIdx elemIdx c offset w).2 := by
  induction unwalked generalizing dtypeSize dimIdx elemIdx c offset w with
  | nil =>
      have logged := right_snoc ⟨c.path, offset⟩ right here
      simp only [dispatchDims]
      split
      · exact logged
      · exact keeps _ _ _ here logged
  | cons d rest ih =>
      have logged := right_snoc ⟨c.path, offset⟩ right here
      simp only [dispatchDims]
      split
      · exact logged
      · by_cases scalar : dim.isScalar = true
        · rw [if_neg (by simp [scalar])]
          exact keeps _ _ _ here logged
        · rw [if_pos (by simpa using scalar)]
          have exact_size := stride.resolve_left scalar
          have member : d ∈ dim.dims := by
            apply List.mem_of_mem_drop (i := dimIdx)
            rw [← behind]
            exact List.mem_cons_self
          have next : rest = dim.dims.drop (dimIdx + 1) := by
            rw [← List.tail_drop, ← behind]
            rfl
          have divided : dtypeSize / d = dtype.size * rest.prod := by
            rw [exact_size, List.prod_cons, Nat.mul_left_comm]
            exact Nat.mul_div_cancel_left _ (dim.positive d member)
          apply iterateDims_right
          · rw [divided, next]
          · intro i c offset w here right
            exact ih _ _ _ _ _ _ next (Or.inr divided) here right
          · simpa using here
          · exact logged

mutual
theorem dispatch_right (dtype : DataType) (scalar : scalarFields dtype) (dtypeSize : Nat)
    (dim : DimType) (stride : dim.isScalar = true ∨ dtypeSize = dtype.size * dim.dims.prod)
    (c : Traced C) (offset : Nat) (w : W × List Call) (here : offset = rowMajor c.path)
    (right : Right w.2) : Right (dispatch v.traced dtype dtypeSize dim c offset w).2 := by
  cases dtype with
  | primary kind =>
      rw [dispatch]
      exact dispatchDims_right v _ _ _ (fun _ _ _ _ right => right) _ _ _ _ _ _ _ rfl stride here
        right
  | compound size fieldList =>
      rw [dispatch]
      exact dispatchDims_right v _ _ _
        (fun c offset w here right => iterateFields_right fieldList scalar c offset w here right)
        _ _ _ _ _ _ _ rfl stride here right
theorem iterateFields_right (fieldList : FieldList) (scalar : scalarFields.scalar fieldList)
    (c : Traced C) (offset : Nat) (w : W × List Call) (here : offset = rowMajor c.path)
    (right : Right w.2) : Right (iterateFields v.traced fieldList c offset w).2 := by
  cases fieldList with
  | nil => exact right
  | cons name type fieldOffset dim rest =>
      obtain ⟨one, inside, others⟩ := scalar
      have stride : dim.isScalar = true ∨ type.size = type.size * dim.dims.prod := by
        rcases one with single | empty
        · exact Or.inl ((isScalar_iff dim).mpr single)
        · exact Or.inr (by rw [empty, Nat.zero_mul])
      rw [iterateFields]
      refine iterateFields_right rest others _ _ _ here ?_
      apply dispatch_right type inside _ _ stride
      · rw [traced_field_path, rowMajor_snoc, here]
        rfl
      · exact right
end

end Forward

/-! ### Where they are not -/

section Backward

variable {C W : Type} (v : Visitor C W)

theorem iterateDims_grows (dtype : DataType) (dim : DimType) (dimIdx dtypeSize : Nat)
    (dispatch : Nat → Traced C → Nat → W × List Call → W × List Call)
    (grows : ∀ i c offset w, w.2 <+: (dispatch i c offset w).2)
    (left i : Nat) (c : Traced C) (offset : Nat) (w : W × List Call) :
    w.2 <+: (iterateDims v.traced dtype dim dimIdx dtypeSize dispatch left i c offset w).2 := by
  induction left generalizing i c offset w with
  | zero => exact List.prefix_refl _
  | succ left ih =>
      rw [iterateDims, ← traced_newDimension_log v dtype dim dimIdx i offset c w]
      exact (grows i _ offset _).trans (ih (i + 1) _ _ _)

/-- What the log holds after round `k` of the loop is still there at its end. -/
theorem iterateDims_round (dtype : DataType) (dim : DimType) (dimIdx dtypeSize : Nat)
    (dispatch : Nat → Traced C → Nat → W × List Call → W × List Call)
    (grows : ∀ i c offset w, w.2 <+: (dispatch i c offset w).2)
    (left k i : Nat) (round : k < left) (c : Traced C) (offset : Nat) (w : W × List Call) :
    ∃ c' w', c'.path = c.path ++
        [.index (dtype.size * (dim.dims.drop dimIdx).prod) (i + k)] ∧
      (dispatch (i + k) c' (offset + k * dtypeSize) w').2 <+:
        (iterateDims v.traced dtype dim dimIdx dtypeSize dispatch left i c offset w).2 := by
  induction k generalizing left i c offset w with
  | zero =>
      obtain ⟨left, rfl⟩ := Nat.exists_eq_succ_of_ne_zero (Nat.ne_of_gt round)
      rw [iterateDims, Nat.zero_mul, Nat.add_zero, Nat.add_zero]
      exact ⟨_, _, traced_dimension_path v dtype dim dimIdx i offset c w,
        iterateDims_grows v dtype dim dimIdx dtypeSize dispatch grows left (i + 1) _ _ _⟩
  | succ k ih =>
      obtain ⟨left, rfl⟩ := Nat.exists_eq_succ_of_ne_zero (Nat.ne_of_gt (Nat.zero_lt_of_lt round))
      rw [iterateDims]
      obtain ⟨c', w', path, before⟩ := ih left (i + 1) (Nat.lt_of_succ_lt_succ round)
        (v.traced.newDimension dtype dim dimIdx i offset c w).1 (offset + dtypeSize)
        (dispatch i (v.traced.copy (v.traced.newDimension dtype dim dimIdx i offset c w).1) offset
          (v.traced.newDimension dtype dim dimIdx i offset c w).2)
      refine ⟨c', w', ?_, ?_⟩
      · rw [path, traced_newDimension_path, Nat.add_assoc, Nat.add_comm 1 k]
      · have index : i + 1 + k = i + (k + 1) := by omega
        have place : offset + dtypeSize + k * dtypeSize = offset + (k + 1) * dtypeSize := by ring
        rw [index, place] at before
        exact before

theorem dispatchDims_grows (dtype : DataType) (dim : DimType)
    (fields : Traced C → Nat → W × List Call → W × List Call)
    (grows : ∀ c offset w, w.2 <+: (fields c offset w).2)
    (unwalked : List Nat) (dtypeSize dimIdx elemIdx : Nat) (c : Traced C) (offset : Nat)
    (w : W × List Call) :
    w.2 ++ [⟨c.path, offset⟩] <+:
      (dispatchDims v.traced dtype dim fields unwalked dtypeSize dimIdx elemIdx c offset w).2 := by
  induction unwalked generalizing dtypeSize dimIdx elemIdx c offset w with
  | nil =>
      rw [← traced_newVariable_log v dtype dim dimIdx elemIdx offset c w, dispatchDims]
      split
      · exact List.prefix_refl _
      · exact grows _ _ _
  | cons d rest ih =>
      rw [← traced_newVariable_log v dtype dim dimIdx elemIdx offset c w, dispatchDims]
      split
      · exact List.prefix_refl _
      · split
        · apply iterateDims_grows
          intro i c offset w
          exact (List.prefix_append _ _).trans (ih _ _ _ _ _ _)
        · exact grows _ _ _

mutual
theorem dispatch_grows (dtype : DataType) (dtypeSize : Nat) (dim : DimType) (c : Traced C)
    (offset : Nat) (w : W × List Call) :
    w.2 <+: (dispatch v.traced dtype dtypeSize dim c offset w).2 := by
  cases dtype with
  | primary kind =>
      rw [dispatch]
      exact (List.prefix_append _ _).trans
        (dispatchDims_grows v _ _ _ (fun _ _ _ => List.prefix_refl _) _ _ _ _ _ _ _)
  | compound size fieldList =>
      rw [dispatch]
      exact (List.prefix_append _ _).trans
        (dispatchDims_grows v _ _ _ (fun c offset w => iterateFields_grows fieldList c offset w)
          _ _ _ _ _ _ _)
theorem iterateFields_grows (fieldList : FieldList) (c : Traced C) (offset : Nat)
    (w : W × List Call) : w.2 <+: (iterateFields v.traced fieldList c offset w).2 := by
  cases fieldList with
  | nil => exact List.prefix_refl _
  | cons name type fieldOffset dim rest =>
      rw [iterateFields, ← traced_newField_log v ⟨name, type, fieldOffset, dim⟩
        (offset + fieldOffset) c w]
      exact (dispatch_grows type _ _ _ _ _).trans (iterateFields_grows rest _ _ _)
end

theorem right_earlier {log later : List Call} (grows : log <+: later) (right : Right later) :
    Right log := fun call member => right call (grows.subset member)

/-- The visitor that walks on everywhere. -/
def walksOn : Visitor Unit Unit where
  newVariable := fun _ _ _ _ _ _ _ => (false, (), ())
  newDimension := fun _ _ _ _ _ _ _ => ((), ())
  newField := fun _ _ _ _ => ((), ())
  copy := fun _ => ()

abbrev Walk := Traced Unit → Nat → Unit × List Call → Unit × List Call

/-- Where the running size falls short of the sub-array, the second element of some
dimension is told a wrong offset. -/
theorem short_stride_wrong (dtype : DataType) (dim : DimType) (fields : Walk)
    (grows : ∀ c offset w, w.2 <+: (fields c offset w).2) (array : dim.isScalar = false)
    (unwalked : List Nat) (dtypeSize dimIdx elemIdx : Nat) (c : Traced Unit) (offset : Nat)
    (w : Unit × List Call) (behind : unwalked = dim.dims.drop dimIdx)
    (short : dtypeSize < dtype.size * unwalked.prod) (second : ∃ d ∈ unwalked, 2 ≤ d)
    (here : offset = rowMajor c.path) :
    ¬ Right (dispatchDims walksOn.traced dtype dim fields unwalked dtypeSize dimIdx elemIdx c
      offset w).2 := by
  induction unwalked generalizing dtypeSize dimIdx elemIdx c offset w with
  | nil =>
      obtain ⟨d, member, _⟩ := second
      simp at member
  | cons d rest ih =>
      intro right
      have shape : dispatchDims walksOn.traced dtype dim fields (d :: rest) dtypeSize dimIdx elemIdx
          c offset w = iterateDims walksOn.traced dtype dim (dimIdx + 1) (dtypeSize / d)
          (fun i c offset w => dispatchDims walksOn.traced dtype dim fields rest (dtypeSize / d)
            (dimIdx + 1) i c offset w) d 0 c offset (w.1, w.2 ++ [⟨c.path, offset⟩]) := by
        rw [dispatchDims, array]
        rfl
      rw [shape] at right
      have member : d ∈ dim.dims := by
        apply List.mem_of_mem_drop (i := dimIdx)
        rw [← behind]
        exact List.mem_cons_self
      have next : rest = dim.dims.drop (dimIdx + 1) := by
        rw [← List.tail_drop, ← behind]
        rfl
      have falls_short : dtypeSize / d < dtype.size * rest.prod := by
        apply Nat.div_lt_of_lt_mul
        rw [List.prod_cons, Nat.mul_left_comm] at short
        exact short
      have rounds_grow : ∀ (i : Nat) (c : Traced Unit) (offset : Nat) (w : Unit × List Call),
          w.2 <+: (dispatchDims walksOn.traced dtype dim fields rest (dtypeSize / d) (dimIdx + 1)
            i c offset w).2 := fun i c offset w =>
        (List.prefix_append _ _).trans (dispatchDims_grows walksOn dtype dim fields grows _ _ _ _ _ _ _)
      by_cases several : 2 ≤ d
      · obtain ⟨c', w', path, before⟩ := iterateDims_round walksOn dtype dim (dimIdx + 1)
          (dtypeSize / d) _ rounds_grow d 1 0 several c offset (w.1, w.2 ++ [⟨c.path, offset⟩])
        have told := (dispatchDims_grows walksOn dtype dim fields grows rest (dtypeSize / d)
          (dimIdx + 1) (0 + 1) c' (offset + 1 * (dtypeSize / d)) w').trans before
        have same := right_earlier told right ⟨c'.path, offset + 1 * (dtypeSize / d)⟩ (by simp)
        simp only [path, rowMajor_snoc, Step.skips, ← next, here] at same
        omega
      · have one : d = 1 := by
          have above := dim.positive d member
          omega
        subst one
        obtain ⟨c', w', path, before⟩ := iterateDims_round walksOn dtype dim (dimIdx + 1)
          (dtypeSize / 1) _ rounds_grow 1 0 0 Nat.one_pos c offset
          (w.1, w.2 ++ [⟨c.path, offset⟩])
        have later : ∃ d ∈ rest, 2 ≤ d := by
          obtain ⟨e, inside, big⟩ := second
          rcases List.mem_cons.mp inside with same | other
          · omega
          · exact ⟨e, other, big⟩
        apply ih _ _ _ c' _ w' next falls_short later _ (right_earlier before right)
        rw [path, rowMajor_snoc, here]
        simp [Step.skips]

/-- The walk that never stops gets to the fields of the first element. -/
theorem dispatchDims_reaches (dtype : DataType) (dim : DimType) (fields : Walk)
    (grows : ∀ c offset w, w.2 <+: (fields c offset w).2) (unwalked : List Nat)
    (dtypeSize dimIdx elemIdx : Nat) (c : Traced Unit) (offset : Nat) (w : Unit × List Call)
    (positive : ∀ d ∈ unwalked, 0 < d) (here : offset = rowMajor c.path) :
    ∃ c' offset' w', offset' = rowMajor c'.path ∧ (fields c' offset' w').2 <+:
      (dispatchDims walksOn.traced dtype dim fields unwalked dtypeSize dimIdx elemIdx c
        offset w).2 := by
  induction unwalked generalizing dtypeSize dimIdx elemIdx c offset w with
  | nil =>
      rw [dispatchDims]
      exact ⟨_, offset, _, here, List.prefix_refl _⟩
  | cons d rest ih =>
      rw [dispatchDims]
      by_cases scalar : dim.isScalar = true
      · rw [if_neg (by simp [walksOn, Visitor.traced]), if_neg (by simp [scalar])]
        exact ⟨_, offset, _, here, List.prefix_refl _⟩
      · rw [if_neg (by simp [walksOn, Visitor.traced]), if_pos (by simpa using scalar)]
        obtain ⟨c', w', path, before⟩ := iterateDims_round walksOn dtype dim (dimIdx + 1)
          (dtypeSize / d) (fun i c offset w => dispatchDims walksOn.traced dtype dim fields rest
            (dtypeSize / d) (dimIdx + 1) i c offset w)
          (fun i c offset w => (List.prefix_append _ _).trans
            (dispatchDims_grows walksOn dtype dim fields grows _ _ _ _ _ _ _))
          d 0 0 (positive d List.mem_cons_self)
          (walksOn.traced.newVariable dtype dim dimIdx elemIdx offset c w).2.1 offset
          (walksOn.traced.newVariable dtype dim dimIdx elemIdx offset c w).2.2
        have first : offset + 0 * (dtypeSize / d) = rowMajor c'.path := by
          rw [path, rowMajor_snoc, traced_newVariable_path, here]
          simp [Step.skips]
        obtain ⟨last, offset', w'', place, reached⟩ := ih (dtypeSize / d) (dimIdx + 1) (0 + 0) c'
          (offset + 0 * (dtypeSize / d)) w' (fun e member => positive e (List.mem_cons_of_mem d member))
          first
        exact ⟨last, offset', w'', place, reached.trans before⟩

/-- Inside one type, `dispatch` is the walk over its dimensions. -/
theorem dispatch_dims (dtype : DataType) (dim : DimType) :
    ∃ fields : Walk, (∀ c offset w, w.2 <+: (fields c offset w).2) ∧
      ∀ dtypeSize c offset w, dispatch walksOn.traced dtype dtypeSize dim c offset w =
        dispatchDims walksOn.traced dtype dim fields dim.dims dtypeSize 0 0 c offset w := by
  cases dtype with
  | primary kind =>
      exact ⟨fun _ _ w => w, fun _ _ _ => List.prefix_refl _, fun _ _ _ _ => by rw [dispatch]⟩
  | compound size fieldList =>
      exact ⟨fun c offset w => iterateFields walksOn.traced fieldList c offset w,
        fun c offset w => iterateFields_grows walksOn fieldList c offset w,
        fun _ _ _ _ => by rw [dispatch]⟩

/-- Started with fewer bytes than the array has, the walk goes wrong. -/
theorem short_size_wrong (dtype : DataType) (dim : DimType) (dtypeSize : Nat)
    (array : dim.nelem ≠ 1) (short : dtypeSize < dtype.size * dim.dims.prod) (c : Traced Unit)
    (offset : Nat) (w : Unit × List Call) (here : offset = rowMajor c.path) :
    ¬ Right (dispatch walksOn.traced dtype dtypeSize dim c offset w).2 := by
  obtain ⟨fields, grows, same⟩ := dispatch_dims dtype dim
  have several : dim.isScalar = false := by
    rw [Bool.eq_false_iff]
    exact fun scalar => array ((isScalar_iff dim).mp scalar)
  have second := exists_second dim.dims dim.positive (product_ne_one dim array)
  rw [same]
  exact short_stride_wrong dtype dim fields grows several dim.dims dtypeSize 0 0 c offset w rfl
    short second here

mutual
theorem dispatch_scalar (dtype : DataType) (dtypeSize : Nat) (dim : DimType) (c : Traced Unit)
    (offset : Nat) (w : Unit × List Call) (here : offset = rowMajor c.path)
    (right : Right (dispatch walksOn.traced dtype dtypeSize dim c offset w).2) :
    scalarFields dtype := by
  cases dtype with
  | primary kind => trivial
  | compound size fieldList =>
      rw [dispatch] at right
      obtain ⟨c', offset', w', place, reached⟩ := dispatchDims_reaches (compound size fieldList) dim
        (fun c offset w => iterateFields walksOn.traced fieldList c offset w)
        (fun c offset w => iterateFields_grows walksOn fieldList c offset w) dim.dims dtypeSize 0 0
        c offset w dim.positive here
      exact iterateFields_scalar fieldList c' offset' w' place (right_earlier reached right)
theorem iterateFields_scalar (fieldList : FieldList) (c : Traced Unit) (offset : Nat)
    (w : Unit × List Call) (here : offset = rowMajor c.path)
    (right : Right (iterateFields walksOn.traced fieldList c offset w).2) :
    scalarFields.scalar fieldList := by
  cases fieldList with
  | nil => trivial
  | cons name type fieldOffset dim rest =>
      rw [iterateFields] at right
      have inside := right_earlier (iterateFields_grows walksOn rest _ _ _) right
      have place : offset + fieldOffset = rowMajor (walksOn.traced.copy (walksOn.traced.newField
          ⟨name, type, fieldOffset, dim⟩ (offset + fieldOffset) c w).1).path := by
        rw [traced_field_path, rowMajor_snoc, here]
        rfl
      refine ⟨?_, dispatch_scalar type _ _ _ _ _ place inside, ?_⟩
      · by_contra neither
        rw [not_or] at neither
        obtain ⟨array, bytes⟩ := neither
        apply short_size_wrong type dim type.size array _ _ _ _ place inside
        have several := product_ne_one dim array
        have some : 0 < dim.dims.prod := List.prod_pos dim.positive
        exact (Nat.lt_mul_iff_one_lt_right (Nat.pos_of_ne_zero bytes)).mpr (by omega)
      · refine iterateFields_scalar rest _ offset _ ?_ right
        exact here
end

end Backward

/-! ### When the offsets are those of C -/

/-- Exactly when the fields are scalars throughout and the number of elements of the
variable itself was not truncated. -/
theorem offsets_rowMajor_iff (dtype : DataType) (dim : DimType) :
    OffsetsRowMajor dtype dim ↔
      (dim.nelem = 1 ∨ dtype.size = 0 ∨ dim.dims.prod < 2 ^ 32) ∧ scalarFields dtype := by
  constructor
  · intro correct
    have right := correct Unit Unit walksOn () ()
    refine ⟨?_, dispatch_scalar dtype _ _ _ _ _ rfl right⟩
    by_contra neither
    rw [not_or, not_or, Nat.not_lt] at neither
    obtain ⟨array, bytes, large⟩ := neither
    apply short_size_wrong dtype dim _ array _ _ _ _ rfl right
    apply Nat.mul_lt_mul_of_pos_left _ (Nat.pos_of_ne_zero bytes)
    rw [nelem_eq]
    exact Nat.lt_of_lt_of_le (Nat.mod_lt _ (by decide)) large
  · rintro ⟨whole, scalar⟩ C W v c w
    apply dispatch_right v dtype scalar _ dim
    · rcases whole with one | empty | fits
      · exact Or.inl ((isScalar_iff dim).mpr one)
      · exact Or.inr (by rw [empty, Nat.zero_mul, Nat.zero_mul])
      · exact Or.inr (by rw [nelem_eq, Nat.mod_eq_of_lt fits])
    · rfl
    · intro call member
      simp at member

/-- `struct s1 { double d[5]; char c; }` of the server's own test. -/
def s1 : DataType :=
  .compound 48 (.cons (ascii "d") (.primary .double) 0 ⟨[5], DimType.positive_five⟩
    (.cons (ascii "c") (.primary .int8) 40 .single .nil))

instance (log : List Call) : Decidable (Right log) :=
  inferInstanceAs (Decidable (∀ call ∈ log, call.offset = rowMajor call.path))

/-- The elements of `d` are told the offsets 0, 1, 2, 3 and 4. -/
theorem offsets_of_s1_wrong : ¬ ∀ dtype dim, OffsetsRowMajor dtype dim := by
  intro claim
  have right := claim s1 .single Unit Unit walksOn () ()
  exact absurd right (by decide)

end DataType
end PdServ
