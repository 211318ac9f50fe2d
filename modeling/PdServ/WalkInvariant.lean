import PdServ.DataType

/-!
What a walk over the elements of a type keeps: if no method of the visitor breaks it,
the whole walk does not.
-/

namespace PdServ.DataType.Iterator

variable {C W : Type} {v : Visitor C W}

/-- `Own` holds of the visitor's own state and `Keep` of what it changes elsewhere. -/
structure Keeps (v : Visitor C W) (Own : C → Prop) (Keep : W → Prop) : Prop where
  newVariable : ∀ dtype dim dimIdx elemIdx offset c w, Own c → Keep w →
    Own (v.newVariable dtype dim dimIdx elemIdx offset c w).2.1 ∧
      Keep (v.newVariable dtype dim dimIdx elemIdx offset c w).2.2
  newDimension : ∀ dtype dim dimIdx elemIdx offset c w, Own c → Keep w →
    Own (v.newDimension dtype dim dimIdx elemIdx offset c w).1 ∧
      Keep (v.newDimension dtype dim dimIdx elemIdx offset c w).2
  newField : ∀ field offset c w, Own c → Keep w →
    Own (v.newField field offset c w).1 ∧ Keep (v.newField field offset c w).2
  copy : ∀ c, Own c → Own (v.copy c)

namespace Keeps

variable {Own : C → Prop} {Keep : W → Prop}

theorem iterateDims (keeps : Keeps v Own Keep) {dtype : DataType} {dim : DimType}
    {dimIdx dtypeSize : Nat} {dispatch : Nat → C → Nat → W → W}
    (each : ∀ i c offset w, Own c → Keep w → Keep (dispatch i c offset w))
    (left i : Nat) {c : C} (offset : Nat) {w : W} (own : Own c) (kept : Keep w) :
    Keep (Iterator.iterateDims v dtype dim dimIdx dtypeSize dispatch left i c offset w) := by
  induction left generalizing i c offset w with
  | zero => exact kept
  | succ left ih =>
      obtain ⟨own, kept⟩ := keeps.newDimension dtype dim dimIdx i offset c w own kept
      exact ih _ _ own (each _ _ _ _ (keeps.copy _ own) kept)

theorem dispatchDims (keeps : Keeps v Own Keep) {dtype : DataType} {dim : DimType}
    {fields : C → Nat → W → W} (each : ∀ c offset w, Own c → Keep w → Keep (fields c offset w))
    (unwalked : List Nat) (dtypeSize dimIdx elemIdx : Nat) {c : C} (offset : Nat) {w : W}
    (own : Own c) (kept : Keep w) :
    Keep (Iterator.dispatchDims v dtype dim fields unwalked dtypeSize dimIdx elemIdx c offset w) := by
  induction unwalked generalizing dtypeSize dimIdx elemIdx c offset w with
  | nil =>
      obtain ⟨own, kept⟩ := keeps.newVariable dtype dim dimIdx elemIdx offset c w own kept
      rw [Iterator.dispatchDims]
      split
      · exact kept
      · exact each _ _ _ own kept
  | cons d rest ih =>
      obtain ⟨own, kept⟩ := keeps.newVariable dtype dim dimIdx elemIdx offset c w own kept
      rw [Iterator.dispatchDims]
      split
      · exact kept
      · split
        · exact keeps.iterateDims (fun i c offset w own kept => ih _ _ i offset own kept) d 0 _ own kept
        · exact each _ _ _ own kept

mutual
theorem dispatch (keeps : Keeps v Own Keep) (dtype : DataType) (dtypeSize : Nat) (dim : DimType)
    {c : C} (offset : Nat) {w : W} (own : Own c) (kept : Keep w) :
    Keep (Iterator.dispatch v dtype dtypeSize dim c offset w) := by
  cases dtype with
  | primary kind =>
      rw [Iterator.dispatch]
      exact keeps.dispatchDims (fun _ _ _ _ kept => kept) dim.dims dtypeSize 0 0 offset own kept
  | compound size fieldList =>
      rw [Iterator.dispatch]
      exact keeps.dispatchDims
        (fun c offset w own kept => iterateFields keeps fieldList offset own kept)
        dim.dims dtypeSize 0 0 offset own kept
theorem iterateFields (keeps : Keeps v Own Keep) (fieldList : FieldList) {c : C} (offset : Nat)
    {w : W} (own : Own c) (kept : Keep w) :
    Keep (Iterator.iterateFields v fieldList c offset w) := by
  cases fieldList with
  | nil => exact kept
  | cons name type fieldOffset dim rest =>
      obtain ⟨own, kept⟩ := keeps.newField ⟨name, type, fieldOffset, dim⟩ (offset + fieldOffset) c w
        own kept
      rw [Iterator.iterateFields]
      exact iterateFields keeps rest offset own
        (dispatch keeps type type.size dim _ (keeps.copy _ own) kept)
end

theorem iterate (keeps : Keeps v Own Keep) (dtype : DataType) (dim : DimType) {c : C} {w : W}
    (own : Own c) (kept : Keep w) : Keep (Iterator.iterate v dtype dim c w) :=
  keeps.dispatch dtype _ dim 0 (keeps.copy c own) kept

end Keeps
end PdServ.DataType.Iterator
