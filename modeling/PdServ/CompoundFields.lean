import PdServ.VariableAttributes
import PdServ.XmlDocument

/-!
`Variable::addCompoundFields` of `src/src/msrproto/Variable.cpp`: a compound type is
described by one child for each of its fields, with the fields of a field inside of it.
The attributes of the type are written through the element around the field, which shares
the stream with it.
-/

namespace PdServ
open XmlParser
open Scan (Entry)
open XmlElement (TagForm Children Content escape escapes escape_other setEscaped)

namespace Variable

mutual
def addCompoundFields (element : XmlElement) : DataType → XmlElement
  | .primary _ => element
  | .compound _ fieldList => addFields element fieldList
def addFields (element : XmlElement) : FieldList → XmlElement
  | .nil => element
  | .cons name type offset dim rest =>
      let (element, field) := element.createChild (ascii "field")
      let field := field.writeAttribute (ascii "name") name
      let field := field.insertAttribute (ascii "offset") (digits offset)
      -- behind the attributes of the field, not those of the element
      let element := setDataType { element with os := field.os } type dim
      let field := addCompoundFields { field with os := element.os } type
      addFields { element with os := field.close } rest
end

/-! ### The fields of a type -/

mutual
/-- The fields in the order in which a reader meets them. -/
def fieldsOf : DataType → List Field
  | .primary _ => []
  | .compound _ fieldList => listOf fieldList
def listOf : FieldList → List Field
  | .nil => []
  | .cons name type offset dim rest => ⟨name, type, offset, dim⟩ :: (fieldsOf type ++ listOf rest)
end

mutual
/-- No name of a field holds a NUL. -/
def Named : DataType → Prop
  | .primary _ => True
  | .compound _ fieldList => NamedList fieldList
def NamedList : FieldList → Prop
  | .nil => True
  | .cons name type _ _ rest => (∀ c ∈ name, c ≠ Chr.nul) ∧ Named type ∧ NamedList rest
end

mutual
instance namedDecidable : (dtype : DataType) → Decidable (Named dtype)
  | .primary _ => .isTrue trivial
  | .compound _ fieldList => namedListDecidable fieldList
instance namedListDecidable : (fieldList : FieldList) → Decidable (NamedList fieldList)
  | .nil => .isTrue trivial
  | .cons name type _ _ rest =>
      have := namedDecidable type
      have := namedListDecidable rest
      inferInstanceAs (Decidable ((∀ c ∈ name, c ≠ Chr.nul) ∧ Named type ∧ NamedList rest))
end

theorem Fixed.escaped {str : List Byte} (fixed : Fixed str) : setEscaped str = str := by
  induction str with
  | nil => rfl
  | cons c rest ih =>
      have head : escape c = [c] := by
        apply escape_other
        intro special
        have capital := fixed c List.mem_cons_self
        simp only [escapes, List.map_cons, List.map_nil, List.mem_cons, List.not_mem_nil,
          or_false] at special
        rcases special with rfl | rfl | rfl | rfl | rfl <;> revert capital <;> decide
      have tail := ih fun x member => fixed x (List.mem_cons_of_mem c member)
      rw [setEscaped] at tail ⊢
      rw [List.flatMap_cons, head, tail]
      rfl

def fixedContent (y : Entry) (fixed : Fixed y.2) : Content where
  name := y.1
  str := y.2
  plain := by
    intro c member none
    subst none
    exact fixed.plain.2.2 member

def typeContents (type : DataType) (dim : DimType) : List Content :=
  (typeEntries type dim).attach.map fun y => fixedContent y.1 (typeEntries_cases y.2).1

theorem isalpha_o : isalpha 111 = true := by decide

namespace Key
def offset : NameForm := ⟨111, ascii "ffset", isalpha_o, by decide⟩
end Key

def fieldTag : TagForm := ⟨⟨102, ascii "ield", by decide, by decide⟩, by decide⟩

def fieldContents (field : Field) (plain : ∀ c ∈ field.name, c ≠ Chr.nul) : List Content :=
  ⟨Key.name, field.name, plain⟩ :: fixedContent (Key.offset, digits field.offset) (fixed_digits _) ::
    typeContents field.type field.dim

mutual
def childrenOf : (dtype : DataType) → Named dtype → Children
  | .primary _, _ => .none
  | .compound _ fieldList, named => fieldChildren fieldList named
def fieldChildren : (fieldList : FieldList) → NamedList fieldList → Children
  | .nil, _ => .none
  | .cons name type offset dim rest, named =>
      .element fieldTag (fieldContents ⟨name, type, offset, dim⟩ named.1)
        (childrenOf type named.2.1) (fieldChildren rest named.2.2)
end

theorem insertAttribute_fixed (e : XmlElement) (y : Entry) (fixed : Fixed y.2) :
    e.insertAttribute y.1.bytes y.2 =
      e.writeAttribute (fixedContent y fixed).name.bytes (fixedContent y fixed).str := by
  rw [writeAttribute_escaped, fixedContent, fixed.escaped]

theorem setDataType_contents (e : XmlElement) (type : DataType) (dim : DimType) :
    setDataType e type dim = e.writeAttributes (typeContents type dim) := by
  have all (entries : List Entry) (fixed : ∀ y ∈ entries, Fixed y.2) (e : XmlElement) :
      insertAll e entries = e.writeAttributes
        (entries.attach.map fun y => fixedContent y.1 (fixed y.1 y.2)) := by
    induction entries generalizing e with
    | nil => rfl
    | cons y rest ih =>
        have later := ih (fun x member => fixed x (List.mem_cons_of_mem y member))
          (e.insertAttribute y.1.bytes y.2)
        rw [insertAll, List.foldl_cons, ← insertAll, later,
          insertAttribute_fixed e y (fixed y List.mem_cons_self)]
        simp [XmlElement.writeAttributes, List.foldl_map, List.attach_cons]
  rw [setDataType_entries]
  exact all _ (fun y member => (typeEntries_cases member).1) e

/-! ### The children that are written -/

/-- Attributes end up behind what the stream holds, through whichever element they go. -/
theorem writeAttributes_shared (element field : XmlElement) (attributes : List Content) :
    { field with os := (({ element with os := field.os } : XmlElement).writeAttributes attributes).os } =
      field.writeAttributes attributes := by
  rw [XmlElement.writeAttributes_text, XmlElement.writeAttributes_text]

theorem writeAttributes_os_only (element : XmlElement) (attributes : List Content)
    (os : List Byte) :
    { element.writeAttributes attributes with os := os } = { element with os := os } := by
  rw [XmlElement.writeAttributes_text]

mutual
theorem addCompoundFields_children (e : XmlElement) :
    (dtype : DataType) → (named : Named dtype) →
      addCompoundFields e dtype = e.writeChildren (childrenOf dtype named)
  | .primary _, _ => rfl
  | .compound _ fieldList, named => addFields_children e fieldList named
theorem addFields_children (e : XmlElement) :
    (fieldList : FieldList) → (named : NamedList fieldList) →
      addFields e fieldList = e.writeChildren (fieldChildren fieldList named)
  | .nil, _ => rfl
  | .cons name type offset dim rest, named => by
      have attributes (field : XmlElement) :
          (((field.writeAttribute (ascii "name") name).insertAttribute (ascii "offset")
            (digits offset)).writeAttributes (typeContents type dim)) =
          field.writeAttributes (fieldContents ⟨name, type, offset, dim⟩ named.1) := by
        have offsetText := insertAttribute_fixed (field.writeAttribute (ascii "name") name)
          (Key.offset, digits offset) (fixed_digits offset)
        exact congrArg (fun e => e.writeAttributes (typeContents type dim)) offsetText
      rw [addFields, fieldChildren, XmlElement.writeChildren]
      simp only [setDataType_contents, writeAttributes_shared, writeAttributes_os_only, attributes]
      rw [addCompoundFields_children _ type named.2.1, addFields_children _ rest named.2.2]
      rfl
end

/-! ### What is read of them -/

mutual
theorem childrenOf_shown : (dtype : DataType) → (named : Named dtype) →
    List.Forall₂ (fun shown field => ∃ plain, shown = (fieldTag, fieldContents field plain))
      (childrenOf dtype named).shown (fieldsOf dtype)
  | .primary _, _ => .nil
  | .compound _ fieldList, named => fieldChildren_shown fieldList named
theorem fieldChildren_shown : (fieldList : FieldList) → (named : NamedList fieldList) →
    List.Forall₂ (fun shown field => ∃ plain, shown = (fieldTag, fieldContents field plain))
      (fieldChildren fieldList named).shown (listOf fieldList)
  | .nil, _ => .nil
  | .cons _ type _ _ rest, named =>
      .cons ⟨named.1, rfl⟩ (List.rel_append (childrenOf_shown type named.2.1)
        (fieldChildren_shown rest named.2.2))
end

end Variable
end PdServ
