import PdServ.XmlElement
import PdServ.XmlWeight
import PdServ.XmlReads
import PdServ.IntegerText
import PdServ.DirectoryNode

/-!
`Variable::setAttributes` of `src/src/msrproto/Variable.cpp`, which describes a variable
in the start tag of its element. The path is escaped; the alias and the comment, which
the application chooses as freely, are written as they are.
-/

namespace PdServ
open XmlParser Scan

/-- The life of an `Attribute` with one `operator<<`. -/
def XmlElement.insertAttribute (e : XmlElement) (name text : List Byte) : XmlElement :=
  { e with
    os := e.os ++ (Chr.space :: name ++ [Chr.equals, Chr.doubleQuote]) ++ text ++
      [Chr.doubleQuote] }

/-- `size() == 1` -/
def DimType.isVector (dim : DimType) : Bool := dim.dims.length == 1

/-- Every `DimType` that is no scalar has a last dimension. -/
def DimType.back (dim : DimType) : Nat := dim.dims.getLast?.getD 1

/-- `MsrProto::Variable`, with the alias and the comment of the variable behind it. -/
structure Variable where
  /-- the names of the node and of its parents, up to the root -/
  names : List Name
  index : Nat
  aliasText : List Byte
  comment : List Byte
  dtype : DataType
  dim : DimType
  childCount : Nat

/-- The elements that describe a variable. -/
inductive VariableElement where
  | channel
  | parameter
deriving DecidableEq, Repr

namespace Variable

/-- `path()`: that of the parent, and the name of the node. -/
def pathOf : List Name → List Byte
  | [] => []
  | self :: parents => pathOf parents ++ Chr.slash :: self

def path (v : Variable) : List Byte := pathOf v.names

def dtstr : DataType → List Byte
  | .primary .boolean => ascii "TCHAR"
  | .primary .uint8 => ascii "TUCHAR"
  | .primary .int8 => ascii "TCHAR"
  | .primary .uint16 => ascii "TUSHORT"
  | .primary .int16 => ascii "TSHORT"
  | .primary .uint32 => ascii "TUINT"
  | .primary .int32 => ascii "TINT"
  | .primary .uint64 => ascii "TULINT"
  | .primary .int64 => ascii "TLINT"
  | .primary .double => ascii "TDBL"
  | .primary .single => ascii "TFLT"
  | .compound _ _ => ascii "COMPOUND"

def setDataType (e : XmlElement) (dtype : DataType) (dim : DimType) : XmlElement :=
  let e := e.insertAttribute (ascii "datasize") (digits dtype.size)
  let e :=
    if !dim.isScalar then
      e.insertAttribute (ascii "typ")
        (dtstr dtype ++ if dim.isVector then ascii "_LIST" else ascii "_MATRIX")
    else e.insertAttribute (ascii "typ") (dtstr dtype)
  if !dim.isScalar then
    let e := e.insertAttribute (ascii "anz") (digits dim.nelem)
    let cnum := if dim.isVector then dim.nelem else dim.back
    let rnum := if dim.isVector then 1 else dim.nelem / cnum
    let orientation := if dim.isVector then ascii "VECTOR" else ascii "MATRIX_ROW_MAJOR"
    let e := e.insertAttribute (ascii "cnum") (digits cnum)
    let e := e.insertAttribute (ascii "rnum") (digits rnum)
    e.insertAttribute (ascii "orientation") orientation
  else e

def setAttributes (v : Variable) (e : XmlElement) (shortReply : Bool) : XmlElement :=
  let e := e.insertAttribute (ascii "index") (digits v.index)
  let e := e.writeAttribute (ascii "name") v.path
  if shortReply then e
  else
    let e := if !v.aliasText.isEmpty then e.insertAttribute (ascii "alias") v.aliasText else e
    let e := if !v.comment.isEmpty then e.insertAttribute (ascii "comment") v.comment else e
    let e := setDataType e v.dtype v.dim
    let e := if !v.comment.isEmpty then e.insertAttribute (ascii "text") v.comment else e
    if v.childCount ≠ 0 then e.insertAttribute (ascii "dir") (digits 1) else e

end Variable

def VariableElement.tag : VariableElement → NameForm
  | .channel => ⟨99, ascii "hannel", by decide, by decide⟩
  | .parameter => ⟨112, ascii "arameter", by decide, by decide⟩

namespace Variable

/-- The start tag of an element with these attributes: as it is closed without children,
or in front of the first of its fields. -/
def startTag (v : Variable) (kind : VariableElement) (level : Nat) (fields : Bool) : List Byte :=
  let e := v.setAttributes (XmlElement.new kind.tag.bytes [] level []) false
  if fields then (e.createChild (ascii "field")).1.os else e.close

/-! ### The attributes that are meant -/

theorem isalpha_i : isalpha 105 = true := by decide
theorem isalpha_n : isalpha 110 = true := by decide
theorem plain_ame : ∀ c ∈ ascii "ame",
    c ∉ [Chr.equals, Chr.space, Chr.slash, Chr.greaterThan, Chr.nul] := by decide

namespace Key
def index : NameForm := ⟨105, ascii "ndex", isalpha_i, by decide⟩
def name : NameForm := ⟨110, ascii "ame", isalpha_n, plain_ame⟩
def aliasKey : NameForm := ⟨97, ascii "lias", by decide, by decide⟩
def comment : NameForm := ⟨99, ascii "omment", by decide, by decide⟩
def datasize : NameForm := ⟨100, ascii "atasize", by decide, by decide⟩
def typ : NameForm := ⟨116, ascii "yp", by decide, by decide⟩
def anz : NameForm := ⟨97, ascii "nz", by decide, by decide⟩
def cnum : NameForm := ⟨99, ascii "num", by decide, by decide⟩
def rnum : NameForm := ⟨114, ascii "num", by decide, by decide⟩
def orientation : NameForm := ⟨111, ascii "rientation", by decide, by decide⟩
def text : NameForm := ⟨116, ascii "ext", by decide, by decide⟩
def dir : NameForm := ⟨100, ascii "ir", by decide, by decide⟩

def all : List NameForm :=
  [index, name] ++ [aliasKey] ++ [comment] ++
    ([datasize, typ] ++ [anz, cnum, rnum, orientation]) ++ [text] ++ [dir]
end Key

/-- Strings that are empty are not shown. -/
def given (name : NameForm) (str : List Byte) : List Entry :=
  if str.isEmpty then [] else [(name, str)]

def typeEntries (dtype : DataType) (dim : DimType) : List Entry :=
  let cnum := if dim.isVector then dim.nelem else dim.back
  [(Key.datasize, digits dtype.size),
    (Key.typ, dtstr dtype ++
      if dim.isScalar then [] else if dim.isVector then ascii "_LIST" else ascii "_MATRIX")] ++
  if dim.isScalar then []
  else [(Key.anz, digits dim.nelem), (Key.cnum, digits cnum),
    (Key.rnum, digits (if dim.isVector then 1 else dim.nelem / cnum)),
    (Key.orientation, if dim.isVector then ascii "VECTOR" else ascii "MATRIX_ROW_MAJOR")]

/-- What a full reply adds to the index and the name. -/
def details (v : Variable) : List Entry :=
  given Key.aliasKey v.aliasText ++ given Key.comment v.comment ++ typeEntries v.dtype v.dim ++
    given Key.text v.comment ++ if v.childCount = 0 then [] else [(Key.dir, digits 1)]

def entries (v : Variable) : List Entry :=
  [(Key.index, digits v.index), (Key.name, XmlElement.setEscaped v.path)] ++ v.details

/-- An element that shows the variable and nothing else. -/
structure ReadsBack (v : Variable) (kind : VariableElement) (e : Element) : Prop where
  tag : e.tag = .text kind.tag.bytes
  names : e.attributes.map Prod.fst =
    (kind.tag.bytes :: v.entries.map fun a => a.1.bytes).map CString.text
  name : e.getString (ascii "name") = some (some v.path)
  aliasText : e.getString (ascii "alias") =
    some (if v.aliasText = [] then none else some v.aliasText)
  comment : e.getString (ascii "comment") =
    some (if v.comment = [] then none else some v.comment)
  text : e.getString (ascii "text") = some (if v.comment = [] then none else some v.comment)

/-- No string holds a NUL. -/
structure Plain (v : Variable) : Prop where
  names : ∀ name ∈ v.names, Chr.nul ∉ name
  aliasText : Chr.nul ∉ v.aliasText
  comment : Chr.nul ∉ v.comment

/-- A string that is read as it is written without escapes: no double quote, and none of
the references that `getString` replaces. -/
def Unmarked (str : List Byte) : Prop :=
  Chr.doubleQuote ∉ str ∧ ∀ r ∈ Command.references, ¬ r.1 <:+: str

/-! ### The written text -/

theorem insertAttribute_os (e : XmlElement) (a : Entry) :
    e.insertAttribute a.1.bytes a.2 = { e with os := e.os ++ a.bytes } := by
  simp [XmlElement.insertAttribute, Entry.bytes]

def insertAll (e : XmlElement) (entries : List Entry) : XmlElement :=
  entries.foldl (fun e a => e.insertAttribute a.1.bytes a.2) e

theorem insertAll_os (entries : List Entry) (e : XmlElement) :
    insertAll e entries = { e with os := e.os ++ entries.flatMap Entry.bytes } := by
  induction entries generalizing e with
  | nil => simp [insertAll]
  | cons a rest ih =>
      have later := ih (e.insertAttribute a.1.bytes a.2)
      rw [insertAll, List.foldl_cons, ← insertAll, later, insertAttribute_os]
      simp

theorem insertAll_append (e : XmlElement) (front rest : List Entry) :
    insertAll e (front ++ rest) = insertAll (insertAll e front) rest := List.foldl_append

theorem writeAttribute_escaped (e : XmlElement) (name str : List Byte) :
    e.writeAttribute name str = e.insertAttribute name (XmlElement.setEscaped str) := rfl

theorem insertAll_given (e : XmlElement) (name : NameForm) (str : List Byte) :
    (if !str.isEmpty then e.insertAttribute name.bytes str else e) =
      insertAll e (given name str) := by
  cases str <;> rfl

theorem setDataType_entries (e : XmlElement) (dtype : DataType) (dim : DimType) :
    setDataType e dtype dim = insertAll e (typeEntries dtype dim) := by
  cases scalar : dim.isScalar with
  | true =>
      simp only [setDataType, typeEntries, scalar, Bool.not_true, Bool.false_eq_true, ↓reduceIte,
        List.append_nil]
      rfl
  | false =>
      simp only [setDataType, typeEntries, scalar, Bool.not_false, Bool.false_eq_true, ↓reduceIte]
      rfl

theorem setAttributes_entries (v : Variable) (e : XmlElement) :
    v.setAttributes e false = { e with os := e.os ++ v.entries.flatMap Entry.bytes } := by
  rw [← insertAll_os, entries, details, insertAll_append, insertAll_append, insertAll_append,
    insertAll_append, insertAll_append, ← insertAll_given, ← insertAll_given, ← insertAll_given,
    ← setDataType_entries]
  by_cases leaf : v.childCount = 0
  · rw [if_pos leaf]
    simp only [setAttributes, leaf, ne_eq, not_true_eq_false, Bool.false_eq_true, ↓reduceIte]
    rfl
  · rw [if_neg leaf]
    simp only [setAttributes, leaf, ne_eq, not_false_eq_true, Bool.false_eq_true, ↓reduceIte]
    rfl

/-- The end of the start tag. -/
def closing (fields : Bool) : List Byte :=
  (if !fields then [Chr.slash, Chr.greaterThan] else [Chr.greaterThan]) ++
    [Chr.carriageReturn, Chr.lineFeed]

theorem startTag_text (v : Variable) (kind : VariableElement) (level : Nat) (fields : Bool) :
    v.startTag kind level fields = entriesText level kind.tag v.entries (closing fields) := by
  rw [startTag, setAttributes_entries]
  cases fields <;>
    simp [XmlElement.new, XmlElement.createChild, XmlElement.close, XmlElement.writeId, closing,
      entriesText]

/-! ### What is written between the quotes -/

/-- Digits, capitals and underscores: all there is in the values that are not chosen by
the application. -/
def isFixed (c : Byte) : Bool := isdigit c || (65 ≤ c && c ≤ 90) || c == 95

def isLower (c : Byte) : Bool := 97 ≤ c && c ≤ 122

def Fixed (str : List Byte) : Prop := ∀ c ∈ str, isFixed c = true

instance (str : List Byte) : Decidable (Fixed str) := decidableForallMem str _

theorem fixed_digits (n : Nat) : Fixed (digits n) := by
  intro c member
  simp [isFixed, isdigit_digits n c member]

theorem fixed_append {front rest : List Byte} (first : Fixed front) (second : Fixed rest) :
    Fixed (front ++ rest) := by
  intro c member
  rcases List.mem_append.mp member with here | later
  · exact first c here
  · exact second c later

theorem fixed_dtstr (dtype : DataType) : Fixed (dtstr dtype) := by
  cases dtype with
  | primary kind => cases kind <;> decide
  | compound size fieldList =>
      have text : Fixed (ascii "COMPOUND") := by decide
      exact text

theorem Fixed.plain {str : List Byte} (fixed : Fixed str) :
    str.countP isLower = 0 ∧ Chr.doubleQuote ∉ str ∧ Chr.nul ∉ str := by
  refine ⟨?_, ?_, ?_⟩
  · rw [List.countP_eq_zero]
    intro c member lower
    have capital := fixed c member
    simp only [isFixed, isdigit, isLower, Bool.or_eq_true, Bool.and_eq_true, decide_eq_true_eq,
      beq_iff_eq] at capital lower
    have above : (97 : Byte) ≤ c := lower.1
    rcases capital with ((⟨-, small⟩ | ⟨-, small⟩) | under)
    · exact absurd (UInt8.le_trans above small) (by decide)
    · exact absurd (UInt8.le_trans above small) (by decide)
    · rw [under] at above
      exact absurd above (by decide)
  · intro member
    exact absurd (fixed _ member) (by decide)
  · intro member
    exact absurd (fixed _ member) (by decide)

/-- The keys whose values the application does not choose, besides `index`. -/
def fixedKeys : List NameForm :=
  [Key.datasize, Key.typ, Key.anz, Key.cnum, Key.rnum, Key.orientation, Key.dir]

theorem given_cases {name : NameForm} {str : List Byte} {y : Entry} (member : y ∈ given name str) :
    y = (name, str) ∧ str ≠ [] := by
  cases str with
  | nil => cases member
  | cons c rest => exact ⟨List.mem_singleton.mp member, by simp⟩

theorem typeEntries_cases {dtype : DataType} {dim : DimType} {y : Entry}
    (member : y ∈ typeEntries dtype dim) : Fixed y.2 ∧ y.1 ∈ fixedKeys := by
  have suffix : Fixed (if dim.isScalar then [] else
      if dim.isVector then ascii "_LIST" else ascii "_MATRIX") := by
    split
    · exact fun c member => absurd member (by simp)
    · split <;> decide
  have orientation : Fixed (if dim.isVector then ascii "VECTOR" else ascii "MATRIX_ROW_MAJOR") := by
    split <;> decide
  rw [typeEntries, List.mem_append] at member
  rcases member with always | shaped
  · simp only [List.mem_cons, List.not_mem_nil, or_false] at always
    rcases always with rfl | rfl
    · exact ⟨fixed_digits _, by simp [fixedKeys]⟩
    · exact ⟨fixed_append (fixed_dtstr dtype) suffix, by simp [fixedKeys]⟩
  · cases scalar : dim.isScalar with
    | true => simp [scalar] at shaped
    | false =>
        simp only [scalar, Bool.false_eq_true, ↓reduceIte, List.mem_cons, List.not_mem_nil,
          or_false] at shaped
        rcases shaped with rfl | rfl | rfl | rfl
        · exact ⟨fixed_digits _, by simp [fixedKeys]⟩
        · exact ⟨fixed_digits _, by simp [fixedKeys]⟩
        · exact ⟨fixed_digits _, by simp [fixedKeys]⟩
        · exact ⟨orientation, by simp [fixedKeys]⟩

/-- The strings chosen by the application, under their keys. -/
def chosen (v : Variable) : List Entry :=
  [(Key.aliasKey, v.aliasText), (Key.comment, v.comment), (Key.text, v.comment)]

/-- Where the application chooses the value, and where it does not. -/
theorem details_cases {v : Variable} {y : Entry} (member : y ∈ v.details) :
    (y ∈ v.chosen ∧ y.2 ≠ []) ∨ (Fixed y.2 ∧ y.1 ∈ fixedKeys) := by
  have optional {name : NameForm} {str : List Byte} (listed : (name, str) ∈ v.chosen)
      (here : y ∈ given name str) : y ∈ v.chosen ∧ y.2 ≠ [] := by
    obtain ⟨rfl, some⟩ := given_cases here
    exact ⟨listed, some⟩
  simp only [details, List.mem_append] at member
  rcases member with (((named | commented) | typed) | text) | dir
  · exact .inl (optional (by simp [chosen]) named)
  · exact .inl (optional (by simp [chosen]) commented)
  · exact .inr (typeEntries_cases typed)
  · exact .inl (optional (by simp [chosen]) text)
  · split at dir
    · cases dir
    · rw [List.mem_singleton.mp dir]
      exact .inr ⟨fixed_digits 1, by simp [fixedKeys]⟩

theorem given_sublist (name : NameForm) (str : List Byte) :
    ((given name str).map Prod.fst).Sublist [name] := by
  cases str with
  | nil => exact List.nil_sublist _
  | cons c rest => exact List.Sublist.refl _

theorem typeEntries_sublist (dtype : DataType) (dim : DimType) :
    ((typeEntries dtype dim).map Prod.fst).Sublist
      ([Key.datasize, Key.typ] ++ [Key.anz, Key.cnum, Key.rnum, Key.orientation]) := by
  rw [typeEntries, List.map_append]
  refine (List.Sublist.refl _).append ?_
  cases dim.isScalar with
  | true => exact List.nil_sublist _
  | false => exact List.Sublist.refl _

theorem keys_sublist (v : Variable) : (v.entries.map Prod.fst).Sublist Key.all := by
  have dir : ((if v.childCount = 0 then [] else [(Key.dir, digits 1)] : List Entry).map
      Prod.fst).Sublist [Key.dir] := by
    split
    · exact List.nil_sublist _
    · exact List.Sublist.refl _
  simp only [entries, details, Key.all, List.map_append]
  have pieces := ((((given_sublist Key.aliasKey v.aliasText).append
    (given_sublist Key.comment v.comment)).append (typeEntries_sublist v.dtype v.dim)).append
    (given_sublist Key.text v.comment)).append dir
  have whole := (List.Sublist.refl [Key.index, Key.name]).append pieces
  simpa [List.append_assoc] using whole

/-- The tag and the keys are told apart by `find`, whatever their case. -/
theorem keys_apart (kind : VariableElement) :
    (kind.tag.bytes :: Key.all.map NameForm.bytes).Nodup ∧
    ∀ n ∈ kind.tag.bytes :: Key.all.map NameForm.bytes,
      ∀ k ∈ kind.tag.bytes :: Key.all.map NameForm.bytes, strcasecmp n k = true → k = n := by
  cases kind <;> exact ⟨by decide, by decide⟩

def tagAndKeys (v : Variable) (kind : VariableElement) : List (List Byte) :=
  kind.tag.bytes :: v.entries.map fun a => a.1.bytes

theorem tagAndKeys_sublist (v : Variable) (kind : VariableElement) :
    (v.tagAndKeys kind).Sublist (kind.tag.bytes :: Key.all.map NameForm.bytes) := by
  have keys := (keys_sublist v).map NameForm.bytes
  rw [List.map_map] at keys
  exact keys.cons_cons _

theorem tagAndKeys_single (v : Variable) (kind : VariableElement) : (v.tagAndKeys kind).Nodup :=
  (tagAndKeys_sublist v kind).nodup (keys_apart kind).1

theorem tagAndKeys_apart (v : Variable) (kind : VariableElement) {key : NameForm}
    (known : key ∈ Key.all) :
    ∀ n ∈ v.tagAndKeys kind, strcasecmp key.bytes n = true → n = key.bytes :=
  fun n member => (keys_apart kind).2 key.bytes
    (List.mem_cons_of_mem _ (List.mem_map_of_mem known)) n
    ((tagAndKeys_sublist v kind).subset member)

/-! ### The parser reads it -/

end Variable

/-- A parser between two elements that holds the text in one piece, still unread. -/
structure XmlParser.Holds (s : XmlParser) (text : List Byte) : Prop where
  state : s.parseState = .FindElementStart
  position : s.parsePos ≤ s.inputEnd
  unread : s.unread = text

theorem XmlParser.Holds.rel {s : XmlParser} {text : List Byte} (holds : s.Holds text) :
    Rel False s (s.data.take s.parsePos) text .text := by
  refine ⟨⟨?_, ?_⟩, holds.state⟩
  · rw [← holds.unread, XmlParser.unread, List.take_append_drop]
  · rw [List.length_take]
    exact (Nat.min_eq_left holds.position).symm

/-- A fresh parser that takes the whole text with one `read`. -/
theorem XmlParser.read_holds (bufMax : Nat) (text : List Byte)
    (whole : ((XmlParser.new bufMax).read text).1 = text.length) :
    ((XmlParser.new bufMax).read text).2.Holds text := by
  rcases read_cases (XmlParser.new bufMax) text with ⟨-, -, -, reads⟩ | ⟨t, room, reads⟩
  · rw [reads] at whole ⊢
    have none : text = [] := List.eq_nil_of_length_eq_zero whole.symm
    exact ⟨rfl, Nat.le_refl _, by rw [none]; rfl⟩
  · have empty : t.data = [] ∧ t.parsePos = 0 ∧ t.parseState = .FindElementStart := by
      cases room <;> exact ⟨rfl, rfl, rfl⟩
    rw [reads] at whole ⊢
    dsimp only at whole ⊢
    rw [whole]
    refine ⟨empty.2.2, ?_, ?_⟩
    · simp [append, empty.2.1]
    · simp [append, XmlParser.unread, empty.1, empty.2.1]

/-- What a parser makes of a text it holds is what the text stands for. -/
theorem XmlParser.Holds.drain_iff {s : XmlParser} {text : List Byte} (holds : s.Holds text)
    (shows : Element → Prop) :
    (∃ e t, s.drain = some ([e], t) ∧ shows e) ↔
      ∃ done, (run .text text).1 = [done] ∧ shows (readElement done) := by
  obtain ⟨elements, t, drains, reads, -, -⟩ := drain_spec holds.rel
  have same := elements_of_reads reads
  rw [drains]
  constructor
  · rintro ⟨e, t', equal, shown⟩
    cases equal
    obtain ⟨done, shape, rfl⟩ := List.map_eq_singleton_iff.mp same.symm
    exact ⟨done, shape, shown⟩
  · rintro ⟨done, shape, shown⟩
    rw [shape] at same
    exact ⟨readElement done, t, by rw [same]; rfl, shown⟩

namespace Variable

theorem pathOf_plain {names : List Name} (plain : ∀ name ∈ names, Chr.nul ∉ name) :
    Chr.nul ∉ pathOf names := by
  induction names with
  | nil => simp [pathOf]
  | cons self parents ih =>
      have above := ih fun name member => plain name (List.mem_cons_of_mem self member)
      have here := plain self List.mem_cons_self
      have slash : Chr.nul ≠ Chr.slash := by decide
      simp [pathOf, above, here, slash]

theorem escaped_plain {v : Variable} (plain : v.Plain) :
    Chr.doubleQuote ∉ XmlElement.setEscaped v.path ∧ Chr.nul ∉ XmlElement.setEscaped v.path := by
  have quiet := XmlElement.setEscaped_quiet v.path fun c member nul =>
    pathOf_plain plain.names (nul ▸ member)
  constructor
  · intro member
    exact absurd (quiet _ member) (by decide)
  · intro member
    exact absurd (quiet _ member) (by decide)

theorem first_quiet {v : Variable} (plain : v.Plain) :
    ∀ y ∈ [(Key.index, digits v.index), (Key.name, XmlElement.setEscaped v.path)],
      Chr.doubleQuote ∉ y.2 := by
  simp only [List.forall_mem_cons, List.not_mem_nil, false_implies, implies_true, and_true]
  exact ⟨(fixed_digits _).plain.2.1, (escaped_plain plain).1⟩

theorem entries_defined {v : Variable} (plain : v.Plain) {y : Entry} (member : y ∈ v.entries) :
    Chr.nul ∉ y.2 := by
  rcases List.mem_append.mp member with first | later
  · simp only [List.mem_cons, List.not_mem_nil, or_false] at first
    rcases first with rfl | rfl
    · exact (fixed_digits _).plain.2.2
    · exact (escaped_plain plain).2
  · rcases details_cases later with ⟨listed, -⟩ | ⟨fixed, -⟩
    · simp only [chosen, List.mem_cons, List.not_mem_nil, or_false] at listed
      rcases listed with rfl | rfl | rfl
      · exact plain.aliasText
      · exact plain.comment
      · exact plain.comment
    · exact fixed.plain.2.2

/-- The element that is meant, with its values as they are written. -/
def raw (v : Variable) (kind : VariableElement) : List RawAttribute :=
  (kind.tag.bytes, none) :: v.entries.map Entry.raw

theorem run_startTag (v : Variable) (kind : VariableElement) (level : Nat) (fields : Bool)
    (quiet : ∀ a ∈ v.entries, Chr.doubleQuote ∉ a.2) :
    (run .text (v.startTag kind level fields)).1 = [v.raw kind] := by
  obtain ⟨b, behind, closed, reads⟩ := run_entriesText level kind.tag v.entries quiet
    (closing fields)
  have ends := behind_closing behind 0 (!fields) [Chr.carriageReturn, Chr.lineFeed]
    fun _ unquoted => absurd (closed.symm.trans unquoted) Bool.false_ne_true
  rw [List.replicate_zero, List.nil_append] at ends
  have other : isTls ((kind.tag.bytes, none) :: v.entries.map Entry.raw) = false := by
    cases kind <;> rfl
  rw [startTag_text, reads, closing, ends, finish, other]
  rfl

/-- Nothing of it is cut off, as nothing holds a NUL. -/
theorem cut_raw {v : Variable} (plain : v.Plain) (kind : VariableElement) :
    (v.raw kind).map cutAttribute = v.raw kind := by
  rw [raw, List.map_cons, cutAttribute, takeWhile_defined (name_defined _), List.map_map]
  congr 1
  apply List.map_congr_left
  intro y member
  exact cutAttribute_raw (entries_defined plain member)

theorem raw_names (v : Variable) (kind : VariableElement) :
    (v.raw kind).map Prod.fst = v.tagAndKeys kind := by
  simp [raw, tagAndKeys, Entry.raw]

theorem getString_entry {v : Variable} (kind : VariableElement) {key : NameForm} {str : List Byte}
    (known : key ∈ Key.all) (member : (key, str) ∈ v.entries) :
    Command.getString (v.raw kind) key.bytes = some (Command.unescape str.length str) := by
  have listed : (key.bytes, some str) ∈ v.raw kind :=
    List.mem_cons_of_mem _ (List.mem_map_of_mem member)
  have found : Command.find (v.raw kind) key.bytes = some (some str) := by
    apply Command.find_of_mem listed
    · rw [raw_names]
      exact tagAndKeys_single v kind
    · rw [raw_names]
      exact tagAndKeys_apart v kind known
  rw [Command.getString, found]

theorem getString_absent {v : Variable} (kind : VariableElement) {key : NameForm}
    (known : key ∈ Key.all) (absent : key.bytes ∉ v.tagAndKeys kind) :
    Command.getString (v.raw kind) key.bytes = none := by
  have nothing : Command.find (v.raw kind) key.bytes = none := by
    apply Command.find_of_absent
    · rw [raw_names]
      exact absent
    · rw [raw_names]
      exact tagAndKeys_apart v kind known
  rw [Command.getString, nothing]

theorem chosen_present {v : Variable} {y : Entry} (listed : y ∈ v.chosen) (some : y.2 ≠ []) :
    y ∈ v.entries := by
  apply List.mem_append_right
  simp only [chosen, List.mem_cons, List.not_mem_nil, or_false] at listed
  rcases listed with rfl | rfl | rfl <;> simp [details, given, some]

/-- An optional key is there only with its string. -/
theorem chosen_absent {v : Variable} (kind : VariableElement) {y : Entry} (listed : y ∈ v.chosen)
    (empty : y.2 = []) : y.1.bytes ∉ v.tagAndKeys kind := by
  have single : (v.chosen.map fun a => a.1.bytes).Nodup := by
    have keys : [Key.aliasKey.bytes, Key.comment.bytes, Key.text.bytes].Nodup := by decide
    exact keys
  have others : y.1.bytes ∉ kind.tag.bytes :: [Key.index, Key.name].map NameForm.bytes ∧
      y.1.bytes ∉ fixedKeys.map NameForm.bytes := by
    have keys : ∀ n ∈ [Key.aliasKey.bytes, Key.comment.bytes, Key.text.bytes],
        n ∉ kind.tag.bytes :: [Key.index, Key.name].map NameForm.bytes ∧
          n ∉ fixedKeys.map NameForm.bytes := by
      cases kind <;> decide
    exact keys _ (List.mem_map_of_mem (f := fun a : Entry => a.1.bytes) listed)
  intro member
  rcases List.mem_cons.mp member with tag | key
  · exact absurd (by simp [tag]) others.1
  · obtain ⟨z, inside, same⟩ := List.mem_map.mp key
    rcases List.mem_append.mp inside with first | later
    · have early : z.1.bytes ∈ [Key.index, Key.name].map NameForm.bytes := by
        simp only [List.mem_cons, List.not_mem_nil, or_false] at first
        rcases first with rfl | rfl <;> simp
      rw [same] at early
      exact absurd (List.mem_cons_of_mem _ early) others.1
    · rcases details_cases later with ⟨again, some⟩ | ⟨-, fixed⟩
      · -- its key is the one of no other string
        have equal := List.inj_on_of_nodup_map single again listed same
        exact some (equal ▸ empty)
      · exact others.2 (same ▸ List.mem_map_of_mem fixed)

/-- A string of the application as it is read: the references in it are replaced. -/
theorem getString_chosen {v : Variable} (kind : VariableElement) {y : Entry}
    (listed : y ∈ v.chosen) : Command.getString (v.raw kind) y.1.bytes =
      if y.2 = [] then none else some (Command.unescape y.2.length y.2) := by
  have known : y.1 ∈ Key.all := by
    simp only [chosen, List.mem_cons, List.not_mem_nil, or_false] at listed
    rcases listed with rfl | rfl | rfl <;> simp [Key.all]
  by_cases empty : y.2 = []
  · rw [if_pos empty, getString_absent kind known (chosen_absent kind listed empty)]
  · rw [if_neg empty, getString_entry kind known (chosen_present listed empty)]

/-- The strings of an element, read through its attributes, which are those that are
meant. -/
theorem names_readElement (v : Variable) (kind : VariableElement) (done : List RawAttribute) :
    (readElement done).attributes.map Prod.fst = (v.tagAndKeys kind).map CString.text ↔
      (done.map cutAttribute).map Prod.fst = v.tagAndKeys kind := by
  have texts : (readElement done).attributes.map Prod.fst =
      ((done.map cutAttribute).map Prod.fst).map CString.text := by
    simp [readElement, readAttribute, readText, cutAttribute]
  have injective : Function.Injective CString.text := fun _ _ same => CString.text.inj same
  rw [texts]
  exact ⟨fun same => List.map_injective_iff.mpr injective same, fun same => by rw [same]⟩

theorem readsBack_iff (v : Variable) (kind : VariableElement) (e : Element) :
    v.ReadsBack kind e ↔ e.tag = .text kind.tag.bytes ∧
      e.attributes.map Prod.fst = (v.tagAndKeys kind).map CString.text ∧
      e.getString Key.name.bytes = some (some v.path) ∧
      ∀ y ∈ v.chosen, e.getString y.1.bytes = some (if y.2 = [] then none else some y.2) := by
  constructor
  · rintro ⟨tag, names, name, aliasText, comment, text⟩
    refine ⟨tag, names, name, ?_⟩
    intro y listed
    simp only [chosen, List.mem_cons, List.not_mem_nil, or_false] at listed
    rcases listed with rfl | rfl | rfl
    · exact aliasText
    · exact comment
    · exact text
  · rintro ⟨tag, names, name, strings⟩
    exact ⟨tag, names, name, strings (Key.aliasKey, v.aliasText) (by simp [chosen]),
      strings (Key.comment, v.comment) (by simp [chosen]),
      strings (Key.text, v.comment) (by simp [chosen])⟩

/-- What is read where no quote stands in the way. -/
theorem readsBack_raw {v : Variable} (plain : v.Plain) (kind : VariableElement) :
    v.ReadsBack kind (readElement (v.raw kind)) ↔
      ∀ y ∈ v.chosen, ∀ r ∈ Command.references, ¬ r.1 <:+: y.2 := by
  have command : (readElement (v.raw kind)).command = some (v.raw kind) := by
    rw [command_readElement_eq, cut_raw plain]
  have shown (key : List Byte) : (readElement (v.raw kind)).getString key =
      some (Command.getString (v.raw kind) key) := Element.getString_command key command
  have tag : (readElement (v.raw kind)).tag = .text kind.tag.bytes := by
    cases kind <;> rfl
  have names : (readElement (v.raw kind)).attributes.map Prod.fst =
      (v.tagAndKeys kind).map CString.text := by
    rw [names_readElement, cut_raw plain, raw_names]
  have name : Command.getString (v.raw kind) Key.name.bytes = some v.path := by
    -- the path is escaped
    have listed : (Key.name, XmlElement.setEscaped v.path) ∈ v.entries := by simp [entries]
    rw [getString_entry kind (by simp [Key.all]) listed,
      XmlElement.unescape_setEscaped v.path _ (Nat.le_refl _)]
  rw [readsBack_iff]
  simp only [tag, names, shown, name, true_and, Option.some.injEq]
  apply forall₂_congr
  intro y listed
  rw [getString_chosen kind listed, ← Command.unescape_eq_iff y.2.length y.2 (Nat.le_refl _)]
  by_cases empty : y.2 = []
  · simp [empty, Command.unescape]
  · simp [empty]

/-- The first value with a quote, if there is one. -/
theorem first_quote (entries : List Entry) :
    (∀ y ∈ entries, Chr.doubleQuote ∉ y.2) ∨
      ∃ front y rest, entries = front ++ y :: rest ∧ (∀ z ∈ front, Chr.doubleQuote ∉ z.2) ∧
        Chr.doubleQuote ∈ y.2 := by
  induction entries with
  | nil => exact .inl (by simp)
  | cons y others ih =>
      by_cases here : Chr.doubleQuote ∈ y.2
      · exact .inr ⟨[], y, others, rfl, by simp, here⟩
      · rcases ih with none | ⟨front, z, rest, rfl, quiet, later⟩
        · exact .inl (List.forall_mem_cons.mpr ⟨here, none⟩)
        · exact .inr ⟨y :: front, z, rest, rfl, List.forall_mem_cons.mpr ⟨here, quiet⟩, later⟩

/-- The other values hold no quote. -/
theorem entries_quiet {v : Variable} (plain : v.Plain)
    (strings : ∀ y ∈ v.chosen, Chr.doubleQuote ∉ y.2) : ∀ y ∈ v.entries, Chr.doubleQuote ∉ y.2 := by
  intro y member
  rcases List.mem_append.mp member with first | later
  · exact first_quiet plain y first
  · rcases details_cases later with ⟨listed, -⟩ | ⟨fixed, -⟩
    · exact strings y listed
    · exact fixed.plain.2.1

/-- A quote in a value that is not escaped is never read back. -/
theorem quiet_of_readsBack {v : Variable} (plain : v.Plain) (kind : VariableElement) (level : Nat)
    (fields : Bool) {done : List RawAttribute}
    (found : done ∈ (run .text (v.startTag kind level fields)).1)
    (reads : v.ReadsBack kind (readElement done)) : ∀ y ∈ v.entries, Chr.doubleQuote ∉ y.2 := by
  rcases first_quote v.details with none | ⟨front, y, rest, split, quiet, quote⟩
  · intro y member
    rcases List.mem_append.mp member with first | later
    · exact first_quiet plain y first
    · exact none y later
  · exfalso
    obtain ⟨-, names, -, strings⟩ := (readsBack_iff v kind _).mp reads
    rw [names_readElement] at names
    have shown (key : List Byte) : (readElement done).getString key =
        some (Command.getString (done.map cutAttribute) key) :=
      Element.getString_command key (command_readElement_eq done)
    have defined : Chr.nul ∉ y.2 :=
      entries_defined plain (List.mem_append_right _ (by simp [split]))
    -- what is not text of the application holds neither a quote nor a small letter
    have intended : ∀ z ∈ y :: rest, (z.2.countP isLower = 0 ∧ Chr.doubleQuote ∉ z.2) ∨
        Command.getString (done.map cutAttribute) z.1.bytes = some z.2 := by
      intro z member
      have inside : z ∈ v.details := by
        rw [split]
        exact List.mem_append_right _ member
      rcases details_cases inside with ⟨listed, some⟩ | ⟨fixed, -⟩
      · have decoded := strings z listed
        rw [shown, if_neg some] at decoded
        exact .inr (Option.some.inj decoded)
      · exact .inl ⟨fixed.plain.1, fixed.plain.2.1⟩
    obtain ⟨name, value⟩ := y
    obtain ⟨before, behind, rfl, first⟩ := List.eq_append_cons_of_mem quote
    have whole : v.entries = ([(Key.index, digits v.index),
        (Key.name, XmlElement.setEscaped v.path)] ++ front) ++
          (name, before ++ Chr.doubleQuote :: behind) :: rest := by
      rw [entries, split, List.append_assoc]
    have subset := (tagAndKeys_sublist v kind).subset
    rw [startTag_text, whole] at found
    -- so the small letters behind the quote would have to be read twice
    refine no_room isLower level kind.tag name _ rest before behind (closing fields) ?_ first ?_
      ?_ ?_ ?_ ?_ found rfl ?_ ?_ ?_ intended
    · intro z member
      rcases List.mem_append.mp member with here | later
      · exact first_quiet plain z here
      · exact quiet z later
    · exact fun nul => defined (List.mem_append_left _ nul)
    · decide
    · decide
    · cases kind <;> decide
    · cases fields <;> decide
    · rw [names, tagAndKeys, whole]
    · rw [names]
      exact tagAndKeys_single v kind
    · rw [names]
      intro n known k listed
      exact (keys_apart kind).2 n (subset known) k (subset listed)

/-- Read back in one piece, the start tag shows the variable as it is, and nothing else,
exactly when the alias and the comment need no escape. -/
theorem setAttributes_readsBack_iff (v : Variable) (plain : v.Plain) (kind : VariableElement)
    (level : Nat) (fields : Bool) {s : XmlParser} (holds : s.Holds (v.startTag kind level fields)) :
    (∃ e t, s.drain = some ([e], t) ∧ v.ReadsBack kind e) ↔
      Unmarked v.aliasText ∧ Unmarked v.comment := by
  have strings : (Unmarked v.aliasText ∧ Unmarked v.comment) ↔
      (∀ y ∈ v.chosen, Chr.doubleQuote ∉ y.2) ∧
        ∀ y ∈ v.chosen, ∀ r ∈ Command.references, ¬ r.1 <:+: y.2 := by
    simp only [Unmarked, chosen, List.forall_mem_cons, List.not_mem_nil, false_implies,
      implies_true, and_true]
    tauto
  rw [holds.drain_iff, strings]
  constructor
  · rintro ⟨done, found, reads⟩
    have quiet := quiet_of_readsBack plain kind level fields (by simp [found]) reads
    rw [run_startTag v kind level fields quiet] at found
    cases found
    refine ⟨?_, (readsBack_raw plain kind).mp reads⟩
    intro y listed quote
    have some : y.2 ≠ [] := List.ne_nil_of_mem quote
    exact quiet y (chosen_present listed some) quote
  · rintro ⟨noQuote, noReference⟩
    have quiet := entries_quiet plain noQuote
    exact ⟨v.raw kind, run_startTag v kind level fields quiet,
      (readsBack_raw plain kind).mpr noReference⟩

/-- A matrix below `/lan`, with markup in its name and in its comment. -/
def pressure : Variable where
  names := [ascii "p<1>", ascii "lan"]
  index := 30
  aliasText := ascii "p&1"
  comment := ascii "in <bar> or 'Pa'"
  dtype := .primary .double
  dim := ⟨[2, 3], by simp⟩
  childCount := 0

theorem setAttributes_readsBack_pressure :
    ∃ e t, ((XmlParser.new 8192).read (pressure.startTag .parameter 1 false)).2.drain =
      some ([e], t) ∧ pressure.ReadsBack .parameter e :=
  (setAttributes_readsBack_iff pressure ⟨by decide, by decide, by decide⟩ .parameter 1 false
    (XmlParser.read_holds 8192 _ (by decide +kernel))).mpr
    ⟨⟨by decide, by decide⟩, ⟨by decide, by decide⟩⟩

/-- The same with a comment that closes its own quotes. -/
def injected : Variable := { pressure with comment := ascii "x\" evil=\"1" }

/-- Part of the comment is read as an attribute. -/
theorem setAttributes_injects :
    ¬ ∀ (v : Variable), v.Plain → ∀ (kind : VariableElement) (level : Nat) (fields : Bool)
      (s : XmlParser), s.Holds (v.startTag kind level fields) →
      ∃ e t, s.drain = some ([e], t) ∧ v.ReadsBack kind e := by
  intro claim
  obtain ⟨e, t, drains, reads⟩ := claim injected ⟨by decide, by decide, by decide⟩ .parameter 1
    false _ (XmlParser.read_holds 8192 _ (by decide +kernel))
  have comments : (((XmlParser.new 8192).read (injected.startTag .parameter 1 false)).2.drain.map
      fun r => r.1.map fun e => e.getString (ascii "comment")) =
      some [some (some (ascii "x"))] := by decide +kernel
  rw [drains] at comments
  have short : e.getString (ascii "comment") = some (some (ascii "x")) := by simpa using comments
  have meant := reads.comment
  rw [short] at meant
  exact absurd meant (by decide)

end Variable
end PdServ
