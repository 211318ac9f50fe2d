import PdServ.XmlStream

/-!
The form of a well-formed element, as a grammar of its own, and that the first
element found in a text is the one written there. The forms carry what they may
contain, so only well-formed elements can be written down.
-/

namespace PdServ

open XmlParser Scan

/-- A tag or the name of an attribute. -/
structure NameForm where
  first : Byte
  rest : List Byte
  letter : isalpha first = true
  plain : ∀ c ∈ rest, c ∉ [Chr.equals, Chr.space, Chr.slash, Chr.greaterThan, Chr.nul]

inductive ValueForm where
  | absent
  | unquoted (first : Byte) (rest : List Byte)
      (bare : first ∉ [Chr.doubleQuote, Chr.singleQuote])
      (plain : ∀ c ∈ first :: rest, c ∉ [Chr.space, Chr.greaterThan, Chr.nul])
  | quoted (quote : Byte) (content : List Byte)
      (mark : quote ∈ [Chr.doubleQuote, Chr.singleQuote])
      (plain : ∀ c ∈ content, c ∉ [quote, Chr.nul])

/-- An attribute behind `blanks + 1` spaces. -/
structure AttributeForm where
  blanks : Nat
  name : NameForm
  value : ValueForm

def ValueForm.isUnquoted : ValueForm → Bool
  | .unquoted _ _ _ _ => true
  | _ => false

/-- Whether the text so far ends in an unquoted value, which a `/` would join. -/
def endsUnquoted (attributes : List AttributeForm) : Bool :=
  attributes.getLast?.any fun a => a.value.isUnquoted

structure ElementForm where
  tag : NameForm
  attributes : List AttributeForm
  blanks : Nat
  /-- closed by `/>` -/
  slash : Bool
  plaintext : ¬ ascii "starttls" <+: tag.first :: tag.rest
  apart : slash = true → endsUnquoted attributes = true → blanks ≠ 0

/-! ### How the forms are written -/

def NameForm.bytes (name : NameForm) : List Byte := name.first :: name.rest

def ValueForm.bytes : ValueForm → List Byte
  | .absent => []
  | .unquoted first rest _ _ => Chr.equals :: first :: rest
  | .quoted quote content _ _ => Chr.equals :: quote :: (content ++ [quote])

def AttributeForm.bytes (a : AttributeForm) : List Byte :=
  Chr.space :: (List.replicate a.blanks Chr.space ++ a.name.bytes ++ a.value.bytes)

def ElementForm.closing (e : ElementForm) : List Byte :=
  List.replicate e.blanks Chr.space ++
    (if e.slash then [Chr.slash, Chr.greaterThan] else [Chr.greaterThan])

def ElementForm.bytes (e : ElementForm) : List Byte :=
  Chr.lessThan :: (e.tag.bytes ++ e.attributes.flatMap AttributeForm.bytes ++ e.closing)

/-! ### What they stand for -/

def ValueForm.value : ValueForm → Option (List Byte)
  | .absent => none
  | .unquoted first rest _ _ => some (first :: rest)
  | .quoted _ content _ _ => some content

def AttributeForm.raw (a : AttributeForm) : RawAttribute := (a.name.bytes, a.value.value)

def AttributeForm.attribute (a : AttributeForm) : CString × CString :=
  (.text a.name.bytes, match a.value.value with
    | none => .null
    | some value => .text value)

/-- The tag comes first among the attributes, without value. -/
def ElementForm.element (e : ElementForm) : Element where
  tag := .text e.tag.bytes
  attributes := (.text e.tag.bytes, .null) :: e.attributes.map AttributeForm.attribute

def ElementForm.raw (e : ElementForm) : List RawAttribute :=
  (e.tag.bytes, none) :: e.attributes.map AttributeForm.raw

/-! ### Reading a written form -/

/-- The machine states behind a tag or an attribute. -/
inductive Behind : List RawAttribute → Scan → Prop
  | name (done : List RawAttribute) (arg : List Byte) :
      Behind (done ++ [(arg, none)]) (.name done arg)
  | unquoted (done : List RawAttribute) (arg value : List Byte) :
      Behind (done ++ [(arg, some value)]) (.unquoted done arg value)
  | closed (done : List RawAttribute) : Behind done (.closed done)

def isUnquoted : Scan → Bool
  | .unquoted _ _ _ => true
  | _ => false

theorem name_ends (name : NameForm) (c : Byte) (member : c ∈ name.bytes) :
    endsName c = false ∧ c ≠ Chr.nul := by
  rcases List.mem_cons.mp member with first | rest
  · subst first
    refine ⟨not_endsName_of_alpha name.letter, ?_⟩
    intro none
    have letter := name.letter
    rw [none] at letter
    exact absurd letter (by decide)
  · have plain := name.plain c rest
    simp only [List.mem_cons, List.not_mem_nil, or_false, not_or] at plain
    obtain ⟨equals, space, slash, greater, nul⟩ := plain
    exact ⟨by simp [endsName, equals, space, slash, greater, nul], nul⟩

theorem gap_name (done : List RawAttribute) (name : NameForm) (rest : List Byte) :
    run (.gap done) (name.bytes ++ rest) = run (.name done name.bytes) rest := by
  have inside : ∀ c ∈ name.rest, endsName c = false := fun c member =>
    (name_ends name c (List.mem_cons_of_mem _ member)).1
  have reads := run_name done [name.first] name.rest rest inside
  rw [NameForm.bytes, List.cons_append, run_cons]
  simpa [step, gapStep, name.letter, not_blank_of_alpha name.letter,
    not_slash_of_alpha name.letter] using reads

theorem name_value (done : List RawAttribute) (arg : List Byte) (value : ValueForm)
    (rest : List Byte) :
    ∃ b, Behind (done ++ [(arg, value.value)]) b ∧ isUnquoted b = value.isUnquoted ∧
      run (.name done arg) (value.bytes ++ rest) = run b rest := by
  cases value with
  | absent => exact ⟨.name done arg, .name done arg, rfl, rfl⟩
  | unquoted first others bare plain =>
      refine ⟨.unquoted done arg (first :: others), .unquoted done arg _, rfl, ?_⟩
      have mark : isQuote first = false := by simpa [isQuote] using bare
      have inside : ∀ c ∈ others, endsValue c = false := by
        intro c member
        have outside := plain c (List.mem_cons_of_mem _ member)
        simp only [List.mem_cons, List.not_mem_nil, or_false, not_or] at outside
        simp [endsValue, outside.1, outside.2.1]
      have reads := run_unquoted done arg [first] others rest inside
      simp only [ValueForm.bytes, List.cons_append, run_cons]
      simpa [step, mark, endsName] using reads
  | quoted quote content mark plain =>
      refine ⟨.closed (done ++ [(arg, some content)]), .closed (done ++ [(arg, some content)]), rfl, ?_⟩
      have opens : isQuote quote = true := by simpa [isQuote] using mark
      have inside : ∀ c ∈ content, c ≠ quote := by
        intro c member same
        exact plain c member (by simp [same])
      have reads := run_quoted quote done arg [] content (quote :: rest) inside
      simp only [ValueForm.bytes, List.cons_append, run_cons, List.append_assoc, List.nil_append]
      rw [run_cons (.quoted quote done arg ([] ++ content))] at reads
      simpa [step, opens, endsName] using reads

/-- Behind an attribute a space always leads into the gap. -/
theorem behind_space {done : List RawAttribute} {a : Scan} (behind : Behind done a)
    (rest : List Byte) : run a (Chr.space :: rest) = run (.gap done) rest := by
  cases behind with
  | name done arg => rfl
  | unquoted done arg value => rfl
  | closed done => rfl

theorem behind_attributes (attributes : List AttributeForm) {done : List RawAttribute} {a : Scan}
    (behind : Behind done a) (rest : List Byte) :
    ∃ b, Behind (done ++ attributes.map AttributeForm.raw) b ∧
      isUnquoted b = (if attributes = [] then isUnquoted a else endsUnquoted attributes) ∧
      run a (attributes.flatMap AttributeForm.bytes ++ rest) = run b rest := by
  induction attributes generalizing done a with
  | nil => exact ⟨a, by simpa using behind, rfl, rfl⟩
  | cons entry others ih =>
      obtain ⟨b, after, kind, reads⟩ := name_value done entry.name.bytes entry.value
        (others.flatMap AttributeForm.bytes ++ rest)
      obtain ⟨r, last, kind', later⟩ := ih after
      refine ⟨r, by simpa [AttributeForm.raw] using last, ?_, ?_⟩
      · rw [kind']
        cases others with
        | nil => simp [endsUnquoted, kind]
        | cons next more => simp [endsUnquoted]
      · have blanks := run_spaces done (List.replicate entry.blanks Chr.space)
          (entry.name.bytes ++ (entry.value.bytes ++
            (others.flatMap AttributeForm.bytes ++ rest))) (by simp)
        simp only [List.flatMap_cons, AttributeForm.bytes, List.cons_append, List.append_assoc]
        rw [behind_space behind, blanks, gap_name, reads, later]

theorem gap_closing (done : List RawAttribute) (slash : Bool) (rest : List Byte) :
    run (.gap done) ((if slash then [Chr.slash, Chr.greaterThan] else [Chr.greaterThan]) ++ rest) =
      ((finish done).2.toList ++ (run (finish done).1 rest).1, (run (finish done).1 rest).2) := by
  cases slash with
  | false => rfl
  | true => rfl

theorem behind_closing {done : List RawAttribute} {a : Scan} (behind : Behind done a)
    (blanks : Nat) (slash : Bool) (rest : List Byte)
    (apart : slash = true → isUnquoted a = true → blanks ≠ 0) :
    run a ((List.replicate blanks Chr.space ++
      (if slash then [Chr.slash, Chr.greaterThan] else [Chr.greaterThan])) ++ rest) =
      ((finish done).2.toList ++ (run (finish done).1 rest).1, (run (finish done).1 rest).2) := by
  cases blanks with
  | succ blanks =>
      rw [List.replicate_succ, List.cons_append, List.cons_append, behind_space behind,
        List.append_assoc, run_spaces done _ _ (by simp), gap_closing]
  | zero =>
      cases slash with
      | false =>
          cases behind with
          | name done arg => rfl
          | unquoted done arg value => rfl
          | closed done => rfl
      | true =>
          cases behind with
          | name done arg => rfl
          | unquoted done arg value => exact absurd rfl (apart rfl rfl)
          | closed done => rfl

theorem finish_plain (e : ElementForm) : finish e.raw = (.text, some e.raw) := by
  have other : isTls e.raw = false := by
    have plaintext := e.plaintext
    rw [List.prefix_iff_eq_take] at plaintext
    simp only [ElementForm.raw, isTls, NameForm.bytes, beq_eq_false_iff_ne]
    exact fun same => plaintext same.symm
  simp [finish, other]

/-- Plain text, and the tag behind its `<`. -/
theorem run_opening (tag : NameForm) (before rest : List Byte)
    (outside : ∀ c ∈ before, c ≠ Chr.lessThan) :
    run .text (before ++ Chr.lessThan :: (tag.bytes ++ rest)) = run (.name [] tag.bytes) rest := by
  have name := gap_name [] tag rest
  rw [run_text before _ outside, ← name, NameForm.bytes, List.cons_append, run_cons, run_cons,
    run_cons]
  simp [step, textStep, gapStep, tag.letter, not_blank_of_alpha tag.letter,
    not_slash_of_alpha tag.letter]

/-- Plain text, then a tag with its attributes and its closing. -/
theorem run_markup (tag : NameForm) (attributes : List AttributeForm) (blanks : Nat) (slash : Bool)
    (before rest : List Byte) (outside : ∀ c ∈ before, c ≠ Chr.lessThan)
    (apart : slash = true → endsUnquoted attributes = true → blanks ≠ 0) :
    let raw := (tag.bytes, none) :: attributes.map AttributeForm.raw
    run .text (before ++ Chr.lessThan :: (tag.bytes ++ (attributes.flatMap AttributeForm.bytes ++
      (List.replicate blanks Chr.space ++
        (if slash then [Chr.slash, Chr.greaterThan] else [Chr.greaterThan]) ++ rest)))) =
      ((finish raw).2.toList ++ (run (finish raw).1 rest).1, (run (finish raw).1 rest).2) := by
  intro raw
  obtain ⟨b, behind, kind, reads⟩ := behind_attributes attributes (.name [] tag.bytes)
    (List.replicate blanks Chr.space ++
      (if slash then [Chr.slash, Chr.greaterThan] else [Chr.greaterThan]) ++ rest)
  have apart : slash = true → isUnquoted b = true → blanks ≠ 0 := by
    intro closed unquoted
    rw [kind] at unquoted
    by_cases none : attributes = []
    · rw [if_pos none] at unquoted
      exact Bool.noConfusion unquoted
    · rw [if_neg none] at unquoted
      exact apart closed unquoted
  rw [run_opening tag before _ outside, reads, behind_closing behind blanks slash rest apart]
  rfl

theorem run_element (e : ElementForm) (before rest : List Byte)
    (outside : ∀ c ∈ before, c ≠ Chr.lessThan) :
    run .text (before ++ e.bytes ++ rest) =
      (e.raw :: (run .text rest).1, (run .text rest).2) := by
  have reads := run_markup e.tag e.attributes e.blanks e.slash before rest outside e.apart
  have shape : (e.tag.bytes, none) :: e.attributes.map AttributeForm.raw = e.raw := rfl
  dsimp only at reads
  rw [shape, finish_plain] at reads
  rw [ElementForm.bytes, ElementForm.closing]
  simpa [List.append_assoc] using reads

/-! ### The element as its user sees it -/

theorem readText_plain (bytes : List Byte) (plain : ∀ c ∈ bytes, c ≠ Chr.nul) :
    readText bytes = .text bytes := by
  rw [readText, List.takeWhile_eq_self_iff.mpr]
  simpa using plain

theorem value_plain (value : ValueForm) (bytes : List Byte) (some : value.value = some bytes) :
    ∀ c ∈ bytes, c ≠ Chr.nul := by
  cases value with
  | absent => exact absurd some (by simp [ValueForm.value])
  | unquoted first rest bare plain =>
      cases some
      intro c member none
      exact plain c member (by simp [none])
  | quoted quote content mark plain =>
      cases some
      intro c member none
      exact plain c member (by simp [none])

theorem readAttribute_form (a : AttributeForm) : readAttribute a.raw = a.attribute := by
  have name := readText_plain a.name.bytes fun c member => (name_ends a.name c member).2
  cases value : a.value.value with
  | none => simp [readAttribute, AttributeForm.raw, AttributeForm.attribute, name, value]
  | some bytes =>
      have text := readText_plain bytes (value_plain a.value bytes value)
      simp [readAttribute, AttributeForm.raw, AttributeForm.attribute, name, value, text]

theorem readElement_form (e : ElementForm) : readElement e.raw = e.element := by
  have tag := readText_plain e.tag.bytes fun c member => (name_ends e.tag c member).2
  have attributes : (e.attributes.map AttributeForm.raw).map readAttribute =
      e.attributes.map AttributeForm.attribute := by
    rw [List.map_map]
    apply List.map_congr_left
    intro a _
    exact readAttribute_form a
  simp [readElement, ElementForm.raw, ElementForm.element, readAttribute, tag,
    ← attributes]

/-- Whatever follows, the first element of a text read in one piece is the one
written there, with its attributes in order. -/
theorem first_element_recognised (bufMax : Nat) (e : ElementForm) (before rest : List Byte)
    (outside : ∀ c ∈ before, c ≠ Chr.lessThan)
    (whole : ((new bufMax).read (before ++ e.bytes ++ rest)).1 =
      (before ++ e.bytes ++ rest).length) :
    ∃ t, ((new bufMax).read (before ++ e.bytes ++ rest)).2.operatorBool = some (true, t) ∧
      t.element = e.element := by
  have some : before ++ e.bytes ++ rest ≠ [] := by simp [ElementForm.bytes]
  have keeps : KeepsPlace (new bufMax) [] (before ++ e.bytes ++ rest) :=
    ⟨fun _ => Or.inl rfl, fun skips => Bool.noConfusion skips⟩
  have between : Between False (new bufMax) (run .text []).2 := between_new bufMax
  obtain ⟨pre, u, b, rel, reads, _, _⟩ := read_spec between ⟨some, whole⟩ keeps.resumes
  have found : run b u = (e.raw :: (run .text rest).1, (run .text rest).2) := by
    rw [reads]
    exact run_element e before rest outside
  rcases operatorBool_spec rel with ⟨t, _, _, silent, _⟩ |
    ⟨t, pre', v, done, stops, _, _, finds, element, _⟩
  · rw [found] at silent
    exact absurd silent (by simp)
  · refine ⟨t, stops, ?_⟩
    rw [found] at finds
    have same : e.raw = done := (List.cons.inj (congrArg Prod.fst finds)).1
    rw [element.eq, ← same, readElement_form]

/-- `<wp name="/a b" value=3 />` -/
def writeRequest : ElementForm where
  tag := ⟨119, ascii "p", by decide, by decide⟩
  attributes :=
    [⟨0, ⟨110, ascii "ame", by decide, by decide⟩,
      .quoted Chr.doubleQuote (ascii "/a b") (by decide) (by decide)⟩,
    ⟨0, ⟨118, ascii "alue", by decide, by decide⟩, .unquoted 51 [] (by decide) (by decide)⟩]
  blanks := 1
  slash := true
  plaintext := by decide
  apart := by decide

theorem first_element_of_writeRequest :
    ∃ t, ((new 8192).read (ascii "ok" ++ writeRequest.bytes ++ ascii "<r")).2.operatorBool =
      some (true, t) ∧ t.element = writeRequest.element :=
  first_element_recognised 8192 writeRequest (ascii "ok") (ascii "<r") (by decide) (by decide)

end PdServ
