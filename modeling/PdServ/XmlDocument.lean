import PdServ.Task
import PdServ.VariableAttributes

/-!
Elements with children, as the replies are written: an element is opened, gets its
attributes, and then children one after the other, each of which is finished before the
next one begins. What `XmlElement` writes for such documents is read back as their
elements, in the order in which they were opened.
-/

namespace PdServ
namespace XmlElement
open XmlParser Scan

/-- A tag that is also written in a closing tag. -/
structure TagForm extends NameForm where
  unopened : ∀ c ∈ rest, c ≠ Chr.lessThan

/-- The children of an element. -/
inductive Children where
  | none
  | element (tag : TagForm) (attributes : List Content) (children others : Children)

def writeAttributes (e : XmlElement) (attributes : List Content) : XmlElement :=
  attributes.foldl (fun e a => e.writeAttribute a.name.bytes a.str) e

/-- `createChild` for each of the children, with all that is done to it up to its
destructor. -/
def writeChildren : XmlElement → Children → XmlElement
  | e, .none => e
  | e, .element tag attributes children others =>
      let (e, child) := e.createChild tag.bytes
      let os := ((child.writeAttributes attributes).writeChildren children).close
      writeChildren { e with os := os } others

/-- What `Session::createElement` begins, with its id. -/
structure Document where
  tag : TagForm
  attributes : List Content
  children : Children
  id : List Byte
  plain : ∀ c ∈ id, c ≠ Chr.nul

def Document.write (os : List Byte) (d : Document) : List Byte :=
  (((new d.tag.bytes os 0 d.id).writeAttributes d.attributes).writeChildren d.children).close

/-! ### Times -/

/-- `<< ts`, of a time that is not negative -/
def timeText (ts : Timespec) : List Byte :=
  digits ts.tv_sec.toNat ++ ascii "." ++
    (digits (ts.tv_nsec.toNat / 1000)).leftpad 6 Chr.digit0

def isTime (c : Byte) : Bool := isdigit c || c ∈ ascii "."

theorem timeText_isTime (ts : Timespec) : ∀ c ∈ timeText ts, isTime c = true := by
  intro c member
  rw [timeText, List.mem_append, List.mem_append] at member
  rcases member with (seconds | point) | fraction
  · simp [isTime, isdigit_digits _ c seconds]
  · simp [isTime, point]
  · rw [List.leftpad, List.mem_append] at fraction
    rcases fraction with pad | micro
    · rw [List.eq_of_mem_replicate pad]
      rfl
    · simp [isTime, isdigit_digits _ c micro]

theorem timeText_plain (ts : Timespec) : ∀ c ∈ timeText ts, c ≠ Chr.nul := by
  rintro c member rfl
  exact absurd (timeText_isTime ts _ member) (by decide)

/-- It is written without references. -/
theorem timeText_escaped (ts : Timespec) : setEscaped (timeText ts) = timeText ts := by
  have alone (c : Byte) (member : c ∈ timeText ts) : escape c = [c] := by
    apply escape_other
    intro special
    have time := timeText_isTime ts c member
    simp only [escapes, List.map_cons, List.map_nil, List.mem_cons, List.not_mem_nil,
      or_false] at special
    rcases special with rfl | rfl | rfl | rfl | rfl <;> revert time <;> decide
  rw [setEscaped, List.flatMap_congr alone, List.flatMap_singleton']

theorem isalpha_t : isalpha 116 = true := by decide

def timeName : NameForm := ⟨116, ascii "ime", isalpha_t, by decide⟩

def timeContent (ts : Timespec) : Content := ⟨timeName, timeText ts, timeText_plain ts⟩

/-! ### The elements, as they are opened -/

/-- An element as it is to be read: its tag and its attributes. -/
abbrev Shown := TagForm × List Content

def Children.shown : Children → List Shown
  | .none => []
  | .element tag attributes children others =>
      (tag, attributes) :: (children.shown ++ others.shown)

/-- The id belongs to the outer element only. -/
def Document.shown (d : Document) : List Shown :=
  (d.tag, contents d.attributes d.id d.plain) :: d.children.shown

def raw (shown : Shown) : List RawAttribute :=
  (shown.1.bytes, none) :: (shown.2.map Content.form).map AttributeForm.raw

/-! ### The text -/

def lineEnd : List Byte := [Chr.carriageReturn, Chr.lineFeed]

def startText (level : Nat) (tag : TagForm) (attributes : List Content) (slash : Bool) : List Byte :=
  List.replicate level Chr.space ++ Chr.lessThan :: (tag.bytes ++
    ((attributes.map Content.form).flatMap AttributeForm.bytes ++
      ((if slash then [Chr.slash, Chr.greaterThan] else [Chr.greaterThan]) ++ lineEnd)))

def endText (level : Nat) (tag : TagForm) : List Byte :=
  List.replicate level Chr.space ++ [Chr.lessThan, Chr.slash] ++ tag.bytes ++
    Chr.greaterThan :: lineEnd

def Children.isNone : Children → Bool
  | .none => true
  | .element .. => false

def Children.text (level : Nat) : Children → List Byte
  | .none => []
  | .element tag attributes children others =>
      startText level tag attributes children.isNone ++
        ((if children.isNone then [] else children.text (level + 1) ++ endText level tag) ++
          others.text level)

def Document.text (d : Document) : List Byte :=
  startText 0 d.tag (contents d.attributes d.id d.plain) d.children.isNone ++
    (if d.children.isNone then [] else d.children.text 1 ++ endText 0 d.tag)

/-- The start of an element is complete. -/
def opened (e : XmlElement) : XmlElement :=
  if e.printed then e
  else { e.writeId with os := e.writeId.os ++ Chr.greaterThan :: lineEnd, printed := true }

theorem createChild_opened (e : XmlElement) (name : List Byte) :
    e.createChild name = (e.opened, new name e.opened.os (e.level + 1) []) := by
  rw [createChild, opened]
  cases printed : e.printed with
  | true => simp [← printed]
  | false =>
      have level : e.writeId.level = e.level := by
        rw [writeId]
        split <;> rfl
      simp [level, lineEnd]

theorem opened_printed {e : XmlElement} (printed : e.printed = true) : e.opened = e := by
  rw [opened, if_pos printed]

theorem writeChildren_opened (e : XmlElement) {children : Children}
    (some : children.isNone = false) : e.writeChildren children = e.opened.writeChildren children := by
  cases children with
  | none => cases some
  | element tag attributes children others =>
      have again : e.opened.opened = e.opened := by
        cases printed : e.printed with
        | true => rw [opened_printed printed, opened_printed printed]
        | false => simp [opened, printed]
      have level : e.opened.level = e.level := by
        rw [opened, writeId]
        split
        · rfl
        · split <;> rfl
      rw [writeChildren, writeChildren, createChild_opened, createChild_opened, again, level]

theorem writeAttributes_text (e : XmlElement) (attributes : List Content) :
    e.writeAttributes attributes =
      { e with os := e.os ++ (attributes.map Content.form).flatMap AttributeForm.bytes } :=
  writeAttributes_os attributes e

/-- An element that has no children. -/
theorem close_bare {tag : TagForm} {level : Nat} {os id : List Byte} {attributes : List Content}
    (plain : ∀ c ∈ id, c ≠ Chr.nul) :
    ((new tag.bytes os level id).writeAttributes attributes).close =
      os ++ startText level tag (contents attributes id plain) true := by
  rw [writeAttributes_text]
  by_cases none : id = []
  · simp [close, writeId, contents, none, new, startText, lineEnd]
  · simp [close, writeId, writeAttribute, contents, none, new, startText, lineEnd, Content.form,
      AttributeForm.bytes, ValueForm.bytes, NameForm.bytes, idName]
    rfl

theorem opened_text {tag : TagForm} {level : Nat} {os id : List Byte} {attributes : List Content}
    (plain : ∀ c ∈ id, c ≠ Chr.nul) :
    ((new tag.bytes os level id).writeAttributes attributes).opened =
      { level := level, id := id, name := tag.bytes, printed := true,
        os := os ++ startText level tag (contents attributes id plain) false } := by
  rw [writeAttributes_text]
  by_cases none : id = []
  · simp [opened, writeId, contents, none, new, startText, lineEnd]
  · simp [opened, writeId, writeAttribute, contents, none, new, startText, lineEnd, Content.form,
      AttributeForm.bytes, ValueForm.bytes, NameForm.bytes, idName]
    rfl

theorem noId_plain : ∀ c ∈ ([] : List Byte), c ≠ Chr.nul := nofun

theorem Children.eq_none (children : Children) (leaf : children.isNone = true) :
    children = .none := by
  cases children with
  | none => rfl
  | element => cases leaf

theorem writeChildren_text (children : Children) {e : XmlElement} (printed : e.printed = true) :
    e.writeChildren children = { e with os := e.os ++ children.text (e.level + 1) } := by
  induction children generalizing e with
  | none => simp [writeChildren, Children.text]
  | element tag attributes children others child others_ih =>
      have bare : contents attributes [] noId_plain = attributes := by simp [contents]
      have later (os : List Byte) : ({ e with os := os } : XmlElement).writeChildren others =
          { e with os := os ++ others.text (e.level + 1) } := others_ih printed
      rw [writeChildren, createChild_opened, opened_printed printed]
      dsimp only
      cases leaf : children.isNone with
      | true =>
          obtain rfl := children.eq_none leaf
          rw [writeChildren, close_bare noId_plain, bare, later]
          simp [Children.text, Children.isNone]
      | false =>
          rw [writeChildren_opened _ leaf, opened_text noId_plain, bare, child rfl, later]
          simp [Children.text, leaf, close, endText, lineEnd]

theorem write_text (os : List Byte) (d : Document) : d.write os = os ++ d.text := by
  rw [Document.write, Document.text]
  cases leaf : d.children.isNone with
  | true =>
      rw [d.children.eq_none leaf, writeChildren, close_bare d.plain]
      simp
  | false =>
      rw [writeChildren_opened _ leaf, opened_text d.plain, writeChildren_text _ rfl]
      simp [close, endText, lineEnd]

/-! ### What is read -/

/-- The line behind a start completes an element also where its tag begins as `starttls`
does. -/
theorem run_start (level : Nat) (tag : TagForm) (attributes : List Content) (slash : Bool) :
    run .text (startText level tag attributes slash) = ([raw (tag, attributes)], .text) := by
  have quoted : endsUnquoted (attributes.map Content.form) ≠ true := by
    rw [endsUnquoted, List.getLast?_map]
    cases attributes.getLast? with
    | none => exact Bool.noConfusion
    | some a => exact Bool.noConfusion
  have reads := run_markup tag.toNameForm (attributes.map Content.form) 0 slash
    (List.replicate level Chr.space) lineEnd
    (fun c member => by rw [List.eq_of_mem_replicate member]; decide)
    (fun _ unquoted => absurd unquoted quoted)
  dsimp only at reads
  rw [List.replicate_zero, List.nil_append] at reads
  rw [startText, reads, lineEnd, finish_lineEnd]
  rfl

theorem bytes_unopened (tag : TagForm) : ∀ c ∈ tag.bytes, c ≠ Chr.lessThan := by
  intro c member
  rcases List.mem_cons.mp member with rfl | later
  · intro same
    have letter := tag.letter
    rw [same] at letter
    exact absurd letter (by decide)
  · exact tag.unopened c later

/-- A closing tag holds no start of an element. -/
theorem run_end (level : Nat) (tag : TagForm) : run .text (endText level tag) = ([], .text) := by
  have blank : ∀ c ∈ List.replicate level Chr.space, c ≠ Chr.lessThan := by
    intro c member
    rw [List.eq_of_mem_replicate member]
    decide
  have behind : run .text (tag.bytes ++ Chr.greaterThan :: lineEnd) = ([], .text) := by
    rw [run_text _ _ (bytes_unopened tag)]
    rfl
  have slash : run .text (Chr.lessThan :: Chr.slash :: (tag.bytes ++ Chr.greaterThan :: lineEnd)) =
      run .text (tag.bytes ++ Chr.greaterThan :: lineEnd) := rfl
  rw [endText, List.append_assoc, List.append_assoc, run_text _ _ blank]
  exact slash.trans behind

theorem run_children (children : Children) (level : Nat) :
    run .text (children.text level) = (children.shown.map raw, .text) := by
  induction children generalizing level with
  | none => rfl
  | element tag attributes children others child others_ih =>
      rw [Children.text, run_append, run_start, Children.shown]
      cases leaf : children.isNone with
      | true =>
          obtain rfl := children.eq_none leaf
          simp [others_ih, Children.shown]
      | false =>
          dsimp only
          rw [if_neg Bool.false_ne_true, List.append_assoc, run_append, child, run_append, run_end,
            others_ih]
          simp

theorem run_document (d : Document) : run .text d.text = (d.shown.map raw, .text) := by
  rw [Document.text, run_append, run_start, Document.shown]
  cases leaf : d.children.isNone with
  | true =>
      simp [d.children.eq_none leaf, Children.shown, run]
  | false =>
      dsimp only
      rw [if_neg Bool.false_ne_true, run_append, run_children, run_end]
      simp

/-! ### Where the text may be cut -/

theorem smooth_start (level : Nat) (tag : TagForm) (attributes : List Content) (slash : Bool) :
    Smooth .text (startText level tag attributes slash) := by
  apply smooth_markup
  intro b apart
  cases slash with
  | true => exact smooth_closing b apart
  | false =>
      cases apart with
      | name done arg =>
          exact ⟨fun skips => Bool.noConfusion skips, smooth_lineEnd (done ++ [(arg, none)])⟩
      | closed done => exact ⟨fun skips => Bool.noConfusion skips, smooth_lineEnd done⟩

/-- Text without a `<` may be cut anywhere. -/
theorem smooth_plain {w rest : List Byte} (plain : ∀ c ∈ w, c ≠ Chr.lessThan)
    (later : Smooth .text rest) : Smooth .text (w ++ rest) := by
  refine smooth_through (fun a => a = .text) ?_ ?_ ?_ .text rfl
  · rintro _ rfl
    rfl
  · rintro _ rfl c member
    simp [step, textStep, plain c member]
  · rintro _ rfl
    exact later

theorem smooth_end (level : Nat) (tag : TagForm) : Smooth .text (endText level tag) := by
  have behind : Smooth .text (tag.bytes ++ Chr.greaterThan :: lineEnd) :=
    smooth_plain (bytes_unopened tag) ⟨fun skips => Bool.noConfusion skips,
      fun skips => Bool.noConfusion skips, fun skips => Bool.noConfusion skips, trivial⟩
  rw [endText, List.append_assoc, List.append_assoc]
  apply smooth_plain
  · intro c member
    rw [List.eq_of_mem_replicate member]
    decide
  · exact ⟨fun skips => Bool.noConfusion skips, fun skips => Bool.noConfusion skips, behind⟩

theorem smooth_children (children : Children) (level : Nat) :
    Smooth .text (children.text level) := by
  induction children generalizing level with
  | none => trivial
  | element tag attributes children others child others_ih =>
      rw [Children.text, smooth_append, run_start]
      refine ⟨smooth_start level tag attributes children.isNone, ?_⟩
      split
      · exact others_ih level
      · rw [List.append_assoc, smooth_append, run_children, smooth_append, run_end]
        exact ⟨child (level + 1), smooth_end level tag, others_ih level⟩

theorem smooth_document (d : Document) : Smooth .text d.text := by
  rw [Document.text, smooth_append, run_start]
  refine ⟨smooth_start 0 d.tag _ d.children.isNone, ?_⟩
  split
  · trivial
  · rw [smooth_append, run_children]
    exact ⟨smooth_children d.children 1, smooth_end 0 d.tag⟩

/-! ### A stream of documents -/

def writeAll (documents : List Document) : List Byte := documents.foldl Document.write []

theorem writeAll_text (documents : List Document) :
    writeAll documents = documents.flatMap Document.text := by
  have from_os (os : List Byte) :
      documents.foldl Document.write os = os ++ documents.flatMap Document.text := by
    induction documents generalizing os with
    | nil => simp
    | cons d rest ih => rw [List.foldl_cons, ih, write_text, List.flatMap_cons, List.append_assoc]
  exact from_os []

theorem run_documents (documents : List Document) :
    run .text (documents.flatMap Document.text) =
      ((documents.flatMap Document.shown).map raw, .text) := by
  induction documents with
  | nil => rfl
  | cons d rest ih =>
      rw [List.flatMap_cons, run_append, run_document, ih]
      simp

theorem smooth_documents (documents : List Document) :
    Smooth .text (documents.flatMap Document.text) := by
  induction documents with
  | nil => trivial
  | cons d rest ih =>
      rw [List.flatMap_cons, smooth_append, run_document]
      exact ⟨smooth_document d, ih⟩

/-- The names are told apart by `find`. -/
def Distinct (shown : Shown) : Prop :=
  (shown.1.bytes :: shown.2.map fun a => a.name.bytes).Pairwise fun a b => strcasecmp a b = false

/-- What the user of the parser sees of an element. -/
structure Shows (e : Element) (shown : Shown) : Prop where
  tag : e.tag = .text shown.1.bytes
  strings : Distinct shown → ∀ a ∈ shown.2, e.getString a.name.bytes = some (some a.str)

theorem shows_of_reads {e : Element} {shown : Shown} (reads : Reads True e (raw shown)) :
    Shows e shown where
  tag := by
    rw [reads.tag]
    exact readText_plain shown.1.bytes fun c inside => (name_ends shown.1.toNameForm c inside).2
  strings distinct a member := by
    have none : shown.2 ++ [] = shown.2 := List.append_nil _
    rw [raw, ← none] at reads
    exact getString_written shown.1.toNameForm shown.2 [] a member distinct reads

/-- The attributes that are read, of the elements in the order in which they were opened. -/
theorem documents_read (bufMax : Nat) (documents : List Document) (chunks : List (List Byte))
    (complete : chunks.flatten = writeAll documents)
    (taken : EveryRead Taken (XmlParser.new bufMax) [] chunks) :
    ∃ elements, feed (XmlParser.new bufMax) chunks = some elements ∧
      List.Forall₂ (fun e shown => Reads True e (raw shown)) elements
        (documents.flatMap Document.shown) := by
  rw [writeAll_text] at complete
  have smooth := smooth_documents documents
  have reads := run_documents documents
  rw [← complete] at smooth reads
  have between : XmlParser.Between True (XmlParser.new bufMax) (run .text []).2 :=
    between_new bufMax
  obtain ⟨elements, fed, strings⟩ := feed_reads chunks between taken
    (resumes_of_smooth chunks smooth taken)
  have start : (run .text []).2 = .text := rfl
  rw [start, reads, List.forall₂_map_right_iff] at strings
  exact ⟨elements, fed, strings⟩

/-- However the replies are cut on their way, the elements that are read are those that
were opened, in this order, each with its attributes; an id is that of the outer element. -/
theorem documents_recognised (bufMax : Nat) (documents : List Document) (chunks : List (List Byte))
    (complete : chunks.flatten = writeAll documents)
    (taken : EveryRead Taken (XmlParser.new bufMax) [] chunks) :
    ∃ elements, feed (XmlParser.new bufMax) chunks = some elements ∧
      List.Forall₂ Shows elements (documents.flatMap Document.shown) := by
  obtain ⟨elements, fed, reads⟩ := documents_read bufMax documents chunks complete taken
  exact ⟨elements, fed, reads.imp fun _ _ => shows_of_reads⟩

def listingTag : TagForm := ⟨⟨108, ascii "isting", by decide, by decide⟩, by decide⟩
def dirTag : TagForm := ⟨Variable.Key.dir, by decide⟩

def commentContent : Content := ⟨Variable.Key.comment, ascii "a&b", by decide⟩

/-- A listing with one directory, and the same without id. -/
def listings : List Document :=
  [⟨listingTag, [], .element dirTag [commentContent] .none .none, ascii "7", by decide⟩,
    ⟨listingTag, [], .element dirTag [commentContent] .none .none, [], by decide⟩]

/-- The replies, cut within a reference and within the first closing tag. -/
theorem documents_recognised_listings :
    ∃ elements, feed (XmlParser.new 8192) [(writeAll listings).take 36,
        ((writeAll listings).drop 36).take 15, (writeAll listings).drop 51] = some elements ∧
      List.Forall₂ Shows elements (listings.flatMap Document.shown) :=
  documents_recognised 8192 listings _ (by decide) (by decide)

end XmlElement
end PdServ
