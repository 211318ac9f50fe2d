import PdServ.XmlElementForm
import PdServ.XmlAttributes

/-!
The writer of the replies, `src/src/msrproto/XmlElement.cpp`, and that the
parser reads back what it wrote. Attributes are those of `setEscaped`; the other
ways to fill one write characters that need no escape.
-/

namespace PdServ

/-- `os` holds what was written so far; the id is empty where the source has no
pointer to one. -/
structure XmlElement where
  level : Nat
  id : List Byte
  os : List Byte
  name : List Byte
  printed : Bool
deriving DecidableEq, Repr

namespace XmlElement
open XmlParser Scan

variable {lost : Prop}

/-- The characters of `"<>&\"'"` and what is written for them. -/
def escapes : List (Byte × List Byte) :=
  [(Chr.lessThan, ascii "&lt;"), (Chr.greaterThan, ascii "&gt;"),
    (Chr.ampersand, ascii "&amp;"), (Chr.doubleQuote, ascii "&quot;"),
    (Chr.singleQuote, ascii "&apos;")]

def escape (c : Byte) : List Byte := (escapes.lookup c).getD [c]

/-- The stretches between the characters of `escapes` are copied. -/
def setEscaped (str : List Byte) : List Byte := str.flatMap escape

def new (name os : List Byte) (level : Nat) (id : List Byte) : XmlElement where
  level := level
  id := id
  os := os ++ List.replicate level Chr.space ++ Chr.lessThan :: name
  name := name
  printed := false

/-- The life of an `Attribute` with one `setEscaped`. -/
def writeAttribute (e : XmlElement) (name str : List Byte) : XmlElement :=
  { e with
    os := e.os ++ (Chr.space :: name ++ [Chr.equals, Chr.doubleQuote]) ++ setEscaped str ++
      [Chr.doubleQuote] }

def writeId (e : XmlElement) : XmlElement :=
  if e.id.isEmpty then e else e.writeAttribute (ascii "id") e.id

/-- What `~XmlElement` leaves in the stream. -/
def close (e : XmlElement) : List Byte :=
  let e :=
    if e.printed then
      { e with
        os := e.os ++ List.replicate e.level Chr.space ++ [Chr.lessThan, Chr.slash] ++ e.name }
    else
      let e := e.writeId
      { e with os := e.os ++ [Chr.slash] }
  e.os ++ [Chr.greaterThan, Chr.carriageReturn, Chr.lineFeed]

/-- The element, marked as having children, and the child, which goes on with the
stream. -/
def createChild (e : XmlElement) (name : List Byte) : XmlElement × XmlElement :=
  let e :=
    if e.printed then e
    else
      let e := e.writeId
      { e with os := e.os ++ [Chr.greaterThan, Chr.carriageReturn, Chr.lineFeed] }
  ({ e with printed := true }, new name e.os (e.level + 1) [])

/-- An element without children, from its construction to its destruction. -/
def written (tag : List Byte) (level : Nat) (id : List Byte)
    (attributes : List (List Byte × List Byte)) : List Byte :=
  (attributes.foldl (fun e a => e.writeAttribute a.1 a.2) (new tag [] level id)).close

/-! ### Escaped text -/

theorem escape_other (c : Byte) (other : c ∉ escapes.map Prod.fst) : escape c = [c] := by
  have none_there : escapes.lookup c = none := by
    rw [List.lookup_eq_none_iff]
    intro entry member
    rw [bne_iff_ne]
    rintro rfl
    exact other (List.mem_map_of_mem member)
  rw [escape, none_there]
  rfl

theorem escape_quiet (c : Byte) (some : c ≠ Chr.nul) :
    ∀ x ∈ escape c, x ∉ [Chr.doubleQuote, Chr.nul] := by
  by_cases special : c ∈ escapes.map Prod.fst
  · simp only [escapes, List.map_cons, List.map_nil, List.mem_cons, List.not_mem_nil,
      or_false] at special
    rcases special with rfl | rfl | rfl | rfl | rfl <;> decide
  · rw [escape_other c special]
    intro x member
    have same : x = c := List.mem_singleton.mp member
    have noQuote : c ≠ Chr.doubleQuote := by
      intro quote
      exact special (by rw [quote]; decide)
    simp [same, noQuote, some]

theorem setEscaped_quiet (str : List Byte) (plain : ∀ c ∈ str, c ≠ Chr.nul) :
    ∀ x ∈ setEscaped str, x ∉ [Chr.doubleQuote, Chr.nul] := by
  intro x member
  obtain ⟨c, inside, escaped⟩ := List.mem_flatMap.mp member
  exact escape_quiet c (plain c inside) x escaped

theorem unescape_escape (c : Byte) (left : Nat) (rest : List Byte) :
    Command.unescape (left + 1) (escape c ++ rest) = c :: Command.unescape left rest := by
  by_cases special : c ∈ escapes.map Prod.fst
  · simp only [escapes, List.map_cons, List.map_nil, List.mem_cons, List.not_mem_nil,
      or_false] at special
    rcases special with rfl | rfl | rfl | rfl | rfl <;> rfl
  · rw [escape_other c special]
    have noReference : c ≠ Chr.ampersand := by
      intro ampersand
      exact special (by rw [ampersand]; decide)
    simp [Command.unescape, noReference]

/-- Each escape is undone as a whole, so no reference arises across two of them. -/
theorem unescape_setEscaped (str : List Byte) (left : Nat)
    (enough : (setEscaped str).length ≤ left) :
    Command.unescape left (setEscaped str) = str := by
  induction str generalizing left with
  | nil =>
      cases left with
      | zero => rfl
      | succ left => rfl
  | cons c rest ih =>
      have some : 0 < (escape c).length := by
        by_cases special : c ∈ escapes.map Prod.fst
        · simp only [escapes, List.map_cons, List.map_nil, List.mem_cons, List.not_mem_nil,
            or_false] at special
          rcases special with rfl | rfl | rfl | rfl | rfl <;> decide
        · rw [escape_other c special]
          exact Nat.one_pos
      have split : setEscaped (c :: rest) = escape c ++ setEscaped rest := rfl
      rw [split, List.length_append] at enough
      obtain ⟨left, rfl⟩ : ∃ n, left = n + 1 := ⟨left - 1, by omega⟩
      rw [split, unescape_escape, ih left (by omega)]

/-! ### The written text as a form -/

/-- An attribute to be written. -/
structure Content where
  name : NameForm
  str : List Byte
  plain : ∀ c ∈ str, c ≠ Chr.nul

theorem doubleQuote_marks : Chr.doubleQuote ∈ [Chr.doubleQuote, Chr.singleQuote] := by decide

def Content.form (a : Content) : AttributeForm where
  blanks := 0
  name := a.name
  value := .quoted Chr.doubleQuote (setEscaped a.str) doubleQuote_marks (setEscaped_quiet a.str a.plain)

def idName : NameForm := ⟨105, ascii "d", by decide, by decide⟩

/-- The attributes of an element that is closed without children. -/
def contents (attributes : List Content) (id : List Byte) (plain : ∀ c ∈ id, c ≠ Chr.nul) :
    List Content :=
  if id = [] then attributes else attributes ++ [⟨idName, id, plain⟩]

theorem writeAttribute_os (e : XmlElement) (a : Content) :
    e.writeAttribute a.name.bytes a.str = { e with os := e.os ++ a.form.bytes } := by
  simp [writeAttribute, Content.form, AttributeForm.bytes, ValueForm.bytes]

theorem writeAttributes_os (attributes : List Content) (e : XmlElement) :
    attributes.foldl (fun e a => e.writeAttribute a.name.bytes a.str) e =
      { e with os := e.os ++ (attributes.map Content.form).flatMap AttributeForm.bytes } := by
  induction attributes generalizing e with
  | nil => simp
  | cons a rest ih =>
      rw [List.foldl_cons, ih, writeAttribute_os]
      simp

theorem written_eq (tag : NameForm) (level : Nat) (id : List Byte) (attributes : List Content)
    (plain : ∀ c ∈ id, c ≠ Chr.nul) :
    written tag.bytes level id (attributes.map fun a => (a.name.bytes, a.str)) =
      List.replicate level Chr.space ++ Chr.lessThan :: (tag.bytes ++
        (((contents attributes id plain).map Content.form).flatMap AttributeForm.bytes ++
          ([Chr.slash, Chr.greaterThan] ++ [Chr.carriageReturn, Chr.lineFeed]))) := by
  have os := writeAttributes_os attributes (new tag.bytes [] level id)
  rw [written, List.foldl_map, os]
  by_cases none : id = []
  · simp [close, writeId, contents, none, new]
  · have idOs := writeAttribute_os
      { new tag.bytes [] level id with
        os := (new tag.bytes [] level id).os ++
          (attributes.map Content.form).flatMap AttributeForm.bytes } ⟨idName, id, plain⟩
    have name : idName.bytes = ascii "id" := rfl
    dsimp only at idOs
    rw [name] at idOs
    simp [close, writeId, contents, none, new] at idOs ⊢
    simp [idOs]

/-- The line end completes an element that starts TLS and is plain text otherwise. -/
theorem finish_lineEnd (done : List RawAttribute) :
    ((finish done).2.toList ++ (run (finish done).1 [Chr.carriageReturn, Chr.lineFeed]).1,
      (run (finish done).1 [Chr.carriageReturn, Chr.lineFeed]).2) = ([done], .text) := by
  rw [finish]
  by_cases tls : isTls done = true
  · rw [if_pos tls]
    rfl
  · rw [if_neg tls]
    rfl

theorem run_written (tag : NameForm) (level : Nat) (attributes : List Content) :
    run .text (List.replicate level Chr.space ++ Chr.lessThan :: (tag.bytes ++
      ((attributes.map Content.form).flatMap AttributeForm.bytes ++
        ([Chr.slash, Chr.greaterThan] ++ [Chr.carriageReturn, Chr.lineFeed])))) =
      ([(tag.bytes, none) :: (attributes.map Content.form).map AttributeForm.raw], .text) := by
  have quoted : endsUnquoted (attributes.map Content.form) ≠ true := by
    rw [endsUnquoted, List.getLast?_map]
    cases attributes.getLast? with
    | none => exact Bool.noConfusion
    | some a => exact Bool.noConfusion
  have reads := run_markup tag (attributes.map Content.form) 0 true
    (List.replicate level Chr.space) [Chr.carriageReturn, Chr.lineFeed]
    (fun c member => by rw [List.eq_of_mem_replicate member]; decide)
    (fun _ unquoted => absurd unquoted quoted)
  dsimp only at reads
  rw [List.replicate_zero, List.nil_append, if_pos rfl] at reads
  rw [reads, finish_lineEnd]

/-! ### Where the text may be cut -/

/-- No cut of `w` falls into what is ignored behind a closing quote. -/
def Smooth : Scan → List Byte → Prop
  | _, [] => True
  | a, c :: rest => (skipping a = true → endsValue c = true) ∧ Smooth (a.step c).1 rest

theorem smooth_append (a : Scan) (u v : List Byte) :
    Smooth a (u ++ v) ↔ Smooth a u ∧ Smooth (run a u).2 v := by
  induction u generalizing a with
  | nil => simp [Smooth, run]
  | cons c rest ih => simp [Smooth, run, ih, and_assoc]

/-- A stretch that the machine reads within one kind of state. -/
theorem smooth_through (kind : Scan → Prop) {w rest : List Byte}
    (quiet : ∀ a, kind a → skipping a = false)
    (stays : ∀ a, kind a → ∀ c ∈ w, kind (a.step c).1)
    (later : ∀ a, kind a → Smooth a rest) (a : Scan) (start : kind a) : Smooth a (w ++ rest) := by
  induction w generalizing a with
  | nil => exact later a start
  | cons c w ih =>
      constructor
      · intro skips
        rw [quiet a start] at skips
        exact Bool.noConfusion skips
      · exact ih (fun b among x member => stays b among x (List.mem_cons_of_mem c member))
          _ (stays a start c List.mem_cons_self)

/-- Behind the tag or an attribute of a written element. -/
inductive Apart : Scan → Prop
  | name (done : List RawAttribute) (arg : List Byte) : Apart (.name done arg)
  | closed (done : List RawAttribute) : Apart (.closed done)

theorem smooth_name (name : NameForm) (done : List RawAttribute) (rest : List Byte)
    (later : ∀ done arg, Smooth (.name done arg) rest) : Smooth (.gap done) (name.bytes ++ rest) := by
  rw [NameForm.bytes, List.cons_append]
  refine ⟨fun skips => Bool.noConfusion skips, ?_⟩
  have opens : ((gap done).step name.first).1 = .name done [name.first] := by
    simp [step, gapStep, name.letter, not_blank_of_alpha name.letter,
      not_slash_of_alpha name.letter]
  rw [opens]
  apply smooth_through fun a => ∃ done arg, a = .name done arg
  · rintro _ ⟨done, arg, rfl⟩
    rfl
  · rintro _ ⟨done, arg, rfl⟩ c member
    have inside := (name_ends name c (List.mem_cons_of_mem _ member)).1
    exact ⟨done, arg ++ [c], by simp [step, inside]⟩
  · rintro _ ⟨done, arg, rfl⟩
    exact later done arg
  · exact ⟨done, [name.first], rfl⟩

theorem smooth_quoted (str : List Byte) (plain : ∀ c ∈ str, c ≠ Chr.nul) (done : List RawAttribute)
    (arg rest : List Byte) (later : ∀ done, Smooth (.closed done) rest) :
    Smooth (.quoted Chr.doubleQuote done arg []) (setEscaped str ++ Chr.doubleQuote :: rest) := by
  apply smooth_through fun a => ∃ value, a = .quoted Chr.doubleQuote done arg value
  · rintro _ ⟨value, rfl⟩
    rfl
  · rintro _ ⟨value, rfl⟩ c member
    have inside : c ≠ Chr.doubleQuote := by
      intro quote
      exact setEscaped_quiet str plain c member (by simp [quote])
    exact ⟨value ++ [c], by simp [step, inside]⟩
  · rintro _ ⟨value, rfl⟩
    exact ⟨fun skips => Bool.noConfusion skips, later (done ++ [(arg, some value)])⟩
  · exact ⟨[], rfl⟩

theorem smooth_attribute (a : Content) (b : Scan) (apart : Apart b) (rest : List Byte)
    (later : ∀ done, Smooth (.closed done) rest) : Smooth b (a.form.bytes ++ rest) := by
  have quiet : skipping b = false := by cases apart <;> rfl
  have gap : ∃ done, (b.step Chr.space).1 = .gap done := by
    cases apart with
    | name done arg => exact ⟨done ++ [(arg, none)], rfl⟩
    | closed done => exact ⟨done, rfl⟩
  obtain ⟨done, opens⟩ := gap
  have shape : a.form.bytes ++ rest = Chr.space :: (a.name.bytes ++
      (Chr.equals :: Chr.doubleQuote :: (setEscaped a.str ++ Chr.doubleQuote :: rest))) := by
    simp [Content.form, AttributeForm.bytes, ValueForm.bytes]
  rw [shape]
  refine ⟨fun skips => by simp [quiet] at skips, ?_⟩
  rw [opens]
  apply smooth_name
  intro done arg
  refine ⟨fun skips => Bool.noConfusion skips, fun skips => Bool.noConfusion skips, ?_⟩
  exact smooth_quoted a.str a.plain done arg rest later

theorem smooth_attributes (attributes : List Content) (b : Scan) (apart : Apart b)
    (rest : List Byte) (later : ∀ b, Apart b → Smooth b rest) :
    Smooth b ((attributes.map Content.form).flatMap AttributeForm.bytes ++ rest) := by
  induction attributes generalizing b with
  | nil => exact later b apart
  | cons a others ih =>
      rw [List.map_cons, List.flatMap_cons, List.append_assoc]
      apply smooth_attribute a b apart
      intro done
      exact ih (.closed done) (.closed done)

theorem smooth_lineEnd (done : List RawAttribute) :
    Smooth (finish done).1 [Chr.carriageReturn, Chr.lineFeed] := by
  rw [finish]
  by_cases tls : isTls done = true
  · rw [if_pos tls]
    exact ⟨fun skips => Bool.noConfusion skips, fun skips => Bool.noConfusion skips, trivial⟩
  · rw [if_neg tls]
    exact ⟨fun skips => Bool.noConfusion skips, fun skips => Bool.noConfusion skips, trivial⟩

/-- The `/` behind a closing quote is skipped, but only up to the `>`. -/
theorem smooth_closing (b : Scan) (apart : Apart b) :
    Smooth b ([Chr.slash, Chr.greaterThan] ++ [Chr.carriageReturn, Chr.lineFeed]) := by
  cases apart with
  | name done arg =>
      refine ⟨fun skips => Bool.noConfusion skips, fun _ => rfl, ?_⟩
      exact smooth_lineEnd (done ++ [(arg, none)])
  | closed done =>
      refine ⟨fun skips => Bool.noConfusion skips, fun _ => rfl, ?_⟩
      exact smooth_lineEnd done

/-- A start up to its closing. -/
theorem smooth_markup (tag : NameForm) (level : Nat) (attributes : List Content)
    {closing : List Byte} (later : ∀ b, Apart b → Smooth b closing) :
    Smooth .text (List.replicate level Chr.space ++ Chr.lessThan :: (tag.bytes ++
      ((attributes.map Content.form).flatMap AttributeForm.bytes ++ closing))) := by
  apply smooth_through fun a => a = .text
  · rintro _ rfl
    rfl
  · rintro _ rfl c member
    rw [List.eq_of_mem_replicate member]
    rfl
  · rintro _ rfl
    refine ⟨fun skips => Bool.noConfusion skips, ?_⟩
    -- behind `<` the tag is read as it would be in a gap
    have same : ∀ rest, Smooth (.gap []) (tag.bytes ++ rest) → Smooth .opened (tag.bytes ++ rest) := by
      intro rest inside
      have first : (opened.step tag.first).1 = ((gap []).step tag.first).1 := by
        simp [step, gapStep, tag.letter, not_blank_of_alpha tag.letter,
          not_slash_of_alpha tag.letter]
      refine ⟨fun skips => Bool.noConfusion skips, ?_⟩
      rw [first]
      exact inside.2
    apply same
    apply smooth_name
    intro done arg
    exact smooth_attributes attributes _ (.name done arg) _ later
  · rfl

theorem smooth_written (tag : NameForm) (level : Nat) (attributes : List Content) :
    Smooth .text (List.replicate level Chr.space ++ Chr.lessThan :: (tag.bytes ++
      ((attributes.map Content.form).flatMap AttributeForm.bytes ++
        ([Chr.slash, Chr.greaterThan] ++ [Chr.carriageReturn, Chr.lineFeed])))) :=
  smooth_markup tag level attributes smooth_closing

/-- A smooth stream leaves the parser its place at every border. -/
theorem resumes_of_smooth (chunks : List (List Byte)) {s : XmlParser} {before : List Byte}
    (smooth : Smooth (run .text before).2 chunks.flatten) (taken : EveryRead Taken s before chunks) :
    EveryRead (Resumes True) s before chunks := by
  induction chunks generalizing s before with
  | nil => trivial
  | cons chunk rest ih =>
      obtain ⟨⟨some, whole⟩, later⟩ := taken
      rw [List.flatten_cons] at smooth
      refine ⟨⟨fun _ => .inl trivial, ?_⟩, ?_⟩
      · intro skips
        cases chunk with
        | nil => exact absurd rfl some
        | cons c others => simpa using smooth.1 skips
      · split at later
        · trivial
        · apply ih _ later
          rw [run_append]
          exact ((smooth_append _ _ _).mp smooth).2

/-! ### Reading it back -/

theorem strcasecmp_comm (a b : List Byte) : strcasecmp a b = strcasecmp b a := by
  rw [strcasecmp, strcasecmp, Bool.eq_iff_iff, beq_iff_eq, beq_iff_eq]
  exact eq_comm

theorem strcasecmp_self (a : List Byte) : strcasecmp a a = true := by
  rw [strcasecmp, beq_iff_eq]

/-- `find` stops at the first attribute of the name, whatever stands behind it. -/
theorem findIn_first (front behind : List RawAttribute) (name value : List Byte)
    (plainName : ∀ c ∈ name, c ≠ Chr.nul) (plain : ∀ c ∈ value, c ≠ Chr.nul)
    (others : ∀ b ∈ front, strcasecmp name b.1 = false ∧ ∀ c ∈ b.1, c ≠ Chr.nul)
    {attributes : List (CString × CString)}
    (reads : List.Forall₂ (AttributeReads lost) attributes (front ++ (name, some value) :: behind)) :
    Element.findIn name attributes = some (some (.text value)) := by
  induction front generalizing attributes with
  | nil =>
      obtain ⟨p, rest, ⟨first, second⟩, -, rfl⟩ := List.forall₂_cons_right_iff.mp reads
      obtain ⟨entry, content⟩ := p
      have second : content = .text value := by
        rcases second with same | ⟨-, none⟩
        · simpa [readAttribute, readText_plain value plain] using same
        · exact absurd none (by simp)
      have first : entry = .text name := by
        simpa [readAttribute, readText_plain name plainName] using first
      simp [Element.findIn, first, second, strcasecmp_self]
  | cons b front ih =>
      obtain ⟨p, rest, ⟨first, -⟩, tail, rfl⟩ := List.forall₂_cons_right_iff.mp reads
      obtain ⟨entry, content⟩ := p
      obtain ⟨different, plain⟩ := others b List.mem_cons_self
      have first : entry = .text b.1 := by
        simpa [readAttribute, readText_plain b.1 plain] using first
      have found := ih (fun c member => others c (List.mem_cons_of_mem b member)) tail
      simp [Element.findIn, first, different, found]

theorem getString_written (tag : NameForm) (attributes more : List Content) (a : Content)
    (member : a ∈ attributes)
    (different : (tag.bytes :: attributes.map fun a => a.name.bytes).Pairwise
      fun a b => strcasecmp a b = false) {e : Element}
    (reads : Reads lost e ((tag.bytes, none) ::
      ((attributes ++ more).map Content.form).map AttributeForm.raw)) :
    e.getString a.name.bytes = some (some a.str) := by
  obtain ⟨front, behind, rfl⟩ := List.append_of_mem member
  have plainName (name : NameForm) : ∀ c ∈ name.bytes, c ≠ Chr.nul := fun c inside =>
    (name_ends name c inside).2
  have plain : ∀ c ∈ setEscaped a.str, c ≠ Chr.nul := by
    intro c inside none
    exact setEscaped_quiet a.str a.plain c inside (by simp [none])
  have others : ∀ b ∈ (tag.bytes, none) :: (front.map Content.form).map AttributeForm.raw,
      strcasecmp a.name.bytes b.1 = false ∧ ∀ c ∈ b.1, c ≠ Chr.nul := by
    simp only [List.map_append, List.map_cons, List.pairwise_cons, List.pairwise_append] at different
    obtain ⟨tagOther, -, -, apart⟩ := different
    intro b inside
    rcases List.mem_cons.mp inside with first | later
    · rw [first, strcasecmp_comm]
      exact ⟨tagOther _ (by simp), plainName tag⟩
    · obtain ⟨c, listed, same⟩ : ∃ c ∈ front, c.form.raw = b := by simpa using later
      rw [← same, strcasecmp_comm]
      exact ⟨apart _ (List.mem_map_of_mem listed) _ List.mem_cons_self, plainName c.name⟩
  have strings : List.Forall₂ (AttributeReads lost) e.attributes
      (((tag.bytes, none) :: (front.map Content.form).map AttributeForm.raw) ++
        (a.name.bytes, some (setEscaped a.str)) ::
          ((behind ++ more).map Content.form).map AttributeForm.raw) := by
    have all := reads.attributes
    rw [List.append_assoc, List.cons_append, List.map_append, List.map_append, List.map_cons,
      List.map_cons] at all
    exact all
  have found := findIn_first _ _ a.name.bytes (setEscaped a.str) (plainName a.name) plain others strings
  rw [Element.getString, Element.find, found]
  simp [unescape_setEscaped]

/-- Whatever is written, however the text is cut on its way, is read back as one
element: its tag is the name, and every attribute has the string given for it. -/
theorem written_recognised (bufMax level : Nat) (tag : NameForm) (id : List Byte)
    (attributes : List Content) (plain : ∀ c ∈ id, c ≠ Chr.nul)
    (different : (tag.bytes :: attributes.map fun a => a.name.bytes).Pairwise
      fun a b => strcasecmp a b = false)
    (chunks : List (List Byte))
    (complete : chunks.flatten =
      written tag.bytes level id (attributes.map fun a => (a.name.bytes, a.str)))
    (taken : EveryRead Taken (XmlParser.new bufMax) [] chunks) :
    ∃ e, feed (XmlParser.new bufMax) chunks = some [e] ∧ e.tag = .text tag.bytes ∧
      ∀ a ∈ attributes, e.getString a.name.bytes = some (some a.str) := by
  rw [written_eq tag level id attributes plain] at complete
  have smooth := smooth_written tag level (contents attributes id plain)
  have reads := run_written tag level (contents attributes id plain)
  rw [← complete] at smooth reads
  have between : XmlParser.Between True (XmlParser.new bufMax) (run .text []).2 :=
    between_new bufMax
  obtain ⟨elements, fed, strings⟩ := feed_reads chunks between taken
    (resumes_of_smooth chunks smooth taken)
  have start : (run .text []).2 = .text := rfl
  rw [start, reads] at strings
  obtain ⟨e, rest, found, none, rfl⟩ := List.forall₂_cons_right_iff.mp strings
  rw [List.forall₂_nil_right_iff.mp none] at fed
  refine ⟨e, fed, ?_, ?_⟩
  · rw [found.tag]
    exact readText_plain tag.bytes fun c inside => (name_ends tag c inside).2
  · intro a member
    have front : ∃ more, contents attributes id plain = attributes ++ more := by
      by_cases none : id = []
      · exact ⟨[], by simp [contents, none]⟩
      · exact ⟨[⟨idName, id, plain⟩], by simp [contents, none]⟩
    obtain ⟨more, whole⟩ := front
    rw [whole] at found
    exact getString_written tag attributes more a member different found

/-- `message="a<b & "&lt;""`, before it is escaped -/
def message : Content :=
  ⟨⟨109, ascii "essage", by decide, by decide⟩, ascii "a<b & \"&lt;\"", by decide⟩

/-- `<warn/>`, with that message and an id, cut inside an escape. -/
theorem written_recognised_warn :
    ∃ e, feed (XmlParser.new 8192) [ascii " <warn message=\"a&l", ascii "t;b &amp; &quot;&amp;lt;&quot;\"",
        ascii " id=\"7\"/>\r\n"] = some [e] ∧
      e.tag = .text (ascii "warn") ∧
      ∀ a ∈ [message], e.getString a.name.bytes = some (some a.str) :=
  written_recognised 8192 1 ⟨119, ascii "arn", by decide, by decide⟩ (ascii "7") [message]
    (by decide) (by decide) _ (by decide) (by decide)

end XmlElement
end PdServ
