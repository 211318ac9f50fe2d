import PdServ.XmlScan
import Mathlib.Data.List.Forall2
import Mathlib.Data.List.TakeWhile

/-!
The buffered parser refines the character machine. The buffer is cut at
`parsePos` into a consumed part, where every recorded string lies, and an unread
part, which the machine has yet to read. A pass of the switch moves a prefix of
the unread part over, some of its delimiters overwritten, and takes the machine
the same way.
-/

namespace PdServ
namespace XmlParser
open Scan

-- whether null pointers may have been moved
variable {lost : Prop}

/-! ### Strings in the consumed part -/

/-- The string at `offset` is followed by a NUL. -/
def Ended (pre : List Byte) (offset : Nat) (bytes : List Byte) : Prop :=
  ∃ tail, pre.drop offset = bytes ++ Chr.nul :: tail

/-- The string at `offset` reaches up to the parsing position. -/
def Reaching (pre : List Byte) (offset : Nat) (bytes : List Byte) : Prop :=
  offset ≤ pre.length ∧ pre.drop offset = bytes

def Settled (pre : List Byte) (offset : Nat) (bytes : List Byte) : Prop :=
  Ended pre offset bytes ∨ Reaching pre offset bytes

theorem ended_append (pre w : List Byte) (offset : Nat) (bytes : List Byte)
    (ended : Ended pre offset bytes) : Ended (pre ++ w) offset bytes := by
  obtain ⟨tail, at_offset⟩ := ended
  have inside : offset ≤ pre.length := by
    by_contra beyond
    rw [List.drop_eq_nil_of_le (by omega)] at at_offset
    simp at at_offset
  refine ⟨tail ++ w, ?_⟩
  rw [List.drop_append_of_le_length inside, at_offset]
  simp

theorem reaching_append (pre w : List Byte) (offset : Nat) (bytes : List Byte)
    (reaching : Reaching pre offset bytes) : Reaching (pre ++ w) offset (bytes ++ w) := by
  refine ⟨by simp [reaching.1, Nat.le_add_right_of_le], ?_⟩
  rw [List.drop_append_of_le_length reaching.1, reaching.2]

theorem reaching_here (pre value : List Byte) : Reaching (pre ++ value) pre.length value :=
  ⟨by simp, by simp⟩

/-- Overwriting the delimiter ends the string in front of it. -/
theorem reaching_ends (pre w : List Byte) (offset : Nat) (bytes : List Byte)
    (reaching : Reaching pre offset bytes) : Ended (pre ++ Chr.nul :: w) offset bytes := by
  refine ⟨w, ?_⟩
  rw [List.drop_append_of_le_length reaching.1, reaching.2]

theorem settled_ends (pre w : List Byte) (offset : Nat) (bytes : List Byte)
    (settled : Settled pre offset bytes) : Ended (pre ++ Chr.nul :: w) offset bytes := by
  rcases settled with ended | reaching
  · exact ended_append pre _ offset bytes ended
  · exact reaching_ends pre w offset bytes reaching

/-! ### The recorded attributes -/

def AttributeAt (lost : Prop) (hold : Nat → List Byte → Prop) (name : Nat) (p : CharPtr × CharPtr)
    (a : RawAttribute) : Prop :=
  ∃ i, name ≤ i ∧ p.1 = .inBuf i ∧ hold i a.1 ∧
    match a.2 with
    | none => p.2 = .null ∨ lost ∧ p.2 = .wild
    | some value => ∃ j, name ≤ j ∧ p.2 = .inBuf j ∧ hold j value

/-- The attribute list of a parser with this `name` and `starttls`. -/
structure Collected (lost : Prop) (hold : Nat → List Byte → Prop) (name : Nat)
    (attributes : List (CharPtr × CharPtr)) (tls : Bool) (done : List RawAttribute) : Prop where
  stored : List.Forall₂ (AttributeAt lost hold name) attributes done
  tag : ∀ p ∈ attributes.head?, p.1 = .inBuf name
  isTls : tls = isTls done

theorem attribute_mono {hold keep : Nat → List Byte → Prop} {name : Nat}
    {p : CharPtr × CharPtr} {a : RawAttribute}
    (imp : ∀ i bytes, hold i bytes → keep i bytes) (h : AttributeAt lost hold name p a) :
    AttributeAt lost keep name p a := by
  obtain ⟨i, low, first, held, second⟩ := h
  refine ⟨i, low, first, imp _ _ held, ?_⟩
  cases value : a.2 with
  | none => simpa [value] using second
  | some v =>
      simp only [value] at second
      obtain ⟨j, low', eq, held'⟩ := second
      exact ⟨j, low', eq, imp _ _ held'⟩

theorem collected_mono {hold keep : Nat → List Byte → Prop} {name : Nat}
    {attributes : List (CharPtr × CharPtr)} {tls : Bool} {done : List RawAttribute}
    (imp : ∀ i bytes, hold i bytes → keep i bytes)
    (h : Collected lost hold name attributes tls done) : Collected lost keep name attributes tls done :=
  ⟨h.stored.imp fun _ _ stored => attribute_mono imp stored, h.tag, h.isTls⟩

theorem collected_nil_iff {hold : Nat → List Byte → Prop} {name : Nat}
    {attributes : List (CharPtr × CharPtr)} {tls : Bool} {done : List RawAttribute}
    (h : Collected lost hold name attributes tls done) : attributes = [] ↔ done = [] := by
  have same := h.stored.length_eq
  constructor
  · intro none
    rw [none] at same
    exact List.eq_nil_of_length_eq_zero (by simpa using same.symm)
  · intro none
    rw [none] at same
    exact List.eq_nil_of_length_eq_zero (by simpa using same)

theorem isTls_append (done : List RawAttribute) (a : RawAttribute) (some : done ≠ []) :
    isTls (done ++ [a]) = isTls done := by
  cases done with
  | nil => exact absurd rfl some
  | cons b rest =>
      obtain ⟨tag, value⟩ := b
      cases value <;> rfl

/-- One more attribute; the first one is the tag, which starts at `name`. -/
theorem collected_push {hold : Nat → List Byte → Prop} {name : Nat}
    {attributes : List (CharPtr × CharPtr)} {tls tls' : Bool} {done : List RawAttribute}
    {p : CharPtr × CharPtr} {a : RawAttribute}
    (h : Collected lost hold name attributes tls done) (new : AttributeAt lost hold name p a)
    (tag : done = [] → p.1 = .inBuf name) (isTls : tls' = Scan.isTls (done ++ [a])) :
    Collected lost hold name (attributes ++ [p]) tls' (done ++ [a]) where
  stored := List.rel_append h.stored (.cons new .nil)
  tag := by
    cases shape : attributes with
    | nil =>
        intro q member
        have same : p = q := by simpa using member
        rw [← same]
        exact tag ((collected_nil_iff h).mp shape)
    | cons first rest =>
        intro q member
        apply h.tag
        simpa [shape] using member
  isTls := isTls

/-- The strings of an attribute are those collected; a missing value may be lost. -/
def AttributeReads (lost : Prop) (p : CString × CString) (a : RawAttribute) : Prop :=
  p.1 = (readAttribute a).1 ∧ (p.2 = (readAttribute a).2 ∨ lost ∧ a.2 = none)

structure Reads (lost : Prop) (e : Element) (done : List RawAttribute) : Prop where
  tag : e.tag = (readElement done).tag
  attributes : List.Forall₂ (AttributeReads lost) e.attributes done

theorem attributes_of_reads {attributes : List (CString × CString)}
    {done : List RawAttribute}
    (strings : List.Forall₂ (AttributeReads False) attributes done) :
    attributes = done.map readAttribute := by
  induction strings with
  | nil => rfl
  | cons head _ ih =>
      obtain ⟨first, second | ⟨none, -⟩⟩ := head
      · rw [List.map_cons, ← ih, ← Prod.ext first second]
      · exact none.elim

/-- An element none of whose values is lost. -/
theorem Reads.eq {e : Element} {done : List RawAttribute} (reads : Reads False e done) :
    e = readElement done := by
  obtain ⟨tag, attributes⟩ := e
  obtain ⟨same, strings⟩ := reads
  dsimp only at same strings
  rw [same, attributes_of_reads strings]
  rfl

/-! ### Parser states and machine states -/

structure At (s : XmlParser) (pre unread : List Byte) : Prop where
  data : s.data = pre ++ unread
  pos : s.parsePos = pre.length

/-- The attributes in front of a gap: the last string may still wait for its NUL,
but then the next byte is no letter and will be overwritten or reject the element. -/
def GapAt (lost : Prop) (s : XmlParser) (pre unread : List Byte) (done : List RawAttribute) : Prop :=
  Collected lost (Ended pre) s.name s.attributes s.starttls done ∨
    Collected lost (Settled pre) s.name s.attributes s.starttls done ∧
      ∃ c rest, unread = c :: rest ∧ isalpha c = false

def NameAt (lost : Prop) (s : XmlParser) (pre : List Byte) (done : List RawAttribute)
    (arg : List Byte) : Prop :=
  Collected lost (Ended pre) s.name s.attributes s.starttls done ∧
    ∃ i, s.argument = .inBuf i ∧ s.name ≤ i ∧ (i = s.name ↔ done = []) ∧ Reaching pre i arg

/-- An attribute whose name is recorded and whose value reaches to the position. -/
def ValueAt (lost : Prop) (s : XmlParser) (pre : List Byte) (done : List RawAttribute)
    (arg value : List Byte) : Prop :=
  ∃ earlier i j, s.attributes = earlier ++ [(.inBuf i, .inBuf j)] ∧
    Collected lost (Ended pre) s.name earlier s.starttls done ∧ s.name ≤ i ∧ s.name ≤ j ∧
    (done = [] → i = s.name) ∧ Ended pre i arg ∧ Reaching pre j value

/-- What the parser state means. The machine states that no parser state stands
for are left behind before a pass ends. -/
def Means (lost : Prop) (s : XmlParser) (pre unread : List Byte) : Scan → Prop
  | .text => s.parseState = .FindElementStart
  | .gap done => s.parseState = .FindElementEnd ∧ done ≠ [] ∧ s.name < pre.length ∧
      GapAt lost s pre unread done
  | .name done arg => s.parseState = .FindArgumentName ∧ arg ≠ [] ∧ NameAt lost s pre done arg
  | .quoted quote done arg value => s.parseState = .FindQuotedArgumentValue ∧
      s.quote = quote ∧ ValueAt lost s pre done arg value
  | .unquoted done arg value => s.parseState = .FindArgumentValue ∧
      ValueAt lost s pre done arg value
  | .tlsEnd done => s.parseState = .FindTLSEnd ∧ done ≠ [] ∧
      Collected lost (Ended pre) s.name s.attributes s.starttls done
  | _ => False

def Rel (lost : Prop) (s : XmlParser) (pre unread : List Byte) (a : Scan) : Prop :=
  At s pre unread ∧ Means lost s pre unread a

/-- What recognising elements leaves alone: the buffer and how much of it is
filled. `name` stays clear of the last two bytes. -/
structure Kept (s t : XmlParser) : Prop where
  bufLenMax : t.bufLenMax = s.bufLenMax
  bufEnd : t.bufEnd = s.bufEnd
  allocated : t.allocated = s.allocated
  overflow : t.overflow = s.overflow
  length : t.data.length = s.data.length
  name : t.name = s.name ∨ t.name + 2 ≤ s.data.length

theorem kept_refl (s : XmlParser) : Kept s s := ⟨rfl, rfl, rfl, rfl, rfl, Or.inl rfl⟩

theorem kept_trans {s t u : XmlParser} (first : Kept s t) (second : Kept t u) : Kept s u where
  bufLenMax := second.bufLenMax.trans first.bufLenMax
  bufEnd := second.bufEnd.trans first.bufEnd
  allocated := second.allocated.trans first.allocated
  overflow := second.overflow.trans first.overflow
  length := second.length.trans first.length
  name := by
    rcases second.name with same | low
    · rw [same]; exact first.name
    · right; rw [← first.length]; exact low

/-- Where the parser stands when it asks for more input, if the machine is in
state `a` after all of the input. The one exception is the stretch behind a
closing quote: the parser has forgotten that it was skipping. -/
def Rest (lost : Prop) (s : XmlParser) (a : Scan) : Prop :=
  (∃ pre unread b, Rel lost s pre unread b ∧ run b unread = ([], a) ∧
    (b = .text → unread.length ≤ 2)) ∨
  (∃ pre done, a = .skipped done ∧ Rel lost s pre [] (.gap done))

def rank : ParseState → Nat
  | .FindElementStart => 0
  | .FindElementEnd => 1
  | .FindTLSEnd => 1
  | _ => 2

/-- The contract of a pass over the unread bytes `u` from machine state `a`. -/
def PassSpec (lost : Prop) (s : XmlParser) (a : Scan) (u : List Byte) (bound : Nat) : Option Pass → Prop
  | none => False
  | some (.again t) => Kept s t ∧ ∃ pre v b, Rel lost t pre v b ∧ run a u = run b v ∧
      3 * v.length + rank t.parseState < bound
  | some (.ret true t) => Kept s t ∧ ∃ pre v done, Rel lost t pre v .text ∧
      run a u = (done :: (run .text v).1, (run .text v).2) ∧
      Reads lost t.element done ∧ v.length < u.length
  | some (.ret false t) => Kept s t ∧ (run a u).1 = [] ∧ Rest lost t (run a u).2

/-- A pass may first move on to a later state that reads the same. -/
theorem pass_spec_of {s t : XmlParser} {a b : Scan} {u v : List Byte} {bound m : Nat}
    {result : Option Pass} (kept : Kept s t) (same : run a u = run b v)
    (shorter : v.length ≤ u.length) (le : m ≤ bound)
    (spec : PassSpec lost t b v m result) : PassSpec lost s a u bound result := by
  match result, spec with
  | some (.again r), ⟨keep, pre, w, c, rel, reads, less⟩ =>
      exact ⟨kept_trans kept keep, pre, w, c, rel, same.trans reads,
        Nat.lt_of_lt_of_le less le⟩
  | some (.ret false r), ⟨keep, rest⟩ => exact ⟨kept_trans kept keep, by rw [same]; exact rest⟩
  | some (.ret true r), ⟨keep, pre, w, done, rel, reads, element, less⟩ =>
      exact ⟨kept_trans kept keep, pre, w, done, rel, by rw [same]; exact reads, element,
        Nat.lt_of_lt_of_le less shorter⟩

/-- A pass that waits for more input stands where the machine stands. -/
theorem pass_waits {s t : XmlParser} {a : Scan} {u : List Byte} {bound : Nat}
    (pre v : List Byte) (b : Scan) (kept : Kept s t) (rel : Rel lost t pre v b)
    (same : run a u = run b v) (silent : (run b v).1 = [])
    (short : b = .text → v.length ≤ 2) : PassSpec lost s a u bound (some (.ret false t)) := by
  refine ⟨kept, ?_, .inl ⟨pre, v, b, rel, ?_, short⟩⟩
  · rw [same]
    exact silent
  · rw [same]
    exact Prod.ext silent rfl

end XmlParser
end PdServ
