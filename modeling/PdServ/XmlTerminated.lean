import PdServ.XmlAccess

/-!
The strings of a recognised element. When `operator bool` is true, each of them ends at
a NUL between `name` and the parsing position, so that whoever reads them stays inside
the element. That holds behind every `read` that leaves an element in progress where it
is, whatever the bytes.
-/

namespace PdServ
namespace XmlParser
open Scan

variable {lost : Prop}

/-! ### Where an element ends -/

/-- The strings of the element all have their NUL in front of the position. -/
def Finished (lost : Prop) (t : XmlParser) : Prop :=
  ∃ pre v done, At t pre v ∧ done ≠ [] ∧
    Collected lost (Ended pre) t.name t.attributes t.starttls done

theorem findArgumentValue_unfinished {s t : XmlParser} :
    s.findArgumentValue ≠ some (.ret true t) := by
  intro ends
  simp only [findArgumentValue, Option.bind_eq_bind, Option.bind_eq_some_iff] at ends
  obtain ⟨_, _, ends⟩ := ends
  split at ends <;> cases ends

theorem findQuotedArgumentValue_unfinished {s t : XmlParser} :
    s.findQuotedArgumentValue ≠ some (.ret true t) := by
  intro ends
  simp only [findQuotedArgumentValue] at ends
  split at ends
  · cases ends
  · exact findArgumentValue_unfinished ends

theorem findArgumentName_unfinished {s t : XmlParser} :
    s.findArgumentName ≠ some (.ret true t) := by
  intro ends
  simp only [findArgumentName, Option.bind_eq_bind, Option.bind_eq_some_iff] at ends
  obtain ⟨_, _, ends⟩ := ends
  split at ends
  · cases ends
  obtain ⟨_, _, ends⟩ := Option.bind_eq_some_iff.mp ends
  split at ends
  · cases ends
  split at ends
  · cases ends
  obtain ⟨_, _, ends⟩ := Option.bind_eq_some_iff.mp ends
  split at ends
  · cases ends
  split at ends
  · cases ends
  exact findQuotedArgumentValue_unfinished ends

theorem at_of_deref {s : XmlParser} {c : Byte} (here : s.deref s.parsePos = some c) :
    At s (s.data.take s.parsePos) (c :: s.data.drop (s.parsePos + 1)) := by
  obtain ⟨inside, same⟩ := List.getElem?_eq_some_iff.mp here
  refine ⟨?_, by rw [List.length_take, Nat.min_eq_left (Nat.le_of_lt inside)]⟩
  rw [← same, ← List.drop_eq_getElem_cons inside, List.take_append_drop]

/-- A letter belongs to a name, which goes on beyond it. -/
theorem findElementEnd_unfinished {s t : XmlParser} {c : Byte}
    (here : s.deref s.parsePos = some c) (letter : isalpha c = true) :
    s.findElementEnd ≠ some (.ret true t) := by
  rw [elementEnd_letter (at_of_deref here) letter]
  exact findArgumentName_unfinished

theorem findElementStart_unfinished {s t : XmlParser} :
    s.findElementStart ≠ some (.ret true t) := by
  intro ends
  simp only [findElementStart, Option.bind_eq_bind] at ends
  split at ends
  · cases ends
  obtain ⟨c, here, ends⟩ := Option.bind_eq_some_iff.mp ends
  split at ends
  · cases ends
  · rename_i letter
    refine absurd ends (findElementEnd_unfinished (c := c) ?_ ?_)
    · exact here
    · simpa using letter

theorem cons_of_deref {s : XmlParser} {pre u : List Byte} {c : Byte} (data : s.data = pre ++ u)
    (here : s.deref pre.length = some c) : ∃ rest, u = c :: rest := by
  rw [deref, data, List.getElem?_append_right (Nat.le_refl _), Nat.sub_self] at here
  cases u with
  | nil => cases here
  | cons d rest => exact ⟨rest, by simpa using here⟩

theorem findElementEnd_finishes {s t : XmlParser} {pre u : List Byte} {done : List RawAttribute}
    (rel : Rel lost s pre u (.gap done)) (ends : s.findElementEnd = some (.ret true t)) :
    Finished lost t := by
  obtain ⟨cut, state, some, low, gap⟩ := rel
  obtain ⟨pre', v, skipped, gap', -⟩ := clobberSpaces_skips cut low gap
  simp only [findElementEnd, Option.bind_eq_bind, Option.bind_eq_some_iff] at ends
  obtain ⟨_, -, ends⟩ := ends
  generalize s.clobberSpaces = r at skipped ends
  have cut' := skipped.cut
  have gapAt : GapAt lost r pre' v done := by
    rw [GapAt, skipped.name, skipped.attributes, skipped.starttls]
    exact gap'
  split at ends
  · cases ends
  obtain ⟨c, here, ends⟩ := Option.bind_eq_some_iff.mp ends
  rw [cut'.pos] at here
  obtain ⟨rest, rfl⟩ := cons_of_deref cut'.data here
  have overwritten : (r.clobber r.parsePos).data = pre' ++ Chr.nul :: rest := by
    rw [cut'.pos]
    exact clobber_at cut'.data
  split at ends
  · split at ends
    · cases ends
    obtain ⟨next, behind, ends⟩ := Option.bind_eq_some_iff.mp ends
    split at ends
    · split at ends
      · cases ends
        -- the tag ends with `/>`
        have data : (r.clobber r.parsePos).data = (pre' ++ [Chr.nul]) ++ rest := by
          simpa using overwritten
        have there : (r.clobber r.parsePos).deref (pre' ++ [Chr.nul]).length = Option.some next := by
          rw [List.length_append, List.length_singleton, ← cut'.pos]
          exact behind
        obtain ⟨others, rfl⟩ := cons_of_deref data there
        refine ⟨pre' ++ [Chr.nul, next], others, done, ⟨?_, ?_⟩, some, gap_ends [next] gapAt⟩
        · simpa using overwritten
        · simp [clobber, cut'.pos]
      · cases ends
    · cases ends
  · split at ends
    · split at ends
      · split at ends
        · cases ends
          -- the tag ends with `>`
          refine ⟨pre' ++ [Chr.nul], rest, done, ⟨?_, ?_⟩, some, gap_ends [] gapAt⟩
          · simpa [clobber] using overwritten
          · simp [clobber, cut'.pos]
        · cases ends
      · cases ends
    · exact absurd ends findArgumentName_unfinished

theorem findTLSEnd_finishes {s t : XmlParser} {pre u : List Byte} {done : List RawAttribute}
    (rel : Rel lost s pre u (.tlsEnd done)) (ends : s.findTLSEnd = some (.ret true t)) :
    Finished lost t := by
  obtain ⟨cut, -, some, collected⟩ := rel
  simp only [findTLSEnd, Option.bind_eq_bind, Option.bind_eq_some_iff] at ends
  obtain ⟨c, -, ends⟩ := ends
  split at ends
  · cases ends
  obtain ⟨d, there, ends⟩ := Option.bind_eq_some_iff.mp ends
  have inside := (List.getElem?_eq_some_iff.mp there).1
  generalize position_eq : (if c = Chr.carriageReturn then s.parsePos + 1 else s.parsePos) =
    position at inside ends
  have later : s.parsePos ≤ position := by
    rw [← position_eq]
    split <;> omega
  split at ends
  · cases ends
    -- the NUL behind each string stays where it is
    have consumed : s.data.take (position + 1) = pre ++ u.take (position + 1 - pre.length) := by
      have long : pre.length ≤ position + 1 := by
        rw [← cut.pos]
        omega
      rw [cut.data, List.take_append, List.take_of_length_le long]
    refine ⟨_, s.data.drop (position + 1), done, ⟨(List.take_append_drop _ _).symm, ?_⟩, some, ?_⟩
    · rw [List.length_take, Nat.min_eq_left inside]
    · rw [consumed]
      exact collected_append _ collected
  · cases ends

theorem pass_finishes {s t : XmlParser} {pre u : List Byte} {a : Scan}
    (rel : Rel lost s pre u a) (ends : s.pass = some (.ret true t)) : Finished lost t := by
  have means := rel.2
  cases a with
  | text =>
      have state : s.parseState = .FindElementStart := means
      rw [pass, state] at ends
      exact absurd ends findElementStart_unfinished
  | gap done =>
      rw [pass, means.1] at ends
      exact findElementEnd_finishes rel ends
  | name done arg =>
      rw [pass, means.1] at ends
      exact absurd ends findArgumentName_unfinished
  | quoted quote done arg value =>
      rw [pass, means.1] at ends
      exact absurd ends findQuotedArgumentValue_unfinished
  | unquoted done arg value =>
      rw [pass, means.1] at ends
      exact absurd ends findArgumentValue_unfinished
  | tlsEnd done =>
      rw [pass, means.1] at ends
      exact findTLSEnd_finishes rel ends
  | opened => exact means.elim
  | equals => exact means.elim
  | closed => exact means.elim
  | skipped => exact means.elim
  | slash => exact means.elim
  | tlsReturn => exact means.elim

theorem loop_finishes (passes : Nat) {s t : XmlParser} {pre u : List Byte} {a : Scan}
    (rel : Rel lost s pre u a) (ends : loop passes s = some (true, t)) : Finished lost t := by
  induction passes generalizing s pre u a with
  | zero => cases ends
  | succ passes ih =>
      rw [loop] at ends
      by_cases inside : s.parsePos < s.inputEnd
      · rw [if_pos inside] at ends
        have spec := pass_spec rel (rel.1.more inside)
        cases result : s.pass with
        | none => simp [result] at ends
        | some turn =>
          rw [result] at ends spec
          cases turn with
          | ret answer r =>
            cases ends
            exact pass_finishes rel result
          | again r =>
            obtain ⟨_, pre', v, b, after, _⟩ := spec
            exact ih after ends
      · rw [if_neg inside] at ends
        cases ends

/-! ### Its strings -/

/-- The C string at a pointer has its NUL in the characters of the element. -/
def Terminated (s : XmlParser) (p : CharPtr) : Prop :=
  ∃ start stop, p = .inBuf start ∧ s.name ≤ start ∧ start ≤ stop ∧ stop < s.parsePos ∧
    s.deref stop = some Chr.nul

/-- A C string that is read from the characters of the element alone. -/
def enclosed (s : XmlParser) : CharPtr → CString
  | .inBuf offset =>
      if s.name ≤ offset then
        cstring { s with data := s.data.take s.parsePos } (.inBuf offset)
      else .wild
  | p => s.cstring p

def enclosedElement (s : XmlParser) : Element where
  tag := s.enclosed (.inBuf s.name)
  attributes := s.attributes.map fun a => (s.enclosed a.1, s.enclosed a.2)

theorem ended_nul {pre bytes : List Byte} {i : Nat} (ended : Ended pre i bytes) :
    i + bytes.length < pre.length ∧ pre[i + bytes.length]? = some Chr.nul := by
  obtain ⟨tail, behind⟩ := ended
  have nul : pre[i + bytes.length]? = some Chr.nul := by
    rw [← List.getElem?_drop, behind]
    simp
  exact ⟨(List.getElem?_eq_some_iff.mp nul).1, nul⟩

theorem terminated_of_ended {t : XmlParser} {pre v bytes : List Byte} {i : Nat}
    (cut : At t pre v) (low : t.name ≤ i) (ended : Ended pre i bytes) :
    t.Terminated (.inBuf i) := by
  obtain ⟨inside, nul⟩ := ended_nul ended
  refine ⟨i, i + bytes.length, rfl, low, Nat.le_add_right _ _, by rw [cut.pos]; exact inside, ?_⟩
  rw [deref, cut.data, List.getElem?_append_left inside]
  exact nul

theorem enclosed_of_ended {t : XmlParser} {pre v bytes : List Byte} {i : Nat}
    (cut : At t pre v) (low : t.name ≤ i) (ended : Ended pre i bytes) :
    t.enclosed (.inBuf i) = t.cstring (.inBuf i) := by
  rw [enclosed, if_pos low, cstring_ended cut.data ended]
  have whole : t.data.take t.parsePos = pre ++ [] := by rw [cut.consumed, List.append_nil]
  exact cstring_ended whole ended

/-- What the accessors of an element read through its pointers is defined. -/
structure Readable (e : Element) : Prop where
  tag : ∃ bytes, e.tag = .text bytes
  find : ∀ name, e.find name ≠ none
  isEqual : ∀ name text, e.isEqual name text ≠ none
  isTrue : ∀ name, e.isTrue name ≠ none
  getString : ∀ name, e.getString name ≠ none
  getUnsigned : ∀ name, e.getUnsigned name ≠ none

theorem readable_readElement {done : List RawAttribute} (some : done ≠ []) :
    Readable (readElement done) := by
  obtain ⟨command, defined⟩ := command_readElement done
  obtain ⟨a, rest, rfl⟩ := List.exists_cons_of_ne_nil some
  exact {
    tag := ⟨_, rfl⟩
    find := fun name => by
      obtain ⟨found, finds, -⟩ := Element.findIn_command name defined
      rw [Element.find, finds]
      simp
    isEqual := fun name text => by simp [Element.isEqual_command name text defined]
    isTrue := fun name => by simp [Element.isTrue_command name defined]
    getString := fun name => by simp [Element.getString_command name defined]
    getUnsigned := fun name => by simp [Element.getUnsigned_command name defined] }

/-- An element whose strings, and whoever reads them, stay inside it. -/
structure StaysInside (t : XmlParser) : Prop where
  position : t.parsePos ≤ t.inputEnd
  tag : t.Terminated (.inBuf t.name)
  names : ∀ a ∈ t.attributes, t.Terminated a.1
  values : ∀ a ∈ t.attributes, a.2 ≠ .null → t.Terminated a.2
  reads : t.enclosedElement = t.element ∧ Readable t.enclosedElement

theorem attribute_ended {t : XmlParser} {pre : List Byte} {a : CharPtr × CharPtr}
    {b : RawAttribute} (stored : AttributeAt False (Ended pre) t.name a b) :
    (∃ i, a.1 = .inBuf i ∧ t.name ≤ i ∧ Ended pre i b.1) ∧
      (a.2 = .null ∨ ∃ j bytes, a.2 = .inBuf j ∧ t.name ≤ j ∧ Ended pre j bytes) := by
  obtain ⟨i, low, first, ended, second⟩ := stored
  refine ⟨⟨i, first, low, ended⟩, ?_⟩
  cases value : b.2 with
  | none =>
      simp only [value] at second
      exact .inl (second.resolve_right fun moved => moved.1)
  | some bytes =>
      simp only [value] at second
      obtain ⟨j, above, here, held⟩ := second
      exact .inr ⟨j, bytes, here, above, held⟩

theorem stored_of_mem {hold : Nat → List Byte → Prop} {name : Nat}
    {attributes : List (CharPtr × CharPtr)} {done : List RawAttribute}
    (stored : List.Forall₂ (AttributeAt lost hold name) attributes done) :
    ∀ a ∈ attributes, ∃ b, AttributeAt lost hold name a b := by
  induction stored with
  | nil => simp
  | cons head _ ih =>
      intro a member
      rcases List.mem_cons.mp member with rfl | later
      · exact ⟨_, head⟩
      · exact ih a later

theorem Finished.staysInside {t : XmlParser} (finished : Finished False t) : t.StaysInside := by
  obtain ⟨pre, v, done, cut, some, collected⟩ := finished
  have each : ∀ a ∈ t.attributes, ∃ b, AttributeAt False (Ended pre) t.name a b :=
    stored_of_mem collected.stored
  -- the tag is the first name
  obtain ⟨first, others, shape⟩ : ∃ first others, t.attributes = first :: others := by
    refine List.exists_cons_of_ne_nil fun none => some ?_
    exact (collected_nil_iff collected).mp none
  have here : first.1 = .inBuf t.name := collected.tag first (by simp [shape])
  obtain ⟨b, stored⟩ := each first (by simp [shape])
  obtain ⟨⟨i, first_at, low, ended⟩, -⟩ := attribute_ended stored
  cases CharPtr.inBuf.inj (first_at.symm.trans here)
  have same : t.enclosedElement = t.element := by
    rw [enclosedElement, element, enclosed_of_ended cut low ended]
    congr 1
    apply List.map_congr_left
    intro a member
    obtain ⟨b, stored⟩ := each a member
    obtain ⟨⟨i, name, low, ended⟩, value⟩ := attribute_ended stored
    rw [name, enclosed_of_ended cut low ended]
    rcases value with null | ⟨j, bytes, value, above, held⟩
    · rw [null]
      rfl
    · rw [value, enclosed_of_ended cut above held]
  refine ⟨?_, terminated_of_ended cut low ended, ?_, ?_, same, ?_⟩
  · rw [cut.pos, inputEnd_at cut.data]
    exact Nat.le_add_right _ _
  · intro a member
    obtain ⟨b, stored⟩ := each a member
    obtain ⟨⟨i, name, low, ended⟩, -⟩ := attribute_ended stored
    rw [name]
    exact terminated_of_ended cut low ended
  · intro a member valued
    obtain ⟨b, stored⟩ := each a member
    obtain ⟨-, value⟩ := attribute_ended stored
    rcases value with null | ⟨j, bytes, value, above, held⟩
    · exact absurd null valued
    · rw [value]
      exact terminated_of_ended cut above held
  · rw [same, (element_collected pre v cut.data some collected).eq]
    exact readable_readElement some

/-! ### The parsers in question -/

/-- A `read` here leaves an element in progress where it is. Between two elements the
data may be moved, if the position is not in front of `name`: that is so once
`operator bool` has been false. -/
def KeepsElement (s : XmlParser) : Prop :=
  s.bufEnd = s.inputEnd → s.parseState = .FindElementStart ∧ s.name ≤ s.parsePos

/-- A parser that calls of `operator bool` and reads of any bytes have led to, in any
order. -/
inductive Appended (bufMax : Nat) : XmlParser → Prop
  | start : Appended bufMax (new bufMax)
  | operatorBool {s t : XmlParser} {result : Bool} :
      Appended bufMax s → s.operatorBool = some (result, t) → Appended bufMax t
  | read {s : XmlParser} (sb : List Byte) :
      Appended bufMax s → s.KeepsElement → (s.read sb).2.overflow = false →
      Appended bufMax (s.read sb).2

theorem MakesRoom.rel_kept {s t : XmlParser} {pre u : List Byte} {b : Scan}
    (rel : Rel False s pre u b) (keeps : s.KeepsElement) (room : MakesRoom s t) :
    ∃ pre', Rel False t pre' u b := by
  have pos := rel.1.pos
  cases room with
  | shift full _ =>
      obtain ⟨start, low⟩ := keeps full
      exact ⟨_, moveData_rel rel (pos ▸ low) (.inl (text_of_start rel start))⟩
  | grow full =>
      obtain ⟨start, low⟩ := keeps full
      have moved := moveData_rel rel (pos ▸ low) (.inl (text_of_start rel start))
      exact ⟨_, ⟨moved.1.data, moved.1.pos⟩, moved.2⟩
  | reset full start empty =>
      have text := text_of_start rel start
      have size := inputEnd_at rel.1.data
      have none : u = [] := List.eq_nil_of_length_eq_zero (by omega)
      subst text none
      exact ⟨[], ⟨rfl, rfl⟩, start⟩
  | stay _ => exact ⟨pre, rel⟩

theorem Appended.rel {bufMax : Nat} {s : XmlParser} (appended : Appended bufMax s) :
    ∃ pre u b, Rel False s pre u b := by
  induction appended with
  | start => exact ⟨[], [], .text, ⟨rfl, rfl⟩, rfl⟩
  | operatorBool _ done ih =>
      obtain ⟨pre, u, a, rel⟩ := ih
      rcases operatorBool_spec rel with ⟨r, halts, -, -, rest⟩ | ⟨r, pre', v, -, halts, -, text, -⟩
      · rw [done] at halts
        cases halts
        rcases rest with ⟨pre', v, b, rel, -⟩ | ⟨pre', finished, -, rel⟩
        · exact ⟨pre', v, b, rel⟩
        · exact ⟨pre', [], .gap finished, rel⟩
      · rw [done] at halts
        cases halts
        exact ⟨pre', v, .text, text⟩
  | read sb _ keeps valid ih =>
      rename_i s _
      obtain ⟨pre, u, b, rel⟩ := ih
      rcases read_cases s sb with ⟨-, -, -, reads⟩ | ⟨t, room, reads⟩
      · simp [reads] at valid
      · obtain ⟨pre', moved⟩ := room.rel_kept rel keeps
        rw [reads]
        exact ⟨pre', _, b, append_rel _ moved⟩

/-- No character outside of the input is looked at or overwritten; and behind a true
result nobody who reads the element leaves it. -/
theorem Appended.encloses {bufMax : Nat} {s : XmlParser} (appended : Appended bufMax s) :
    ∃ result t, Access.operatorBool s = some (result, t) ∧ s.operatorBool = some (result, t) ∧
      (result = true → t.StaysInside) := by
  obtain ⟨pre, u, a, rel⟩ := appended.rel
  rw [Access.operatorBool_eq rel]
  rcases operatorBool_spec rel with ⟨t, halts, -⟩ | ⟨t, -, -, -, halts, -⟩
  · exact ⟨false, t, halts, halts, by simp⟩
  · exact ⟨true, t, halts, halts, fun _ => (loop_finishes _ rel halts).staysInside⟩

theorem encloses_split :
    ∃ result t, Access.operatorBool ((new 8192).read (ascii "<a b=c d='e' f>")).2 =
      some (result, t) ∧
      ((new 8192).read (ascii "<a b=c d='e' f>")).2.operatorBool = some (result, t) ∧
      (result = true → t.StaysInside) :=
  Appended.encloses (.read _ .start (fun _ => ⟨rfl, Nat.le_refl _⟩) (by decide))

end XmlParser
end PdServ
