import PdServ.XmlStream
import PdServ.XmlAttributes

/-!
`XmlParser::read` in front of an element that has begun. The bytes collected so far
stay where they are, are shifted to the start of the buffer or are copied to a larger
one, and every pointer into them follows. A null pointer follows as well: it is how
an attribute without a value is recorded.
-/

namespace PdServ
namespace XmlParser
open Scan

/-! ### The ways to make room -/

/-- The parser with `n` more bytes of the stream behind its input. -/
def append (s : XmlParser) (sb : List Byte) (n : Nat) : XmlParser :=
  { s with data := s.data ++ sb.take n }

/-- `parsePos` and what is behind it in `[buf, inputEnd)`. -/
def unread (s : XmlParser) : List Byte := s.data.drop s.parsePos

def grow (s : XmlParser) : XmlParser :=
  { s.moveData with allocated := true, bufEnd := s.bufEnd + bufIncrement }

def reset (s : XmlParser) : XmlParser := { s with data := [], parsePos := 0 }

/-- The parser into which a `read` that does not overflow takes its bytes. -/
inductive MakesRoom (s : XmlParser) : XmlParser → Prop
  | shift : s.bufEnd = s.inputEnd → 1 < s.name → MakesRoom s s.moveData
  | grow : s.bufEnd = s.inputEnd → MakesRoom s s.grow
  | reset : s.bufEnd ≠ s.inputEnd → s.parseState = .FindElementStart →
      s.parsePos = s.inputEnd → MakesRoom s s.reset
  | stay : s.bufEnd ≠ s.inputEnd → MakesRoom s s

/-- Everything a `read` can do. -/
theorem read_cases (s : XmlParser) (sb : List Byte) :
    (s.bufEnd = s.inputEnd ∧ s.name ≤ 1 ∧ s.bufLenMax ≤ s.bufEnd ∧
      s.read sb = (0, { s with overflow := true, data := [] })) ∨
    ∃ t, MakesRoom s t ∧ s.read sb = (min sb.length (t.bufEnd - t.inputEnd),
      t.append sb (min sb.length (t.bufEnd - t.inputEnd))) := by
  rw [read]
  by_cases full : s.bufEnd = s.inputEnd
  · rw [if_pos full]
    by_cases shift : s.name > 1
    · rw [if_pos shift]
      exact .inr ⟨_, .shift full shift, rfl⟩
    · rw [if_neg shift]
      by_cases limit : s.bufEnd ≥ s.bufLenMax
      · rw [if_pos limit]
        exact .inl ⟨full, Nat.le_of_not_lt shift, limit, rfl⟩
      · rw [if_neg limit]
        exact .inr ⟨_, .grow full, rfl⟩
  · rw [if_neg full]
    by_cases empty : s.parseState = .FindElementStart ∧ s.parsePos = s.inputEnd
    · rw [if_pos empty]
      exact .inr ⟨_, .reset full empty.1 empty.2, rfl⟩
    · rw [if_neg empty]
      exact .inr ⟨_, .stay full, rfl⟩

theorem MakesRoom.overflow {s t : XmlParser} (room : MakesRoom s t) : t.overflow = s.overflow := by
  cases room <;> rfl

theorem MakesRoom.parseState {s t : XmlParser} (room : MakesRoom s t) :
    t.parseState = s.parseState := by
  cases room <;> rfl

/-! ### The parsers of a session -/

/-- A `read` comes after an `operator bool` that was false, or while an element is
in progress. -/
def Ready (s : XmlParser) : Prop :=
  s.parseState ≠ .FindElementStart ∨ s.operatorBool = some (false, s)

/-- A parser some calls have led to, and the bytes it has taken from its stream. -/
inductive Reached (bufMax : Nat) : List Byte → XmlParser → Prop
  | start : Reached bufMax [] (new bufMax)
  | read {received : List Byte} {s : XmlParser} (sb : List Byte) :
      Reached bufMax received s → s.Ready → (s.read sb).2.overflow = false →
      Reached bufMax (received ++ sb.take (s.read sb).1) (s.read sb).2
  | operatorBool {received : List Byte} {s t : XmlParser} {result : Bool} :
      Reached bufMax received s → s.operatorBool = some (result, t) → Reached bufMax received t

/-- What holds of each of them; values may have been lost. -/
structure Standing (s : XmlParser) : Prop where
  place : ∃ pre u b, Rel True s pre u b
  fits : s.data.length ≤ s.bufEnd
  name : s.name = 0 ∨ s.name + 2 ≤ s.bufEnd
  overflow : s.overflow = false

theorem operatorBool_rel {s t : XmlParser} {result : Bool} {pre u : List Byte} {a : Scan}
    (rel : Rel True s pre u a) (done : s.operatorBool = some (result, t)) :
    Kept s t ∧ ∃ pre' v b, Rel True t pre' v b ∧ (result = false → b = .text → v.length ≤ 2) := by
  rcases operatorBool_spec rel with ⟨r, halts, kept, -, rest⟩ |
    ⟨r, pre', v, finished, halts, kept, text, -, -, -⟩
  · rw [done] at halts
    cases halts
    refine ⟨kept, ?_⟩
    rcases rest with ⟨pre', v, b, rel, -, short⟩ | ⟨pre', finished, -, rel⟩
    · exact ⟨pre', v, b, rel, fun _ => short⟩
    · exact ⟨pre', [], .gap finished, rel, by simp⟩
  · rw [done] at halts
    cases halts
    exact ⟨kept, pre', v, .text, text, by simp⟩

/-- The position cuts the buffer in one way. -/
theorem At.unread {s : XmlParser} {pre u : List Byte} (cut : At s pre u) : s.unread = u := by
  rw [XmlParser.unread, cut.data, cut.pos, List.drop_left]

theorem At.consumed {s : XmlParser} {pre u : List Byte} (cut : At s pre u) :
    s.data.take s.parsePos = pre := by
  rw [cut.data, cut.pos, List.take_left]

theorem ready_short {s : XmlParser} {pre u : List Byte} (rel : Rel True s pre u .text)
    (ready : s.Ready) : u.length ≤ 2 := by
  rcases ready with busy | drained
  · exact absurd rel.2 busy
  · obtain ⟨-, pre', v, b, again, short⟩ := operatorBool_rel rel drained
    have text : b = .text := text_of_start again rel.2
    rw [← rel.1.unread, again.1.unread]
    exact short rfl text

/-- Nothing in front of `name` is still needed when the buffer is full. -/
theorem name_consumed {s : XmlParser} {pre u : List Byte} {b : Scan} (standing : Standing s)
    (rel : Rel True s pre u b) (ready : s.Ready) (full : s.bufEnd = s.inputEnd) :
    s.name ≤ pre.length := by
  by_cases text : b = .text
  · subst text
    have few := ready_short rel ready
    have size := inputEnd_at rel.1.data
    rcases standing.name with zero | below <;> omega
  · exact name_low rel text

theorem MakesRoom.rel {s t : XmlParser} {pre u : List Byte} {b : Scan} (standing : Standing s)
    (rel : Rel True s pre u b) (ready : s.Ready) (room : MakesRoom s t) :
    (∃ pre', Rel True t pre' u b) ∧ t.data.length ≤ t.bufEnd ∧
      (t.name = 0 ∨ t.name + 2 ≤ t.bufEnd) := by
  have fits := standing.fits
  have shrinks : s.moveData.data.length ≤ s.data.length := by simp [moveData]
  cases room with
  | shift full name =>
      have moved := moveData_rel rel (name_consumed standing rel ready full) (.inr (.inl trivial))
      exact ⟨⟨_, moved⟩, Nat.le_trans shrinks fits, .inl rfl⟩
  | grow full =>
      have moved := moveData_rel rel (name_consumed standing rel ready full) (.inr (.inl trivial))
      refine ⟨⟨_, ⟨moved.1.data, moved.1.pos⟩, moved.2⟩, ?_, .inl rfl⟩
      exact Nat.le_trans shrinks (Nat.le_add_right_of_le fits)
  | reset full start empty =>
      have text := text_of_start rel start
      have size := inputEnd_at rel.1.data
      have pos := rel.1.pos
      have none : u = [] := List.eq_nil_of_length_eq_zero (by omega)
      subst text none
      exact ⟨⟨[], ⟨rfl, rfl⟩, start⟩, Nat.zero_le _, standing.name⟩
  | stay free => exact ⟨⟨pre, rel⟩, fits, standing.name⟩

theorem Standing.read {s : XmlParser} (standing : Standing s) (ready : s.Ready) (sb : List Byte)
    (valid : (s.read sb).2.overflow = false) : Standing (s.read sb).2 := by
  obtain ⟨pre, u, b, rel⟩ := standing.place
  rcases read_cases s sb with ⟨-, -, -, reads⟩ | ⟨t, room, reads⟩
  · simp [reads] at valid
  · obtain ⟨⟨pre', moved⟩, fits, name⟩ := room.rel standing rel ready
    rw [reads]
    refine ⟨⟨pre', _, b, append_rel _ moved⟩, ?_, name, ?_⟩
    · simp only [append, List.length_append, List.length_take, inputEnd]
      omega
    · exact room.overflow.trans standing.overflow

theorem Standing.operatorBool {s t : XmlParser} {result : Bool} (standing : Standing s)
    (done : s.operatorBool = some (result, t)) : Standing t := by
  obtain ⟨pre, u, a, rel⟩ := standing.place
  obtain ⟨kept, pre', v, b, after, -⟩ := operatorBool_rel rel done
  have fits := standing.fits
  refine ⟨⟨pre', v, b, after⟩, ?_, ?_, kept.overflow.trans standing.overflow⟩
  · rw [kept.length, kept.bufEnd]
    exact fits
  · rw [kept.bufEnd]
    rcases kept.name with same | low
    · rw [same]
      exact standing.name
    · exact .inr (Nat.le_trans low fits)

theorem Reached.standing {bufMax : Nat} {received : List Byte} {s : XmlParser}
    (reached : Reached bufMax received s) : Standing s := by
  induction reached with
  | start => exact ⟨⟨[], [], .text, ⟨rfl, rfl⟩, rfl⟩, Nat.le_refl _, .inl rfl, rfl⟩
  | read sb _ ready valid ih => exact ih.read ready sb valid
  | operatorBool _ done ih => exact ih.operatorBool done

/-! ### The element in progress -/

/-- The string at a pointer as far as it has been recognised. -/
def soFar (s : XmlParser) : CharPtr → CString
  | .null => .null
  | .inBuf offset =>
      if offset ≤ s.parsePos then
        .text (((s.data.take s.parsePos).drop offset).takeWhile fun c => c != Chr.nul)
      else .wild
  | .wild => .wild

/-- The element in progress as `tag`, `find` and `isTrue` would show it now. -/
def collected (s : XmlParser) : Element where
  tag := s.soFar (.inBuf s.name)
  attributes := s.attributes.map fun a => (s.soFar a.1, s.soFar a.2)

/-- A pointer that leads nowhere is not the same as anything. -/
def Same (a b : CString) : Prop := a ≠ .wild ∧ b = a

/-- The element in progress behind a `read` of `r.1` bytes of the stream. -/
structure Unchanged (s : XmlParser) (sb : List Byte) (r : Nat × XmlParser) : Prop where
  tag : Same s.collected.tag r.2.collected.tag
  attributes : List.Forall₂ (fun a b => Same a.1 b.1 ∧ Same a.2 b.2)
    s.collected.attributes r.2.collected.attributes
  noValue : ∀ name, s.collected.find name = some (some .null) →
    r.2.collected.find name = some (some .null) ∧ r.2.collected.isTrue name = some true
  argument : s.parseState = .FindArgumentName → Same (s.soFar s.argument) (r.2.soFar r.2.argument)
  state : r.2.parseState = s.parseState ∧ r.2.quote = s.quote ∧ r.2.starttls = s.starttls
  resumes : r.2.unread = s.unread ++ sb.take r.1

/-- Every value is still where it was recorded, and none is missing in a buffer that
has to be moved. -/
def KeepsValues (s : XmlParser) : Prop :=
  (∀ p ∈ s.attributes, p.2 ≠ .wild) ∧ (s.bufEnd = s.inputEnd → Valued s.attributes)

/-- A pointer into what has been consumed of the element. -/
def Inside (s : XmlParser) (p : CharPtr) : Prop :=
  ∃ i, p = .inBuf i ∧ s.name ≤ i ∧ i ≤ s.parsePos

structure Held (s : XmlParser) : Prop where
  name : s.name ≤ s.parsePos
  input : s.parsePos ≤ s.data.length
  attributes : ∀ p ∈ s.attributes, s.Inside p.1 ∧ (p.2 = .null ∨ p.2 = .wild ∨ s.Inside p.2)
  argument : s.parseState = .FindArgumentName → s.Inside s.argument

theorem ended_low {pre bytes : List Byte} {i : Nat} (ended : Ended pre i bytes) :
    i ≤ pre.length := by
  obtain ⟨tail, behind⟩ := ended
  by_contra beyond
  rw [List.drop_eq_nil_of_le (by omega)] at behind
  simp at behind

theorem settled_low {pre bytes : List Byte} {i : Nat} (settled : Settled pre i bytes) :
    i ≤ pre.length := by
  rcases settled with ended | reaching
  · exact ended_low ended
  · exact reaching.1

theorem stored_inside {s : XmlParser} {lost : Prop} {hold : Nat → List Byte → Prop}
    {attributes : List (CharPtr × CharPtr)} {done : List RawAttribute}
    (low : ∀ i bytes, hold i bytes → i ≤ s.parsePos)
    (stored : List.Forall₂ (AttributeAt lost hold s.name) attributes done) :
    ∀ p ∈ attributes, s.Inside p.1 ∧ (p.2 = .null ∨ p.2 = .wild ∨ s.Inside p.2) := by
  induction stored with
  | nil => simp
  | @cons p a attributes done head _ ih =>
      intro q member
      rcases List.mem_cons.mp member with rfl | later
      · obtain ⟨i, above, first, held, second⟩ := head
        refine ⟨⟨i, first, above, low i _ held⟩, ?_⟩
        cases value : a.2 with
        | none =>
            simp only [value] at second
            rcases second with null | ⟨-, wild⟩
            · exact .inl null
            · exact .inr (.inl wild)
        | some bytes =>
            simp only [value] at second
            obtain ⟨j, above', here, held'⟩ := second
            exact .inr (.inr ⟨j, here, above', low j _ held'⟩)
      · exact ih q later

theorem held_of_collected {s : XmlParser} {lost : Prop} {hold : Nat → List Byte → Prop}
    {tls : Bool} {done : List RawAttribute} (low : ∀ i bytes, hold i bytes → i ≤ s.parsePos)
    (name : s.name ≤ s.parsePos) (input : s.parsePos ≤ s.data.length)
    (argument : s.parseState = .FindArgumentName → s.Inside s.argument)
    (collected : Collected lost hold s.name s.attributes tls done) : s.Held :=
  ⟨name, input, stored_inside low collected.stored, argument⟩

theorem held_of_value {s : XmlParser} {lost : Prop} {pre : List Byte} {done : List RawAttribute}
    {arg value : List Byte} (pos : s.parsePos = pre.length) (name : s.name ≤ s.parsePos)
    (input : s.parsePos ≤ s.data.length) (state : s.parseState ≠ .FindArgumentName)
    (valueAt : ValueAt lost s pre done arg value) : s.Held := by
  obtain ⟨earlier, i, j, shape, collected, above, above', -, ended, reaching⟩ := valueAt
  refine ⟨name, input, ?_, fun reads => absurd reads state⟩
  have before := stored_inside (s := s) (fun k bytes h => pos ▸ ended_low h) collected.stored
  intro p member
  rw [shape] at member
  rcases List.mem_append.mp member with earlier | last
  · exact before p earlier
  · cases List.mem_singleton.mp last
    exact ⟨⟨i, rfl, above, pos ▸ ended_low ended⟩,
      .inr (.inr ⟨j, rfl, above', pos ▸ reaching.1⟩)⟩

/-- Every string of the element lies between `name` and the parsing position. -/
theorem Rel.held {s : XmlParser} {lost : Prop} {pre u : List Byte} {b : Scan}
    (rel : Rel lost s pre u b) (busy : s.parseState ≠ .FindElementStart) : s.Held := by
  have pos := rel.1.pos
  have input : s.parsePos ≤ s.data.length := by
    rw [pos, rel.1.data, List.length_append]
    exact Nat.le_add_right _ _
  have inside : b ≠ .text := by
    rintro rfl
    exact busy rel.2
  have name : s.name ≤ s.parsePos := pos ▸ name_low rel inside
  have ended : ∀ i bytes, Ended pre i bytes → i ≤ s.parsePos := fun i bytes h => pos ▸ ended_low h
  have settled : ∀ i bytes, Settled pre i bytes → i ≤ s.parsePos :=
    fun i bytes h => pos ▸ settled_low h
  have means := rel.2
  cases b with
  | text => exact absurd rfl inside
  | gap done =>
      have state : s.parseState ≠ .FindArgumentName := by simp [means.1]
      rcases means.2.2.2 with collected | ⟨collected, -⟩
      · exact held_of_collected ended name input (absurd · state) collected
      · exact held_of_collected settled name input (absurd · state) collected
  | name done arg =>
      obtain ⟨collected, i, argument, above, -, reaching⟩ := means.2.2
      exact held_of_collected ended name input
        (fun _ => ⟨i, argument, above, pos ▸ reaching.1⟩) collected
  | quoted quote done arg value =>
      exact held_of_value pos name input (by simp [means.1]) means.2.2
  | unquoted done arg value => exact held_of_value pos name input (by simp [means.1]) means.2
  | tlsEnd done =>
      have state : s.parseState ≠ .FindArgumentName := by simp [means.1]
      exact held_of_collected ended name input (absurd · state) means.2.2
  | opened => exact means.elim
  | equals => exact means.elim
  | closed => exact means.elim
  | skipped => exact means.elim
  | slash => exact means.elim
  | tlsReturn => exact means.elim

theorem Standing.held {s : XmlParser} (standing : Standing s)
    (busy : s.parseState ≠ .FindElementStart) : s.Held := by
  obtain ⟨pre, u, b, rel⟩ := standing.place
  exact rel.held busy

/-! ### The element behind a read -/

theorem soFar_append {s : XmlParser} (input : s.parsePos ≤ s.data.length) (sb : List Byte)
    (n : Nat) (p : CharPtr) : (s.append sb n).soFar p = s.soFar p := by
  cases p with
  | null => rfl
  | wild => rfl
  | inBuf i => simp [soFar, append, List.take_append_of_le_length input]

theorem unread_append {s : XmlParser} (input : s.parsePos ≤ s.data.length) (sb : List Byte)
    (n : Nat) : (s.append sb n).unread = s.unread ++ sb.take n := by
  simp [unread, append, List.drop_append_of_le_length input]

/-- A move leaves the string of every pointer into the element alone. -/
theorem soFar_moveData {s : XmlParser} {p : CharPtr} (inside : s.Inside p) :
    s.moveData.soFar (rebase s.name p) = s.soFar p := by
  obtain ⟨i, rfl, above, below⟩ := inside
  have order : i - s.name ≤ s.parsePos - s.name := by omega
  have bytes : ((s.data.drop s.name).take (s.parsePos - s.name)).drop (i - s.name) =
      (s.data.take s.parsePos).drop i := by
    rw [← List.drop_take, List.drop_drop, Nat.add_sub_cancel' above]
  rw [rebase_inBuf above, soFar, soFar, if_pos below,
    if_pos (show i - s.name ≤ s.moveData.parsePos from order)]
  simp only [moveData, bytes]

theorem unread_moveData {s : XmlParser} (low : s.name ≤ s.parsePos) :
    s.moveData.unread = s.unread := by
  simp only [unread, moveData, List.drop_drop]
  rw [Nat.add_sub_cancel' low]

theorem soFar_inside {s : XmlParser} {p : CharPtr} (inside : s.Inside p) : s.soFar p ≠ .wild := by
  obtain ⟨i, rfl, -, below⟩ := inside
  simp [soFar, below]

/-- A `read` in front of an element in progress moves the whole buffer or nothing. -/
theorem read_busy {s : XmlParser} (busy : s.parseState ≠ .FindElementStart) (sb : List Byte)
    (valid : (s.read sb).2.overflow = false) :
    ∃ t n, s.read sb = (n, t.append sb n) ∧
      (s.bufEnd = s.inputEnd ∧ (t = s.moveData ∨ t = s.grow) ∨ s.bufEnd ≠ s.inputEnd ∧ t = s) := by
  rcases read_cases s sb with ⟨-, -, -, reads⟩ | ⟨t, room, reads⟩
  · simp [reads] at valid
  · refine ⟨t, _, reads, ?_⟩
    cases room with
    | shift full _ => exact .inl ⟨full, .inl rfl⟩
    | grow full => exact .inl ⟨full, .inr rfl⟩
    | reset _ start _ => exact absurd start busy
    | stay free => exact .inr ⟨free, rfl⟩

/-- The pointer that stands for `p` in the buffer in use after the read. -/
def follow (s : XmlParser) (p : CharPtr) : CharPtr :=
  if s.bufEnd = s.inputEnd then rebase s.name p else p

structure Followed (s : XmlParser) (sb : List Byte) (r : Nat × XmlParser) : Prop where
  name : CharPtr.inBuf r.2.name = s.follow (.inBuf s.name)
  attributes : r.2.attributes = s.attributes.map fun p => (s.follow p.1, s.follow p.2)
  argument : r.2.argument = s.follow s.argument
  soFar : ∀ p, s.Inside p → r.2.soFar (s.follow p) = s.soFar p
  state : r.2.parseState = s.parseState ∧ r.2.quote = s.quote ∧ r.2.starttls = s.starttls
  resumes : r.2.unread = s.unread ++ sb.take r.1

theorem read_followed {s : XmlParser} (held : s.Held) (busy : s.parseState ≠ .FindElementStart)
    (sb : List Byte) (valid : (s.read sb).2.overflow = false) : Followed s sb (s.read sb) := by
  obtain ⟨t, n, reads, ⟨full, moved⟩ | ⟨free, rfl⟩⟩ := read_busy busy sb valid
  · have input : t.parsePos ≤ t.data.length := by
      have low := held.input
      rcases moved with rfl | rfl <;> simp [grow, moveData] <;> omega
    have unread : t.unread = s.unread := by
      rcases moved with rfl | rfl <;> exact unread_moveData held.name
    rw [reads]
    constructor
    case name =>
      rw [follow, if_pos full, rebase_inBuf (Nat.le_refl _), Nat.sub_self]
      rcases moved with rfl | rfl <;> rfl
    case attributes =>
      simp only [follow, if_pos full]
      rcases moved with rfl | rfl <;> rfl
    case argument =>
      rw [follow, if_pos full]
      rcases moved with rfl | rfl <;> rfl
    case soFar =>
      intro p inside
      rw [follow, if_pos full, soFar_append input, ← soFar_moveData inside]
      rcases moved with rfl | rfl <;> rfl
    case state =>
      rcases moved with rfl | rfl <;> exact ⟨rfl, rfl, rfl⟩
    case resumes =>
      rw [unread_append input, unread]
  · have same : ∀ p, t.follow p = p := fun p => if_neg free
    rw [reads]
    constructor
    case name =>
      rw [same]
      rfl
    case attributes =>
      simp only [same]
      exact (List.map_id _).symm
    case argument =>
      rw [same]
      rfl
    case soFar =>
      intro p _
      rw [same, soFar_append held.input]
    case state =>
      exact ⟨rfl, rfl, rfl⟩
    case resumes =>
      rw [unread_append held.input]

theorem Followed.attributes_iff {s : XmlParser} {sb : List Byte} {r : Nat × XmlParser}
    (held : s.Held) (followed : Followed s sb r) :
    List.Forall₂ (fun a b => Same a.1 b.1 ∧ Same a.2 b.2)
      s.collected.attributes r.2.collected.attributes ↔ KeepsValues s := by
  rw [collected, collected, followed.attributes, List.map_map, List.forall₂_map_left_iff,
    List.forall₂_map_right_iff, List.forall₂_same]
  constructor
  · intro same
    constructor
    · intro p member wild
      obtain ⟨-, defined, -⟩ := same p member
      rw [wild] at defined
      exact defined rfl
    · intro full p member null
      obtain ⟨-, -, equal⟩ := same p member
      simp only [Function.comp_apply, null, follow, if_pos full] at equal
      cases equal
  · rintro ⟨tame, valued⟩ p member
    obtain ⟨first, second⟩ := held.attributes p member
    refine ⟨⟨soFar_inside first, followed.soFar p.1 first⟩, ?_⟩
    rcases second with null | wild | inside
    · have free : s.bufEnd ≠ s.inputEnd := fun full => valued full p member null
      simp only [Function.comp_apply, null, follow, if_neg free]
      exact ⟨nofun, rfl⟩
    · exact absurd wild (tame p member)
    · exact ⟨soFar_inside inside, followed.soFar p.2 inside⟩

theorem find_same {name : List Byte} {before after : List (CString × CString)}
    (same : List.Forall₂ (fun a b => Same a.1 b.1 ∧ Same a.2 b.2) before after) :
    Element.findIn name after = Element.findIn name before := by
  induction same with
  | nil => rfl
  | @cons a b before after head _ ih =>
      obtain ⟨⟨-, first⟩, -, second⟩ := head
      obtain ⟨entry, value⟩ := b
      cases first
      cases second
      simp only [Element.findIn, ih]

/-- A following `read` leaves the element in progress as it was if and only if it has
all its values and none of them is missing when the buffer is moved. -/
theorem read_unchanged_iff {bufMax : Nat} {received : List Byte} {s : XmlParser}
    (reached : Reached bufMax received s) (busy : s.parseState ≠ .FindElementStart)
    (sb : List Byte) (valid : (s.read sb).2.overflow = false) :
    Unchanged s sb (s.read sb) ↔ KeepsValues s := by
  have held := reached.standing.held busy
  have followed := read_followed held busy sb valid
  rw [← followed.attributes_iff held]
  constructor
  · intro unchanged
    exact unchanged.attributes
  · intro same
    have finds : ∀ name, (s.read sb).2.collected.find name = s.collected.find name :=
      fun name => find_same same
    have tag : s.Inside (.inBuf s.name) := ⟨s.name, rfl, Nat.le_refl _, held.name⟩
    refine ⟨⟨soFar_inside tag, ?_⟩, same, ?_, ?_, followed.state, followed.resumes⟩
    · simp only [collected]
      rw [followed.name, followed.soFar _ tag]
    · intro name null
      have still := (finds name).trans null
      exact ⟨still, by rw [Element.isTrue, still]⟩
    · intro reading
      have inside := held.argument reading
      rw [followed.argument]
      exact ⟨soFar_inside inside, followed.soFar _ inside⟩

/-- The parser behind the first fill of a session. -/
def filled (sb : List Byte) : XmlParser :=
  ((new 8192).read sb).2.operatorBool.elim (new 8192) fun r => r.2

theorem filled_reached (sb : List Byte) (valid : ((new 8192).read sb).2.overflow = false)
    (halts : ((new 8192).read sb).2.operatorBool.isSome = true) :
    ∃ received, Reached 8192 received (filled sb) := by
  obtain ⟨⟨result, t⟩, done⟩ := Option.isSome_iff_exists.mp halts
  have same : filled sb = t := by simp [filled, done]
  rw [same]
  exact ⟨_, .operatorBool (.read sb .start (.inr rfl) valid) done⟩

theorem read_unchanged_split :
    Unchanged (filled (ascii "<xsad sync reduction='1")) (ascii "0'/>")
      ((filled (ascii "<xsad sync reduction='1")).read (ascii "0'/>")) := by
  obtain ⟨received, reached⟩ := filled_reached (ascii "<xsad sync reduction='1")
    (by decide) (by decide)
  exact (read_unchanged_iff reached (by decide) _ (by decide)).mpr
    ⟨by decide, by decide⟩

/-- A command longer than the first buffer, with `sync` in its beginning. -/
def longCommand : List Byte := ascii "<xsad sync channels='" ++ List.replicate 1100 Chr.digit0

/-- The growth of the buffer gives `sync` a value. -/
theorem read_changes_sync :
    ¬ ∀ (bufMax : Nat) (received : List Byte) (s : XmlParser), Reached bufMax received s →
      s.parseState ≠ .FindElementStart → ∀ sb, (s.read sb).2.overflow = false →
      Unchanged s sb (s.read sb) := by
  intro claim
  obtain ⟨received, reached⟩ := filled_reached longCommand (by decide) (by decide +kernel)
  have unchanged := claim 8192 received _ reached (by decide +kernel) (longCommand.drop 1024)
    (by decide +kernel)
  have lost := (unchanged.noValue (ascii "sync") (by decide +kernel)).1
  exact absurd lost (by decide +kernel)

end XmlParser
end PdServ
