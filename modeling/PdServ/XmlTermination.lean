import PdServ.WhileLoop
import PdServ.XmlAccess
import Mathlib.Logic.Relation

/-!
Why `operator bool` and the `while (parser)` of a session come to an end. Not every
pass takes a character: an attribute that ends, an element that is rejected and a
line end that is missing leave the position where it is. Those go to a state of a
lower rank, so what falls with every pass is the remaining input and the rank in one.
-/

namespace PdServ
namespace XmlParser
open WhileLoop

/-! ### What a pass gains -/

/-- A pass entered at a position, in a state of a rank, takes a character, or goes to a
state of a lower rank, or waits for more input. -/
inductive Gains (position bound : Nat) : Pass → Prop
  | ahead {pass : Pass} : position < pass.parser.parsePos → Gains position bound pass
  | lower {t : XmlParser} : position ≤ t.parsePos → rank t.parseState < bound →
      Gains position bound (.again t)
  | waits {t : XmlParser} : position ≤ t.parsePos → Gains position bound (.ret false t)

/-- The pass looks at nothing outside of the input, and gains. -/
def Advances (position bound : Nat) (turn : Option Pass) : Prop :=
  ∃ pass, turn = some pass ∧ Gains position bound pass

/-- A case of the switch falls through to the next one at a later position. -/
theorem Advances.mono {position later bound : Nat} {turn : Option Pass}
    (advances : Advances later bound turn) (le : position ≤ later) :
    Advances position bound turn := by
  obtain ⟨pass, done, gains⟩ := advances
  refine ⟨pass, done, ?_⟩
  cases gains with
  | ahead beyond => exact .ahead (Nat.lt_of_le_of_lt le beyond)
  | lower forward low => exact .lower (Nat.le_trans le forward) low
  | waits forward => exact .waits (Nat.le_trans le forward)

/-- Where the fall through has taken a character, the rank does not matter. -/
theorem Advances.beyond {position later low bound : Nat} {turn : Option Pass}
    (advances : Advances later low turn) (less : position < later) :
    Advances position bound turn := by
  obtain ⟨pass, done, gains⟩ := advances
  refine ⟨pass, done, .ahead ?_⟩
  cases gains with
  | ahead further => exact Nat.lt_trans less further
  | lower forward _ => exact Nat.lt_of_lt_of_le less forward
  | waits forward => exact Nat.lt_of_lt_of_le less forward

theorem findArgumentValue_advances {s : XmlParser} (inside : s.parsePos < s.inputEnd) :
    Advances s.parsePos 2 s.findArgumentValue := by
  obtain ⟨c, here⟩ := Access.deref_inside s inside
  have forward := scan_forward s (fun c => c != Chr.space && c != Chr.greaterThan) s.parsePos
  simp only [findArgumentValue, here, Option.bind_eq_bind, Option.bind_some, Option.pure_def]
  split
  · exact ⟨_, rfl, .waits forward⟩
  · exact ⟨_, rfl, .lower forward Nat.one_lt_two⟩

theorem clobber_inputEnd (s : XmlParser) (position : Nat) :
    (s.clobber position).inputEnd = s.inputEnd := List.length_set

theorem findQuotedArgumentValue_advances (s : XmlParser) :
    Advances s.parsePos 2 s.findQuotedArgumentValue := by
  have forward := scan_forward s (fun c => c != s.quote) s.parsePos
  simp only [findQuotedArgumentValue, Option.pure_def]
  split
  · exact ⟨_, rfl, .waits forward⟩
  · next more =>
    refine (findArgumentValue_advances ?_).mono (Nat.le_succ_of_le forward)
    exact (Nat.lt_of_not_le more).trans_eq (clobber_inputEnd _ _).symm

theorem findArgumentName_advances {s : XmlParser} (inside : s.parsePos < s.inputEnd) :
    Advances (s.scan (fun c => !endsName c) s.parsePos) 2 s.findArgumentName := by
  obtain ⟨first, here⟩ := Access.deref_inside s inside
  have stops := Access.scan_le (fun c => !endsName c) (Nat.le_of_lt inside)
  simp only [findArgumentName, here, Option.bind_eq_bind, Option.bind_some, Option.pure_def]
  generalize s.scan (fun c => !endsName c) s.parsePos = position at stops ⊢
  split
  · exact ⟨_, rfl, .waits (Nat.le_refl _)⟩
  · next more =>
    have within : position < s.inputEnd := Nat.lt_of_le_of_ne stops more
    obtain ⟨c, ends⟩ := Access.deref_inside { s with parsePos := position } within
    simp only [ends, Option.bind_some]
    split
    · exact ⟨_, rfl, .lower (Nat.le_refl _) Nat.one_lt_two⟩
    · split
      · exact ⟨_, rfl, .waits (Nat.le_refl _)⟩
      · next room =>
        obtain ⟨quote, next⟩ := Access.deref_inside { s with parsePos := position }
          (Nat.lt_of_not_le room)
        simp only [next, Option.bind_some]
        split
        · exact ⟨_, rfl, .ahead (Nat.lt_add_of_pos_right (by decide))⟩
        · split
          · exact ⟨_, rfl, .waits (Nat.le_refl _)⟩
          · exact (findQuotedArgumentValue_advances _).mono (Nat.le_add_right position 2)

/-- A scan takes a character that passes its test. -/
theorem scan_ahead {s : XmlParser} {test : Byte → Bool} {position : Nat} {c : Byte}
    (here : s.deref position = some c) (passes : test c = true) :
    position < s.scan test position := by
  rw [Access.scan_step here, if_pos passes]
  exact scan_forward _ _ _

theorem findElementEnd_advances {s : XmlParser} (inside : s.parsePos < s.inputEnd) :
    Advances s.parsePos 1 s.findElementEnd := by
  obtain ⟨first, here⟩ := Access.deref_inside s inside
  have forward := (clobberSpaces_onward inside).forward
  have stops : s.clobberSpaces.parsePos ≤ s.clobberSpaces.inputEnd := by
    rw [inputEnd, (clobberSpaces_onward inside).length]
    exact Access.scan_le _ (Nat.le_of_lt inside)
  simp only [findElementEnd, here, Option.bind_eq_bind, Option.bind_some, Option.pure_def]
  generalize s.clobberSpaces = t at forward stops ⊢
  split
  · exact ⟨_, rfl, .waits forward⟩
  · next more =>
    have within : t.parsePos < t.inputEnd := Nat.lt_of_le_of_ne stops more
    obtain ⟨c, ends⟩ := Access.deref_inside t within
    simp only [ends, Option.bind_some]
    split
    · split
      · exact ⟨_, rfl, .waits forward⟩
      · next room =>
        have beyond : (t.clobber t.parsePos).parsePos + 1 < (t.clobber t.parsePos).inputEnd := by
          rw [clobber_inputEnd]
          exact Nat.lt_of_not_le room
        obtain ⟨follows, behind⟩ := Access.deref_inside (t.clobber t.parsePos) beyond
        have ahead : s.parsePos < t.parsePos + 2 := by omega
        simp only [behind, Option.bind_some]
        split
        · split
          · exact ⟨_, rfl, .ahead ahead⟩
          · exact ⟨_, rfl, .ahead ahead⟩
        · exact ⟨_, rfl, .ahead ahead⟩
    · split
      · split
        · have ahead : s.parsePos < t.parsePos + 1 := Nat.lt_succ_of_le forward
          split
          · exact ⟨_, rfl, .ahead ahead⟩
          · exact ⟨_, rfl, .ahead ahead⟩
        · exact ⟨_, rfl, .lower forward Nat.zero_lt_one⟩
      · next other letter =>
        -- the letter belongs to the name of an attribute
        have alpha : isalpha c = true := by simpa using letter
        refine (findArgumentName_advances ?_).beyond (Nat.lt_of_le_of_lt forward ?_)
        · exact within
        · exact scan_ahead ends (by rw [not_endsName_of_alpha alpha]; rfl)

theorem findElementStart_advances (s : XmlParser) :
    Advances s.parsePos 0 s.findElementStart := by
  have forward := scan_forward s (fun c => c != Chr.lessThan) s.parsePos
  simp only [findElementStart, Option.bind_eq_bind, Option.pure_def]
  generalize s.scan (fun c => c != Chr.lessThan) s.parsePos = position at forward ⊢
  have ahead : s.parsePos < position + 1 := Nat.lt_succ_of_le forward
  split
  · exact ⟨_, rfl, .waits forward⟩
  · next more =>
    have within : position + 1 < s.inputEnd := Nat.lt_of_succ_lt (Nat.lt_of_not_le more)
    obtain ⟨c, letter⟩ := Access.deref_inside
      { s with name := position + 1, parsePos := position + 1 } within
    simp only [letter, Option.bind_some]
    split
    · exact ⟨_, rfl, .ahead ahead⟩
    · exact (findElementEnd_advances within).beyond ahead

theorem findNameEnd_advances {s : XmlParser} (inside : s.parsePos < s.inputEnd) :
    Advances s.parsePos 2 s.findNameEnd := by
  obtain ⟨c, here⟩ := Access.deref_inside s inside
  have forward := scan_forward s (fun c => c != Chr.space && c != Chr.slash &&
    c != Chr.greaterThan && c != Chr.nul) s.parsePos
  simp only [findNameEnd, here, Option.bind_eq_bind, Option.bind_some, Option.pure_def]
  split
  · exact ⟨_, rfl, .waits forward⟩
  · exact ⟨_, rfl, .lower forward Nat.one_lt_two⟩

theorem findTLSEnd_advances {s : XmlParser} (inside : s.parsePos < s.inputEnd) :
    Advances s.parsePos 1 s.findTLSEnd := by
  obtain ⟨c, here⟩ := Access.deref_inside s inside
  simp only [findTLSEnd, here, Option.bind_eq_bind, Option.bind_some, Option.pure_def]
  split
  · exact ⟨_, rfl, .waits (Nat.le_refl _)⟩
  · next last =>
    by_cases carriage : c = Chr.carriageReturn
    · have within : s.parsePos + 1 < s.inputEnd :=
        Nat.lt_of_le_of_ne inside fun ends => last ⟨carriage, ends⟩
      obtain ⟨follows, behind⟩ := Access.deref_inside
        { s with parsePos := s.parsePos + 1, parseState := .FindElementStart } within
      simp only [carriage, if_true, behind, Option.bind_some]
      split
      · exact ⟨_, rfl, .ahead (Nat.lt_add_of_pos_right Nat.two_pos)⟩
      · exact ⟨_, rfl, .ahead (Nat.lt_succ_self _)⟩
    · obtain ⟨follows, behind⟩ := Access.deref_inside
        { s with parseState := .FindElementStart } inside
      simp only [carriage, if_false, behind, Option.bind_some]
      split
      · exact ⟨_, rfl, .ahead (Nat.lt_succ_self _)⟩
      · exact ⟨_, rfl, .lower (Nat.le_refl _) Nat.zero_lt_one⟩

theorem pass_advances {s : XmlParser} (inside : s.parsePos < s.inputEnd) :
    Advances s.parsePos (rank s.parseState) s.pass := by
  cases state : s.parseState with
  | FindElementStart =>
      simp only [pass, state]
      exact findElementStart_advances s
  | FindNameEnd =>
      simp only [pass, state]
      exact findNameEnd_advances inside
  | FindArgumentName =>
      simp only [pass, state]
      exact (findArgumentName_advances inside).mono (scan_forward s _ _)
  | FindQuotedArgumentValue =>
      simp only [pass, state]
      exact findQuotedArgumentValue_advances s
  | FindArgumentValue =>
      simp only [pass, state]
      exact findArgumentValue_advances inside
  | FindElementEnd =>
      simp only [pass, state]
      exact findElementEnd_advances inside
  | FindTLSEnd =>
      simp only [pass, state]
      exact findTLSEnd_advances inside

/-! ### The passes of one call -/

/-- `break` goes back to the loop, `return` leaves it. -/
def Pass.round : Pass → Round XmlParser Unit (Bool × XmlParser)
  | .again t => .again () t
  | .ret result t => .leave (result, t)

/-- A round of `while (parsePos < inputEnd)`. -/
def passRound (s : XmlParser) : Option (Round XmlParser Unit (Bool × XmlParser)) :=
  if s.parsePos < s.inputEnd then s.pass.map Pass.round else some (.leave (false, s))

/-- No more passes than this are made. -/
def passesLeft (s : XmlParser) : Nat := 3 * (s.inputEnd - s.parsePos) + rank s.parseState

theorem loop_eq_run (passes : Nat) (s : XmlParser) :
    loop passes s = (run passRound passes s).map Prod.snd := by
  induction passes generalizing s with
  | zero => rfl
  | succ passes ih =>
      rw [loop, run, passRound]
      by_cases inside : s.parsePos < s.inputEnd
      · rw [if_pos inside, if_pos inside]
        cases s.pass with
        | none => rfl
        | some pass =>
            cases pass with
            | ret result t => rfl
            | again t =>
                simp only [ih, Option.map_some, Pass.round]
                cases run passRound passes t <;> rfl
      · rw [if_neg inside, if_neg inside]
        rfl

theorem passRound_total (s : XmlParser) : passRound s ≠ none := by
  rw [passRound]
  split
  · next inside =>
    obtain ⟨pass, done, -⟩ := pass_advances inside
    rw [done]
    exact Option.some_ne_none _
  · exact Option.some_ne_none _

theorem passRound_again {s t : XmlParser} {output : Unit}
    (goes : passRound s = some (.again output t)) :
    s.parsePos < s.inputEnd ∧ s.pass = some (.again t) := by
  rw [passRound] at goes
  split at goes
  · next inside =>
    obtain ⟨pass, done, same⟩ := Option.map_eq_some_iff.mp goes
    cases pass with
    | again next =>
        cases same
        exact ⟨inside, done⟩
    | ret result next => cases same
  · cases goes

theorem passRound_leave {s t : XmlParser} {result : Bool}
    (leaves : passRound s = some (.leave (result, t))) :
    s.parsePos < s.inputEnd ∧ s.pass = some (.ret result t) ∨
      s.inputEnd ≤ s.parsePos ∧ result = false ∧ t = s := by
  rw [passRound] at leaves
  split at leaves
  · next inside =>
    obtain ⟨pass, done, same⟩ := Option.map_eq_some_iff.mp leaves
    cases pass with
    | again next => cases same
    | ret result next =>
        cases same
        exact .inl ⟨inside, done⟩
  · next outside =>
    cases leaves
    exact .inr ⟨Nat.le_of_not_lt outside, rfl, rfl⟩

theorem pass_inputEnd {s : XmlParser} {pass : Pass} (done : s.pass = some pass) :
    pass.parser.inputEnd = s.inputEnd := (pass_walk done).length

/-- A pass that goes on leaves fewer of them. -/
theorem passRound_descends : Descends passRound passesLeft := by
  intro s output t goes
  obtain ⟨inside, done⟩ := passRound_again goes
  obtain ⟨pass, same, gains⟩ := pass_advances inside
  have size : t.inputEnd = s.inputEnd := pass_inputEnd done
  have low := rank_le t.parseState
  rw [done] at same
  cases same
  cases gains with
  | ahead beyond =>
      -- one character outweighs every rank
      simp only [Pass.parser] at beyond
      simp only [passesLeft, size]
      omega
  | lower forward fewer =>
      simp only [passesLeft, size]
      omega

/-- The passes `operatorBool` is given are enough for whatever its loop comes to. -/
theorem operatorBool_iff {s t : XmlParser} {result : Bool} :
    s.operatorBool = some (result, t) ↔ ∃ passes, Ends passRound s passes (result, t) := by
  rw [operatorBool, loop_eq_run, Option.map_eq_some_iff]
  constructor
  · rintro ⟨⟨passes, _⟩, done, rfl⟩
    exact ⟨passes, (run_iff.mp done).1⟩
  · rintro ⟨passes, ends⟩
    refine ⟨(passes, result, t), ends.run ?_, rfl⟩
    have few := ends.length_le passRound_descends
    have low := rank_le s.parseState
    rw [passesLeft] at few
    omega

theorem operatorBool_returns (s : XmlParser) :
    ∃ passes result t, Ends passRound s passes (result, t) := by
  obtain ⟨passes, ⟨result, t⟩, ends⟩ := passRound_descends.ends passRound_total s
  exact ⟨passes, result, t, ends⟩

/-! ### The calls on one input -/

theorem ends_ahead {s : XmlParser} {passes : List Unit} {r : Bool × XmlParser}
    (ends : Ends passRound s passes r) (recognised : r.1 = true) :
    s.parsePos < s.inputEnd ∧ s.parsePos < r.2.parsePos := by
  induction ends with
  | @leave s r leaves =>
      obtain ⟨result, t⟩ := r
      rcases passRound_leave leaves with ⟨inside, done⟩ | ⟨-, nothing, -⟩
      · refine ⟨inside, ?_⟩
        obtain ⟨pass, same, gains⟩ := pass_advances inside
        rw [done] at same
        cases same
        cases gains with
        | ahead beyond => exact beyond
        | waits _ => cases recognised
      · rw [nothing] at recognised
        cases recognised
  | again goes _ ih =>
      obtain ⟨inside, done⟩ := passRound_again goes
      have forward := (pass_walk done).forward
      exact ⟨inside, Nat.lt_of_le_of_lt forward (ih recognised).2⟩

/-- A call that returns true has taken characters. -/
theorem operatorBool_ahead {s t : XmlParser} (done : s.operatorBool = some (true, t)) :
    s.parsePos < s.inputEnd ∧ s.parsePos < t.parsePos := by
  obtain ⟨passes, ends⟩ := operatorBool_iff.mp done
  exact ends_ahead ends rfl

/-- One call of `operator bool`, whatever it returns. -/
def Called (s t : XmlParser) : Prop := ∃ result, s.operatorBool = some (result, t)

theorem called_forward {s t : XmlParser} (calls : Relation.ReflTransGen Called s t) :
    s.parsePos ≤ t.parsePos := by
  induction calls with
  | refl => exact Nat.le_refl _
  | tail _ call ih =>
      obtain ⟨result, done⟩ := call
      exact Nat.le_trans ih (operatorBool_walk done).forward

/-- A round of `while (parser)`; the session only looks at the element. -/
def elementRound (s : XmlParser) : Option (Round XmlParser Element XmlParser) :=
  match s.operatorBool with
  | none => none
  | some (false, t) => some (.leave t)
  | some (true, t) => some (.again t.element t)

theorem drainLoop_eq_run (rounds : Nat) (s : XmlParser) :
    drainLoop rounds s = run elementRound rounds s := by
  induction rounds generalizing s with
  | zero => rfl
  | succ rounds ih =>
      rw [drainLoop, run, elementRound]
      cases s.operatorBool with
      | none => rfl
      | some answer =>
          obtain ⟨result, t⟩ := answer
          cases result with
          | false => rfl
          | true =>
              simp only [ih]
              cases run elementRound rounds t <;> rfl

theorem elementRound_total (s : XmlParser) : elementRound s ≠ none := by
  obtain ⟨passes, result, t, ends⟩ := operatorBool_returns s
  rw [elementRound, operatorBool_iff.mpr ⟨passes, ends⟩]
  cases result <;> simp

/-- An element leaves fewer characters before the parser. -/
theorem elementRound_descends : Descends elementRound fun s => s.inputEnd - s.parsePos := by
  intro s element t goes
  have done : s.operatorBool = some (true, t) := by
    rw [elementRound] at goes
    split at goes <;> cases goes
    assumption
  obtain ⟨inside, beyond⟩ := operatorBool_ahead done
  have size : t.inputEnd = s.inputEnd := (operatorBool_walk done).length
  simp only [size]
  omega

theorem drain_ends (s : XmlParser) :
    ∃ elements t, Ends elementRound s elements t ∧
      elements.length ≤ s.inputEnd - s.parsePos ∧ s.drain = some (elements, t) := by
  rw [drain, drainLoop_eq_run]
  exact elementRound_descends.run elementRound_total s (Nat.lt_succ_self _)

/-- Every chunk of a delivery is drained. -/
theorem feed_ends (chunks : List (List Byte)) (s : XmlParser) :
    ∃ elements, feed s chunks = some elements := by
  induction chunks generalizing s with
  | nil => exact ⟨[], rfl⟩
  | cons chunk rest ih =>
      obtain ⟨elements, t, -, -, drained⟩ := drain_ends (s.read chunk).2
      obtain ⟨later, fed⟩ := ih t
      refine ⟨elements ++ later, ?_⟩
      rw [feed, drained]
      simp only [fed, Option.map_some]

/-! ### Every state of the parser -/

/-- The loops that look for elements come to an end from this state. -/
structure Halts (s : XmlParser) : Prop where
  /-- `operator bool` returns, after finitely many passes. -/
  returns : ∃ passes result t, Ends passRound s passes (result, t) ∧
    passes.length ≤ s.passesLeft ∧ s.operatorBool = some (result, t)
  /-- From one call that is true to a later one, with no `read` in between. -/
  advances : ∀ t u v, s.operatorBool = some (true, t) → Relation.ReflTransGen Called t u →
    u.operatorBool = some (true, v) → t.parsePos < v.parsePos
  /-- `while (parser)` ends, after finitely many elements. -/
  drains : ∃ elements t, Ends elementRound s elements t ∧
    elements.length ≤ s.inputEnd - s.parsePos ∧ s.drain = some (elements, t)
  /-- And it ends again after every further `read`. -/
  feeds : ∀ chunks, ∃ elements, feed s chunks = some elements
  /-- Of a parser in use, the loops over characters end as well. -/
  characters : ∀ bufMax received, Reached bufMax received s →
    Access.operatorBool s = s.operatorBool

theorem access_reached {bufMax : Nat} {received : List Byte} {s : XmlParser}
    (reached : Reached bufMax received s) : Access.operatorBool s = s.operatorBool := by
  obtain ⟨pre, unread, b, rel⟩ := reached.standing.place
  exact Access.operatorBool_eq rel

/-- Whatever the buffer holds and whatever came before, the parser answers, and a session
is done with its input after at most as many elements as it has characters. -/
theorem input_loops_halt (s : XmlParser) : s.Halts where
  returns := by
    obtain ⟨passes, result, t, ends⟩ := operatorBool_returns s
    exact ⟨passes, result, t, ends, ends.length_le passRound_descends,
      operatorBool_iff.mpr ⟨passes, ends⟩⟩
  advances := by
    intro t u v _ between second
    have forward := called_forward between
    have ahead := (operatorBool_ahead second).2
    exact Nat.lt_of_le_of_lt forward ahead
  drains := drain_ends s
  feeds chunks := feed_ends chunks s
  characters _ _ reached := access_reached reached

end XmlParser
end PdServ
