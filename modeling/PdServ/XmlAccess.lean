import PdServ.XmlOverflow

/-!
`operator bool` one dereference at a time. The loops of `XmlParser.cpp` are followed
character by character, and every read and every write of a character faults outside
of `[buf, inputEnd)`. In the buffers this is about nothing faults, and the passes are
those of the parser.
-/

namespace PdServ
namespace XmlParser
open Scan

variable {lost : Prop}

namespace Access

/-- `*position = '\0'` -/
def store (s : XmlParser) (position : Nat) : Option XmlParser :=
  if position < s.inputEnd then some (s.clobber position) else none

/-- `*parsePos++ = '\0'` -/
def storeNext (s : XmlParser) : Option XmlParser := do
  let s ← store s s.parsePos
  return { s with parsePos := s.parsePos + 1 }

/-- `while (test(*position)) if (++position == inputEnd) break;` with this many
characters up to `inputEnd`. -/
def skip (s : XmlParser) (test : Byte → Bool) : (left : Nat) → (position : Nat) → Option Nat
  | 0, _ => none
  | left + 1, position => do
      let c ← s.deref position
      if test c then
        if position + 1 = s.inputEnd then
          return position + 1
        skip s test left (position + 1)
      else return position

/-- `std::find(position, inputEnd, c)`, which looks at no character if there is none. -/
def find (s : XmlParser) (wanted : Byte) : (left : Nat) → (position : Nat) → Option Nat
  | 0, position => if position = s.inputEnd then some position else none
  | left + 1, position => do
      let c ← s.deref position
      if c = wanted then return position
      find s wanted left (position + 1)

/-- `while (*parsePos == ' ')`, with both statements of its body. -/
def clobberSpaces : (left : Nat) → XmlParser → Option XmlParser
  | 0, _ => none
  | left + 1, s => do
      let c ← s.deref s.parsePos
      if c = Chr.space then
        let s ← storeNext s
        if s.parsePos = s.inputEnd then
          return s
        clobberSpaces left s
      else return s

/-- `!strncmp(position, text, n)` for a text of `n` characters, which stops at the first
difference. -/
def strncmp (s : XmlParser) : (text : List Byte) → (position : Nat) → Option Bool
  | [], _ => some true
  | x :: rest, position => do
      let c ← s.deref position
      if c = x then strncmp s rest (position + 1) else return false

/-- The characters from the parsing position up to `inputEnd`. -/
def left (s : XmlParser) : Nat := s.inputEnd - s.parsePos

def findArgumentValue (s : XmlParser) : Option Pass := do
  let position ← skip s (fun c => c != Chr.space && c != Chr.greaterThan) (left s) s.parsePos
  let s := { s with parsePos := position }
  if position = s.inputEnd then
    return .ret false s
  return .again { s with parseState := .FindElementEnd }

def findQuotedArgumentValue (s : XmlParser) : Option Pass := do
  let position ← find s s.quote (left s) s.parsePos
  let s := { s with parsePos := position }
  if position + 1 ≥ s.inputEnd then
    return .ret false s
  let s ← store s position
  findArgumentValue { s with parsePos := position + 1, parseState := .FindElementEnd }

def findArgumentName (s : XmlParser) : Option Pass := do
  let position ← skip s (fun c => !endsName c) (left s) s.parsePos
  let s := { s with parsePos := position }
  if position = s.inputEnd then
    return .ret false s
  let c ← s.deref position
  if c ≠ Chr.equals then
    let tls ← if s.argument = .inBuf s.name then strncmp s (ascii "starttls") s.name
      else some s.starttls
    return .again { s with
      attributes := s.attributes ++ [(s.argument, .null)]
      starttls := tls
      parseState := .FindElementEnd }
  if position + 1 ≥ s.inputEnd then
    return .ret false s
  let quote ← s.deref (position + 1)
  let s := { s with quote := quote }
  if quote ≠ Chr.doubleQuote ∧ quote ≠ Chr.singleQuote then
    let s ← store s position
    return .again { s with
      attributes := s.attributes ++ [(s.argument, .inBuf (position + 1))]
      parsePos := position + 2
      parseState := .FindArgumentValue }
  if position + 2 ≥ s.inputEnd then
    return .ret false s
  let s ← store s position
  findQuotedArgumentValue { s with
    attributes := s.attributes ++ [(s.argument, .inBuf (position + 2))]
    parsePos := position + 2
    parseState := .FindQuotedArgumentValue }

def findElementEnd (s : XmlParser) : Option Pass := do
  let s ← clobberSpaces (left s) s
  if s.parsePos = s.inputEnd then
    return .ret false s
  let c ← s.deref s.parsePos
  if c = Chr.slash then
    if s.parsePos + 1 ≥ s.inputEnd then
      return .ret false s
    let s ← store s s.parsePos
    let next ← s.deref (s.parsePos + 1)
    let s := { s with parsePos := s.parsePos + 2, parseState := .FindElementStart }
    if next = Chr.greaterThan then
      if !s.starttls then
        return .ret true s
      return .again { s with parseState := .FindTLSEnd }
    return .again s
  if !isalpha c then
    let s := { s with parseState := .FindElementStart }
    if c = Chr.greaterThan then
      let s ← store s s.parsePos
      let s := { s with parsePos := s.parsePos + 1 }
      if !s.starttls then
        return .ret true s
      return .again { s with parseState := .FindTLSEnd }
    return .again s
  findArgumentName { s with argument := .inBuf s.parsePos, parseState := .FindArgumentName }

def findElementStart (s : XmlParser) : Option Pass := do
  let position ← find s Chr.lessThan (left s) s.parsePos
  let s := { s with parsePos := position }
  if position + 2 ≥ s.inputEnd then
    return .ret false s
  let s := { s with name := position + 1, parsePos := position + 1 }
  let c ← s.deref s.name
  if !isalpha c then
    return .again s
  findElementEnd { s with attributes := [], starttls := false, parseState := .FindElementEnd }

/-- No assignment of the source enters this state. `strncmp` compares with the NUL of
the literal as well. -/
def findNameEnd (s : XmlParser) : Option Pass := do
  let position ← skip s (fun c => c != Chr.space && c != Chr.slash &&
    c != Chr.greaterThan && c != Chr.nul) (left s) s.parsePos
  let s := { s with parsePos := position }
  if position = s.inputEnd then
    return .ret false s
  let tls ← strncmp s ((ascii "starttls" ++ [Chr.nul]).take (position - s.name)) s.name
  return .again { s with starttls := tls, parseState := .FindElementEnd }

def pass (s : XmlParser) : Option Pass :=
  match s.parseState with
  | .FindElementStart => findElementStart s
  | .FindElementEnd => findElementEnd s
  | .FindArgumentName => findArgumentName s
  | .FindQuotedArgumentValue => findQuotedArgumentValue s
  | .FindArgumentValue => findArgumentValue s
  | .FindNameEnd => findNameEnd s
  | .FindTLSEnd => s.findTLSEnd

/-- `while (parsePos < inputEnd)` -/
def loop : Nat → XmlParser → Option (Bool × XmlParser)
  | 0, _ => none
  | passes + 1, s =>
      if s.parsePos < s.inputEnd then
        match pass s with
        | none => none
        | some (.ret result s) => some (result, s)
        | some (.again s) => loop passes s
      else some (false, s)

def operatorBool (s : XmlParser) : Option (Bool × XmlParser) :=
  loop (3 * (s.inputEnd - s.parsePos) + 3) s

/-! ### The loops over characters -/

theorem scan_step {s : XmlParser} {test : Byte → Bool} {position : Nat} {c : Byte}
    (here : s.deref position = some c) :
    s.scan test position = if test c then s.scan test (position + 1) else position := by
  have inside : position < s.data.length := (List.getElem?_eq_some_iff.mp here).1
  have head : s.data.drop position = c :: s.data.drop (position + 1) := by
    rw [List.drop_eq_getElem_cons inside, (List.getElem?_eq_some_iff.mp here).2]
  rw [scan, head, List.takeWhile_cons]
  cases test c
  · simp
  · simp only [↓reduceIte, List.length_cons, scan]
    omega

theorem scan_end {s : XmlParser} (test : Byte → Bool) : s.scan test s.inputEnd = s.inputEnd := by
  simp [scan, inputEnd]

theorem deref_inside (s : XmlParser) {position : Nat} (inside : position < s.inputEnd) :
    ∃ c, s.deref position = some c :=
  ⟨s.data[position], List.getElem?_eq_getElem inside⟩

theorem scan_le {s : XmlParser} (test : Byte → Bool) {position : Nat}
    (inside : position ≤ s.inputEnd) : s.scan test position ≤ s.inputEnd := by
  have part := (List.takeWhile_prefix test (l := s.data.drop position)).length_le
  rw [List.length_drop] at part
  simp only [scan, inputEnd] at inside ⊢
  omega

theorem skip_eq {s : XmlParser} {test : Byte → Bool} (left : Nat) {position : Nat}
    (size : position + (left + 1) = s.inputEnd) :
    skip s test (left + 1) position = some (s.scan test position) := by
  induction left generalizing position with
  | zero =>
      have inside : position < s.inputEnd := by omega
      obtain ⟨c, here⟩ := deref_inside s inside
      have last : position + 1 = s.inputEnd := by omega
      rw [skip, here, scan_step here, last, scan_end]
      by_cases more : test c = true <;> simp [more]
  | succ left ih =>
      have inside : position < s.inputEnd := by omega
      obtain ⟨c, here⟩ := deref_inside s inside
      have rest : position + 1 + (left + 1) = s.inputEnd := by omega
      have early : position + 1 ≠ s.inputEnd := by omega
      rw [skip, here, scan_step here]
      by_cases more : test c = true <;> simp [more, early, ih rest]

theorem find_eq {s : XmlParser} {wanted : Byte} (left : Nat) {position : Nat}
    (size : position + left = s.inputEnd) :
    find s wanted left position = some (s.scan (fun c => c != wanted) position) := by
  induction left generalizing position with
  | zero =>
      have last : position = s.inputEnd := by omega
      rw [find, if_pos last, last, scan_end]
  | succ left ih =>
      have inside : position < s.inputEnd := by omega
      obtain ⟨c, here⟩ := deref_inside s inside
      have rest : position + 1 + left = s.inputEnd := by omega
      rw [find, here, scan_step here]
      by_cases found : c = wanted <;> simp [found, ih rest]

theorem skip_here {s : XmlParser} (test : Byte → Bool) (inside : s.parsePos < s.inputEnd) :
    skip s test (left s) s.parsePos = some (s.scan test s.parsePos) := by
  obtain ⟨k, more⟩ : ∃ k, left s = k + 1 := ⟨left s - 1, by simp only [left]; omega⟩
  rw [more]
  exact skip_eq k (by simp only [left] at more; omega)

theorem find_here {s : XmlParser} (wanted : Byte) (inside : s.parsePos ≤ s.inputEnd) :
    find s wanted (left s) s.parsePos = some (s.scan (fun c => c != wanted) s.parsePos) :=
  find_eq (left s) (by simp only [left]; omega)

theorem store_inside {s : XmlParser} {position : Nat} (inside : position < s.inputEnd) :
    store s position = some (s.clobber position) := if_pos inside

def blanked (s : XmlParser) : XmlParser :=
  { s.clobber s.parsePos with parsePos := s.parsePos + 1 }

theorem storeNext_inside {s : XmlParser} (inside : s.parsePos < s.inputEnd) :
    storeNext s = some (blanked s) := by
  rw [storeNext, store_inside inside]
  rfl

theorem blanked_at {s : XmlParser} {pre rest : List Byte} {c : Byte} (cut : At s pre (c :: rest)) :
    At (blanked s) (pre ++ [Chr.nul]) rest := by
  have overwritten := clobber_at cut.data
  rw [← cut.pos] at overwritten
  exact ⟨by simp [blanked, overwritten], by simp [blanked, cut.pos]⟩

/-- The blanks that are left after the first one. -/
theorem clobberSpaces_step {s : XmlParser} {pre rest : List Byte}
    (cut : At s pre (Chr.space :: rest)) :
    s.clobberSpaces = (blanked s).clobberSpaces := by
  obtain ⟨w, v, split, taken, -, -⟩ := span_cases (fun c => c == Chr.space) rest
  subst split
  have all : (Chr.space :: w ++ v).takeWhile (fun c => c == Chr.space) = Chr.space :: w := by
    simp [taken]
  rw [clobberSpaces_at cut all, clobberSpaces_at (blanked_at cut) taken]
  simp [blanked, clobber, List.replicate_succ, Nat.add_comm, Nat.add_left_comm]

theorem clobberSpaces_none {s : XmlParser} {pre u : List Byte} (cut : At s pre u)
    (head : ∀ c ∈ u.head?, c ≠ Chr.space) : s.clobberSpaces = s := by
  have none : u.takeWhile (fun c => c == Chr.space) = [] := by
    cases u with
    | nil => rfl
    | cons c u => simp [head c (by simp)]
  rw [clobberSpaces_at (w := []) cut none]
  simp [← cut.data, ← cut.pos]

theorem clobberSpaces_eq {u : List Byte} {s : XmlParser} {pre : List Byte} (cut : At s pre u)
    (more : u ≠ []) : clobberSpaces u.length s = some s.clobberSpaces := by
  induction u generalizing s pre with
  | nil => exact absurd rfl more
  | cons c rest ih =>
      have size : s.inputEnd = pre.length + (c :: rest).length := inputEnd_at cut.data
      rw [List.length_cons, clobberSpaces, deref_here cut]
      by_cases blank : c = Chr.space
      · subst blank
        have inside : s.parsePos < s.inputEnd := by
          rw [size, cut.pos, List.length_cons]
          omega
        have cut' := blanked_at cut
        have size' := inputEnd_at cut'.data
        rw [clobberSpaces_step cut]
        simp only [Option.pure_def, Option.bind_eq_bind, Option.bind_some, ↓reduceIte,
          storeNext_inside inside]
        -- the loop leaves at the end of the input
        by_cases last : rest = []
        · subst last
          rw [if_pos (by rw [size', cut'.pos]; rfl), clobberSpaces_none cut' (by simp)]
        · have some := List.length_pos_of_ne_nil last
          rw [if_neg (by rw [size', cut'.pos]; omega)]
          exact ih cut' last
      · rw [clobberSpaces_none cut (by simpa using blank)]
        simp [blank]

/-- The comparison stops at the latest at a character the text does not have. -/
theorem strncmp_eq {s : XmlParser} {stop : Nat} {c : Byte} (there : s.deref stop = some c)
    (text : List Byte) {position : Nat} (before : position ≤ stop) (foreign : c ∉ text) :
    strncmp s text position = some ((s.data.drop position).take text.length == text) := by
  induction text generalizing position with
  | nil => simp [strncmp]
  | cons x rest ih =>
      have inside : stop < s.data.length := (List.getElem?_eq_some_iff.mp there).1
      obtain ⟨d, here⟩ := deref_inside s (Nat.lt_of_le_of_lt before inside)
      have head : s.data.drop position = d :: s.data.drop (position + 1) := by
        rw [List.drop_eq_getElem_cons (Nat.lt_of_le_of_lt before inside),
          (List.getElem?_eq_some_iff.mp here).2]
      rw [strncmp, here, head]
      by_cases same : d = x
      · have other : position ≠ stop := by
          rintro rfl
          rw [here] at there
          cases there
          exact foreign (by simp [same])
        have next : position + 1 ≤ stop := by omega
        have later := ih next fun member => foreign (List.mem_cons_of_mem x member)
        simp [same, later]
      · simp [same]

/-! ### The states -/

theorem findArgumentValue_eq {s : XmlParser} (inside : s.parsePos < s.inputEnd) :
    findArgumentValue s = s.findArgumentValue := by
  obtain ⟨c, here⟩ := deref_inside s inside
  simp only [findArgumentValue, XmlParser.findArgumentValue, skip_here _ inside, here,
    Option.bind_eq_bind, Option.bind_some]

theorem findQuotedArgumentValue_eq {s : XmlParser} (inside : s.parsePos ≤ s.inputEnd) :
    findQuotedArgumentValue s = s.findQuotedArgumentValue := by
  simp only [findQuotedArgumentValue, XmlParser.findQuotedArgumentValue, find_here _ inside,
    Option.bind_eq_bind, Option.bind_some]
  generalize s.scan (fun c => c != s.quote) s.parsePos = position
  have size : XmlParser.inputEnd { s with parsePos := position } = s.inputEnd := rfl
  rw [size]
  by_cases short : position + 1 ≥ s.inputEnd
  · rw [if_pos short, if_pos short]
  · rw [if_neg short, if_neg short, store_inside (by rw [size]; omega), Option.bind_some]
    apply findArgumentValue_eq
    simp only [inputEnd, clobber, List.length_set] at short ⊢
    omega

/-- The tag is compared while it is followed by the delimiter at the position. -/
theorem startsTls_eq {s : XmlParser} {c : Byte} (low : s.name ≤ s.parsePos)
    (there : s.deref s.parsePos = some c) (ends : endsName c = true) :
    strncmp s (ascii "starttls") s.name = some s.startsTls :=
  strncmp_eq there (ascii "starttls") low (not_in_starttls ends)

theorem findArgumentName_eq {s : XmlParser} (inside : s.parsePos < s.inputEnd)
    (tag : s.argument = .inBuf s.name → s.name ≤ s.parsePos) :
    findArgumentName s = s.findArgumentName := by
  obtain ⟨c, here⟩ := deref_inside s inside
  simp only [findArgumentName, XmlParser.findArgumentName, skip_here _ inside, here,
    Option.bind_eq_bind, Option.bind_some]
  have forward := scan_forward s (fun c => !endsName c) s.parsePos
  have within := scan_le (fun c => !endsName c) (Nat.le_of_lt inside)
  have stops := scan_stops s (fun c => !endsName c) s.parsePos
  generalize s.scan (fun c => !endsName c) s.parsePos = position at forward within stops
  have size : XmlParser.inputEnd { s with parsePos := position } = s.inputEnd := rfl
  rw [size]
  -- the name may reach the end of the input
  by_cases last : position = s.inputEnd
  · rw [if_pos last, if_pos last]
  · rw [if_neg last, if_neg last]
    have before : position < s.inputEnd := by omega
    obtain ⟨d, there, stopped⟩ := stops before
    have ends : endsName d = true := by simpa using stopped
    have there' : XmlParser.deref { s with parsePos := position } position = some d := there
    rw [there', Option.bind_some, Option.bind_some]
    by_cases valued : d = Chr.equals
    · have reads : ¬ d ≠ Chr.equals := by simp [valued]
      rw [if_neg reads, if_neg reads]
      -- the character behind the `=` is only looked at if it is there
      by_cases short : position + 1 ≥ s.inputEnd
      · rw [if_pos short, if_pos short]
      · rw [if_neg short, if_neg short]
        have more : position + 1 < XmlParser.inputEnd { s with parsePos := position } := by
          rw [size]
          omega
        obtain ⟨quote, next⟩ := deref_inside _ more
        rw [next, Option.bind_some, Option.bind_some]
        have write : store { s with parsePos := position, quote := quote } position =
            some (clobber { s with parsePos := position, quote := quote } position) :=
          store_inside before
        simp only [write, Option.bind_some]
        split
        · rfl
        · split
          · rfl
          · apply findQuotedArgumentValue_eq
            simp only [inputEnd, clobber, List.length_set] at *
            omega
    · rw [if_pos valued, if_pos valued]
      by_cases first : s.argument = .inBuf s.name
      · -- the delimiter is inside, and no later character is compared
        have compared : strncmp { s with parsePos := position } (ascii "starttls") s.name =
            some (startsTls { s with parsePos := position }) :=
          startsTls_eq (Nat.le_trans (tag first) forward) there' ends
        rw [if_pos first, if_pos first, compared]
        rfl
      · rw [if_neg first, if_neg first]

theorem findElementEnd_eq {s : XmlParser} (inside : s.parsePos < s.inputEnd) :
    findElementEnd s = s.findElementEnd := by
  obtain ⟨c, here⟩ := deref_inside s inside
  have cut : At s (s.data.take s.parsePos) s.unread :=
    ⟨(List.take_append_drop _ _).symm, by simp only [inputEnd] at inside; simp; omega⟩
  have more : s.unread ≠ [] := by
    simp only [inputEnd] at inside
    simp [unread, inside]
  have blanks := clobberSpaces_eq cut more
  have count : s.unread.length = left s := by simp [unread, left, inputEnd]
  rw [count] at blanks
  have within : s.clobberSpaces.parsePos ≤ s.clobberSpaces.inputEnd := by
    rw [inputEnd, (clobberSpaces_onward inside).length]
    exact scan_le _ (Nat.le_of_lt inside)
  simp only [findElementEnd, XmlParser.findElementEnd, blanks, here, Option.bind_eq_bind,
    Option.bind_some]
  generalize s.clobberSpaces = t at within
  by_cases last : t.parsePos = t.inputEnd
  · rw [if_pos last, if_pos last]
  · rw [if_neg last, if_neg last]
    have before : t.parsePos < t.inputEnd := by omega
    obtain ⟨d, there⟩ := deref_inside t before
    rw [there, Option.bind_some, Option.bind_some, store_inside before]
    by_cases slash : d = Chr.slash
    · rw [if_pos slash, if_pos slash]
      -- behind the slash one more character is needed
      by_cases short : t.parsePos + 1 ≥ t.inputEnd
      · rw [if_pos short, if_pos short]
      · rw [if_neg short, if_neg short]
        rfl
    · rw [if_neg slash, if_neg slash]
      by_cases letter : (!isalpha d) = true
      · rw [if_pos letter, if_pos letter]
        by_cases close : d = Chr.greaterThan
        · rw [if_pos close, if_pos close]
          have write : store { t with parseState := .FindElementStart } t.parsePos =
              some (clobber { t with parseState := .FindElementStart } t.parsePos) :=
            store_inside before
          rw [write]
          rfl
        · rw [if_neg close, if_neg close]
      · rw [if_neg letter, if_neg letter]
        -- the name that starts here is the tag if it starts at `name`
        refine findArgumentName_eq before fun tag => ?_
        exact Nat.le_of_eq (CharPtr.inBuf.inj tag).symm

theorem findElementStart_eq {s : XmlParser} (inside : s.parsePos < s.inputEnd) :
    findElementStart s = s.findElementStart := by
  simp only [findElementStart, XmlParser.findElementStart, find_here _ (Nat.le_of_lt inside),
    Option.bind_eq_bind, Option.bind_some]
  generalize s.scan (fun c => c != Chr.lessThan) s.parsePos = position
  have size : XmlParser.inputEnd { s with parsePos := position } = s.inputEnd := rfl
  rw [size]
  by_cases short : position + 2 ≥ s.inputEnd
  · rw [if_pos short, if_pos short]
  · rw [if_neg short, if_neg short]
    congr 1
    funext c
    by_cases letter : (!isalpha c) = true
    · rw [if_pos letter, if_pos letter]
    · rw [if_neg letter, if_neg letter]
      apply findElementEnd_eq
      simp only [inputEnd] at short ⊢
      omega

/-- A name that is being read started in front of the position. -/
theorem pass_eq {s : XmlParser} {pre u : List Byte} {a : Scan} (rel : Rel lost s pre u a)
    (inside : s.parsePos < s.inputEnd) : pass s = s.pass := by
  cases state : s.parseState with
  | FindElementStart =>
      rw [pass, XmlParser.pass, state]
      exact findElementStart_eq inside
  | FindElementEnd =>
      rw [pass, XmlParser.pass, state]
      exact findElementEnd_eq inside
  | FindArgumentName =>
      rw [pass, XmlParser.pass, state]
      refine findArgumentName_eq inside fun _ => (rel.held ?_).name
      simp [state]
  | FindQuotedArgumentValue =>
      rw [pass, XmlParser.pass, state]
      exact findQuotedArgumentValue_eq (Nat.le_of_lt inside)
  | FindArgumentValue =>
      rw [pass, XmlParser.pass, state]
      exact findArgumentValue_eq inside
  | FindTLSEnd => rw [pass, XmlParser.pass, state]
  | FindNameEnd =>
      have means := rel.2
      cases a <;> simp [Means, state] at means

theorem loop_eq (passes : Nat) {s : XmlParser} {pre u : List Byte} {a : Scan}
    (rel : Rel lost s pre u a) : loop passes s = s.loop passes := by
  induction passes generalizing s pre u a with
  | zero => rfl
  | succ passes ih =>
      rw [loop, XmlParser.loop]
      by_cases inside : s.parsePos < s.inputEnd
      · rw [if_pos inside, if_pos inside, pass_eq rel inside]
        have spec := pass_spec rel (rel.1.more inside)
        cases result : s.pass with
        | none => rfl
        | some turn =>
          cases turn with
          | ret answer t => rfl
          | again t =>
            -- the next pass begins where this one left off
            rw [result] at spec
            obtain ⟨_, pre', v, b, after, _⟩ := spec
            exact ih after
      · rw [if_neg inside, if_neg inside]

/-- Nothing outside the input is looked at or written to. -/
theorem operatorBool_eq {s : XmlParser} {pre u : List Byte} {a : Scan}
    (rel : Rel lost s pre u a) : operatorBool s = s.operatorBool :=
  loop_eq _ rel

end Access

end XmlParser
end PdServ
