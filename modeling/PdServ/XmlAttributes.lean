import PdServ.XmlScan

/-!
What the commands of a session read from a recognised element:
`find`, `isEqual`, `isTrue`, `getString` and `getUnsigned` of `XmlParser.cpp`, with
the C library functions they use, in the "C" locale.
-/

namespace PdServ

/-- The attributes of an element in order, all of whose strings are defined. -/
abbrev Command := List (List Byte × Option (List Byte))

def CString.defined : CString → Option (Option (List Byte))
  | .null => some none
  | .text bytes => some (some bytes)
  | .wild => none

def CString.text? : CString → Option (List Byte)
  | .text bytes => some bytes
  | _ => none

/-- No result where a pointer leads to no string. -/
def Element.command (e : Element) : Option Command :=
  e.attributes.mapM fun a => do
    let name ← a.1.text?
    let value ← a.2.defined
    return (name, value)

namespace Chr
abbrev digit0 : Byte := 48
abbrev plus : Byte := 43
abbrev minus : Byte := 45
abbrev ampersand : Byte := 38
end Chr

/-! ### The C library -/

def isspace (c : Byte) : Bool := c == Chr.space || (9 ≤ c && c ≤ 13)

def isdigit (c : Byte) : Bool := 48 ≤ c && c ≤ 57

def tolower (c : Byte) : Byte := if 65 ≤ c && c ≤ 90 then c + 32 else c

/-- `!strcasecmp(a, b)` -/
def strcasecmp (a b : List Byte) : Bool := a.map tolower == b.map tolower

/-- The value of a digit in any base up to 36. -/
def digitValue (c : Byte) : Option Nat :=
  if isdigit c then some (c.toNat - 48)
  else if isalpha c then some ((tolower c).toNat - 87)
  else none

def readDigits (base : Nat) : (value : Nat) → List Byte → Nat
  | value, [] => value
  | value, c :: rest =>
      match digitValue c with
      | some d => if d < base then readDigits base (value * base + d) rest else value
      | none => value

/-- The base announced by the digits, for `strtoul` with base 0. -/
def splitBase (digits : List Byte) : Nat × List Byte :=
  match digits with
  | [] => (10, digits)
  | zero :: rest =>
      if zero = Chr.digit0 then
        match rest with
        | x :: d :: _ =>
            if tolower x = 120 ∧ ((digitValue d).any fun v => v < 16) = true then
              (16, rest.drop 1)
            else (8, digits)
        | _ => (8, digits)
      else (10, digits)

/-- `strtoul(value, 0, 0)` with 64 bits: too large a number gives the largest one, a
sign is undone modulo 2^64. -/
def strtoul (value : List Byte) : Nat :=
  let value := value.dropWhile isspace
  let negative := value.head? == some Chr.minus
  let digits := if negative || value.head? == some Chr.plus then value.drop 1 else value
  let parsed := splitBase digits
  let n := readDigits parsed.1 0 parsed.2
  if n ≥ 2 ^ 64 then 2 ^ 64 - 1
  else if negative then (2 ^ 64 - n) % 2 ^ 64
  else n

/-! ### The attributes of a command -/

namespace Command

/-- The value of the first attribute of this name, itself missing if it has none. -/
def find (command : Command) (name : List Byte) : Option (Option (List Byte)) :=
  (command.find? fun a => strcasecmp name a.1).map fun a => a.2

def isEqual (command : Command) (name s : List Byte) : Bool :=
  match command.find name with
  | some (some value) => strcasecmp value s
  | _ => false

def isTrue (command : Command) (name : List Byte) : Bool :=
  match command.find name with
  | none => false
  | some none => true
  | some (some value) =>
      if value.length = 1 then value == ascii "1"
      else if value.length = 4 then strcasecmp value (ascii "true")
      else if value.length = 2 then strcasecmp value (ascii "on")
      else false

/-- The character references `getString` knows, tried in this order. -/
def references : List (List Byte × List Byte) :=
  [(ascii "&gt;", ascii ">"), (ascii "&lt;", ascii "<"), (ascii "&amp;", ascii "&"),
    (ascii "&quot;", ascii "\""), (ascii "&apos;", ascii "'")]

/-- A lone `&` stands for itself. -/
def unescape : (left : Nat) → List Byte → List Byte
  | 0, _ => []
  | _, [] => []
  | left + 1, c :: rest =>
      if c = Chr.ampersand then
        match references.find? fun r => r.1.isPrefixOf (c :: rest) with
        | some r => r.2 ++ unescape left (rest.drop (r.1.length - 1))
        | none => c :: unescape left rest
      else c :: unescape left rest

def getString (command : Command) (name : List Byte) : Option (List Byte) :=
  match command.find name with
  | some (some value) => some (unescape value.length value)
  | _ => none

/-- The `unsigned long` of `strtoul` is stored in an `unsigned int`. -/
def getUnsigned (command : Command) (name : List Byte) : Option Nat :=
  match command.find name with
  | some (some value) => some (strtoul value % 2 ^ 32)
  | _ => none

example : unescape 20 (ascii "a&lt;b&amp;lt;&x") = ascii "a<b&lt;&x" := by decide

end Command

/-! ### The same on the pointers of an element -/

namespace Element

/-- The first attribute of this name; no result if an earlier name is undefined. -/
def findIn (name : List Byte) : List (CString × CString) → Option (Option CString)
  | [] => some none
  | (entry, value) :: rest =>
      match entry with
      | .text bytes => if strcasecmp name bytes then some (some value) else findIn name rest
      | _ => none

def find (e : Element) (name : List Byte) : Option (Option CString) := findIn name e.attributes

def getString (e : Element) (name : List Byte) : Option (Option (List Byte)) :=
  match e.find name with
  | some (some (.text value)) => some (some (Command.unescape value.length value))
  | some (some .null) => some none
  | some none => some none
  | _ => none

def isTrue (e : Element) (name : List Byte) : Option Bool :=
  match e.find name with
  | some none => some false
  | some (some .null) => some true
  | some (some (.text value)) => some (
      if value.length = 1 then value == ascii "1"
      else if value.length = 4 then strcasecmp value (ascii "true")
      else if value.length = 2 then strcasecmp value (ascii "on")
      else false)
  | _ => none

def isEqual (e : Element) (name s : List Byte) : Option Bool :=
  match e.find name with
  | some (some (.text value)) => some (strcasecmp value s)
  | some (some .null) => some false
  | some none => some false
  | _ => none

def getUnsigned (e : Element) (name : List Byte) : Option (Option Nat) :=
  match e.find name with
  | some (some (.text value)) => some (some (strtoul value % 2 ^ 32))
  | some (some .null) => some none
  | some none => some none
  | _ => none

theorem findIn_command {attributes : List (CString × CString)} {command : Command}
    (name : List Byte)
    (read : (attributes.mapM fun a => do
      let name ← a.1.text?
      let value ← a.2.defined
      return (name, value)) = some command) :
    ∃ found, findIn name attributes = some found ∧
      command.find name = (found.map fun value => value.text?) ∧ ∀ value ∈ found, value ≠ .wild := by
  induction attributes generalizing command with
  | nil =>
      cases read
      exact ⟨none, rfl, rfl, by simp⟩
  | cons a rest ih =>
      obtain ⟨entry, value⟩ := a
      cases entry with
      | null => simp [CString.text?] at read
      | wild => simp [CString.text?] at read
      | text bytes =>
          have readable : (CString.text bytes).text? = some bytes := rfl
          simp only [List.mapM_cons, readable, Option.pure_def, Option.bind_eq_bind,
            Option.bind_some, Option.bind_eq_some_iff] at read
          obtain ⟨_, ⟨string, defined, same⟩, others, later, whole⟩ := read
          cases same
          cases whole
          obtain ⟨found, finds, agrees, tame⟩ := ih later
          by_cases named : strcasecmp name bytes = true
          · refine ⟨some value, by simp [findIn, named], ?_, ?_⟩
            · cases value <;> simp_all [Command.find, CString.text?, CString.defined]
            · intro other same wild
              cases Option.mem_some_iff.mp same
              rw [wild] at defined
              exact absurd defined (by simp [CString.defined])
          · refine ⟨found, by simp [findIn, named, finds], ?_, tame⟩
            rw [← agrees]
            simp [Command.find, named]

/-- Where every string is defined, an attribute of the element is the one of its command. -/
theorem find_command {e : Element} {command : Command} (name : List Byte)
    (defined : e.command = some command) :
    (e.find name = some none ∧ command.find name = none) ∨
    (e.find name = some (some .null) ∧ command.find name = some none) ∨
    ∃ bytes, e.find name = some (some (.text bytes)) ∧ command.find name = some (some bytes) := by
  obtain ⟨found, finds, agrees, tame⟩ := findIn_command name defined
  cases found with
  | none => exact .inl ⟨finds, agrees⟩
  | some value =>
      cases value with
      | null => exact .inr (.inl ⟨finds, agrees⟩)
      | text bytes => exact .inr (.inr ⟨bytes, finds, agrees⟩)
      | wild => exact absurd rfl (tame .wild rfl)

theorem getString_command {e : Element} {command : Command} (name : List Byte)
    (defined : e.command = some command) : e.getString name = some (command.getString name) := by
  rcases find_command name defined with ⟨finds, agrees⟩ | ⟨finds, agrees⟩ | ⟨bytes, finds, agrees⟩ <;>
    rw [getString, finds, Command.getString, agrees]

theorem isTrue_command {e : Element} {command : Command} (name : List Byte)
    (defined : e.command = some command) : e.isTrue name = some (command.isTrue name) := by
  rcases find_command name defined with ⟨finds, agrees⟩ | ⟨finds, agrees⟩ | ⟨bytes, finds, agrees⟩ <;>
    rw [isTrue, finds, Command.isTrue, agrees]

theorem isEqual_command {e : Element} {command : Command} (name s : List Byte)
    (defined : e.command = some command) : e.isEqual name s = some (command.isEqual name s) := by
  rcases find_command name defined with ⟨finds, agrees⟩ | ⟨finds, agrees⟩ | ⟨bytes, finds, agrees⟩ <;>
    rw [isEqual, finds, Command.isEqual, agrees]

theorem getUnsigned_command {e : Element} {command : Command} (name : List Byte)
    (defined : e.command = some command) :
    e.getUnsigned name = some (command.getUnsigned name) := by
  rcases find_command name defined with ⟨finds, agrees⟩ | ⟨finds, agrees⟩ | ⟨bytes, finds, agrees⟩ <;>
    rw [getUnsigned, finds, Command.getUnsigned, agrees]

end Element

/-- A recognised string ends at a NUL of the input. -/
def cutAttribute (a : RawAttribute) : List Byte × Option (List Byte) :=
  (a.1.takeWhile fun c => c != Chr.nul, a.2.map fun value => value.takeWhile fun c => c != Chr.nul)

/-- The strings of a recognised element are all defined. -/
theorem command_readElement_eq (done : List RawAttribute) :
    (readElement done).command = some (done.map cutAttribute) := by
  induction done with
  | nil => rfl
  | cons a rest ih =>
      obtain ⟨name, value⟩ := a
      have text : (readAttribute (name, value)).1.text? =
          some (name.takeWhile fun c => c != Chr.nul) := rfl
      have defined : (readAttribute (name, value)).2.defined =
          some (value.map fun value => value.takeWhile fun c => c != Chr.nul) := by
        cases value <;> rfl
      simp only [Element.command, readElement] at ih
      simp only [Element.command, readElement, List.map_cons, List.mapM_cons, text, defined]
      rw [ih]
      rfl

theorem command_readElement (done : List RawAttribute) :
    ∃ command, (readElement done).command = some command :=
  ⟨_, command_readElement_eq done⟩

end PdServ
