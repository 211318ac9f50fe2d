import Mathlib.Algebra.Order.Ring.Nat
import Mathlib.Data.List.Basic
import Mathlib.Tactic.Common

/-!
The input tokenizer of an MSR session, `src/src/msrproto/XmlParser.cpp`. The
parser owns one character buffer; everything it recognises stays in that buffer
as pointers, and strings are terminated in place by overwriting their delimiter
with a NUL. Pointers are offsets from `buf`. The bytes between `inputEnd` and
`bufEnd` are never part of the state, so an access there shows up as a fault.
-/

namespace PdServ

abbrev Byte := UInt8

/-- The bytes of an ASCII text. -/
def ascii (text : String) : List Byte := text.toList.map Char.toUInt8

/-- A test of the bytes of a text goes through the text. -/
instance (priority := high) decidableForallMem (text : List Byte) (test : Byte → Prop)
    [DecidablePred test] : Decidable (∀ c ∈ text, test c) :=
  List.decidableBAll test text

namespace Chr
abbrev nul : Byte := 0
abbrev lineFeed : Byte := 10
abbrev carriageReturn : Byte := 13
abbrev space : Byte := 32
abbrev doubleQuote : Byte := 34
abbrev singleQuote : Byte := 39
abbrev slash : Byte := 47
abbrev lessThan : Byte := 60
abbrev equals : Byte := 61
abbrev greaterThan : Byte := 62
end Chr

/-- `isalpha` of the "C" locale, the only one the server runs in. -/
def isalpha (c : Byte) : Bool :=
  (65 ≤ c && c ≤ 90) || (97 ≤ c && c ≤ 122)

inductive ParseState where
  | FindElementStart
  | FindNameEnd
  | FindArgumentName
  | FindQuotedArgumentValue
  | FindArgumentValue
  | FindElementEnd
  | FindTLSEnd
deriving DecidableEq, Repr

/-- A `const char *` kept by the parser. Arithmetic on a null pointer, or past
the start of the buffer, gives a pointer that is neither null nor usable. -/
inductive CharPtr where
  | null
  | inBuf (offset : Nat)
  | wild
deriving DecidableEq, Repr

/-- What reading a C string through a pointer gives: nothing for a null
pointer, the bytes up to the first NUL of the buffer, or no defined result. -/
inductive CString where
  | null
  | text (bytes : List Byte)
  | wild
deriving DecidableEq, Repr

/-- An element as its user sees it: `tag()` and the attribute list that `find`
searches, in order. -/
structure Element where
  tag : CString
  attributes : List (CString × CString)
deriving DecidableEq, Repr

structure XmlParser where
  bufLenMax : Nat
  attributes : List (CharPtr × CharPtr)
  /-- `buf != 0` -/
  allocated : Bool
  /-- `inputEnd` was reset to null by `read` -/
  overflow : Bool
  /-- `bufEnd - buf` -/
  bufEnd : Nat
  /-- the bytes of `[buf, inputEnd)` -/
  data : List Byte
  starttls : Bool
  parsePos : Nat
  name : Nat
  argument : CharPtr
  quote : Byte
  parseState : ParseState
deriving DecidableEq, Repr

namespace XmlParser

def bufIncrement : Nat := 1024

/-- `XmlParser(size_t max = bufIncrement * 1000)` -/
def new (bufMax : Nat) : XmlParser where
  bufLenMax := bufMax
  attributes := []
  allocated := false
  overflow := false
  bufEnd := 0
  data := []
  starttls := false
  parsePos := 0
  name := 0
  argument := .wild
  quote := 0
  parseState := .FindElementStart

def inputEnd (s : XmlParser) : Nat := s.data.length

def invalid (s : XmlParser) : Bool := !s.allocated || s.overflow

/-! ### Filling the buffer -/

/-- `p += dst - name`, for a destination that becomes the new `buf`. -/
def rebase (name : Nat) : CharPtr → CharPtr
  | .inBuf offset => if name ≤ offset then .inBuf (offset - name) else .wild
  | .null => .wild
  | .wild => .wild

/-- Both callers pass the start of the buffer that is used from then on. -/
def moveData (s : XmlParser) : XmlParser :=
  { s with
    data := s.data.drop s.name
    parsePos := s.parsePos - s.name
    name := 0
    argument := rebase s.name s.argument
    attributes := s.attributes.map fun a => (rebase s.name a.1, rebase s.name a.2) }

/-- `sb->sgetn(inputEnd, bufEnd - inputEnd)`; `sb` is what the stream holds. -/
def sgetn (s : XmlParser) (sb : List Byte) : Nat × XmlParser :=
  let n := min sb.length (s.bufEnd - s.inputEnd)
  (n, { s with data := s.data ++ sb.take n })

def read (s : XmlParser) (sb : List Byte) : Nat × XmlParser :=
  if s.bufEnd = s.inputEnd then
    if s.name > 1 then
      s.moveData.sgetn sb
    else if s.bufEnd ≥ s.bufLenMax then
      (0, { s with overflow := true, data := [] })
    else
      let moved := s.moveData
      sgetn { moved with allocated := true, bufEnd := s.bufEnd + bufIncrement } sb
  else if s.parseState = .FindElementStart ∧ s.parsePos = s.inputEnd then
    sgetn { s with data := [], parsePos := 0 } sb
  else
    s.sgetn sb

/-! ### Recognising elements -/

/-- One pass through the switch: leave `operator bool`, or `break` to its loop. -/
inductive Pass where
  | again (s : XmlParser)
  | ret (result : Bool) (s : XmlParser)
deriving DecidableEq, Repr

def deref (s : XmlParser) (position : Nat) : Option Byte := s.data[position]?

/-- `*position = '\0'` -/
def clobber (s : XmlParser) (position : Nat) : XmlParser :=
  { s with data := s.data.set position Chr.nul }

/-- First position from `position` on whose byte fails the test, or `inputEnd`. -/
def scan (s : XmlParser) (test : Byte → Bool) (position : Nat) : Nat :=
  position + ((s.data.drop position).takeWhile test).length

def findArgumentValue (s : XmlParser) : Option Pass := do
  let _ ← s.deref s.parsePos
  let position := s.scan (fun c => c != Chr.space && c != Chr.greaterThan) s.parsePos
  let s := { s with parsePos := position }
  if position = s.inputEnd then
    return .ret false s
  return .again { s with parseState := .FindElementEnd }

def findQuotedArgumentValue (s : XmlParser) : Option Pass := do
  let position := s.scan (fun c => c != s.quote) s.parsePos
  let s := { s with parsePos := position }
  if position + 1 ≥ s.inputEnd then
    return .ret false s
  let s := s.clobber position
  findArgumentValue { s with parsePos := position + 1, parseState := .FindElementEnd }

/-- `!strncmp(name, "starttls", 8)` -/
def startsTls (s : XmlParser) : Bool :=
  (s.data.drop s.name).take 8 == ascii "starttls"

/-- `strchr("= />", c)`, which also finds the terminating NUL. -/
def endsName (c : Byte) : Bool :=
  c == Chr.equals || c == Chr.space || c == Chr.slash || c == Chr.greaterThan || c == Chr.nul

def findArgumentName (s : XmlParser) : Option Pass := do
  let _ ← s.deref s.parsePos
  let position := s.scan (fun c => !endsName c) s.parsePos
  let s := { s with parsePos := position }
  if position = s.inputEnd then
    return .ret false s
  let c ← s.deref position
  if c ≠ Chr.equals then
    -- an attribute without a value
    return .again { s with
      attributes := s.attributes ++ [(s.argument, .null)]
      starttls := if s.argument = .inBuf s.name then s.startsTls else s.starttls
      parseState := .FindElementEnd }
  if position + 1 ≥ s.inputEnd then
    return .ret false s
  let quote ← s.deref (position + 1)
  let s := { s with quote := quote }
  if quote ≠ Chr.doubleQuote ∧ quote ≠ Chr.singleQuote then
    let s := s.clobber position
    return .again { s with
      attributes := s.attributes ++ [(s.argument, .inBuf (position + 1))]
      parsePos := position + 2
      parseState := .FindArgumentValue }
  if position + 2 ≥ s.inputEnd then
    return .ret false s
  let s := s.clobber position
  findQuotedArgumentValue { s with
    attributes := s.attributes ++ [(s.argument, .inBuf (position + 2))]
    parsePos := position + 2
    parseState := .FindQuotedArgumentValue }

/-- `while (*parsePos == ' ') *parsePos++ = '\0'` -/
def clobberSpaces (s : XmlParser) : XmlParser :=
  let position := s.scan (fun c => c == Chr.space) s.parsePos
  { s with
    data := s.data.take s.parsePos ++ List.replicate (position - s.parsePos) Chr.nul
      ++ s.data.drop position
    parsePos := position }

def findElementEnd (s : XmlParser) : Option Pass := do
  let _ ← s.deref s.parsePos
  let s := s.clobberSpaces
  if s.parsePos = s.inputEnd then
    return .ret false s
  let c ← s.deref s.parsePos
  if c = Chr.slash then
    if s.parsePos + 1 ≥ s.inputEnd then
      return .ret false s
    let s := s.clobber s.parsePos
    let next ← s.deref (s.parsePos + 1)
    let s := { s with parsePos := s.parsePos + 2, parseState := .FindElementStart }
    if next = Chr.greaterThan then
      if !s.starttls then
        return .ret true s
      return .again { s with parseState := .FindTLSEnd }
    return .again s
  if !isalpha c then
    let s := { s with parseState := .FindElementStart }
    if c = Chr.greaterThan then
      let s := s.clobber s.parsePos
      let s := { s with parsePos := s.parsePos + 1 }
      if !s.starttls then
        return .ret true s
      return .again { s with parseState := .FindTLSEnd }
    return .again s
  findArgumentName { s with argument := .inBuf s.parsePos, parseState := .FindArgumentName }

def findElementStart (s : XmlParser) : Option Pass := do
  let position := s.scan (fun c => c != Chr.lessThan) s.parsePos
  let s := { s with parsePos := position }
  if position + 2 ≥ s.inputEnd then
    return .ret false s
  let s := { s with name := position + 1, parsePos := position + 1 }
  let c ← s.deref s.name
  if !isalpha c then
    return .again s
  findElementEnd { s with attributes := [], starttls := false, parseState := .FindElementEnd }

/-- No assignment of the source enters this state. -/
def findNameEnd (s : XmlParser) : Option Pass := do
  let _ ← s.deref s.parsePos
  let position := s.scan (fun c => c != Chr.space && c != Chr.slash &&
    c != Chr.greaterThan && c != Chr.nul) s.parsePos
  let s := { s with parsePos := position }
  if position = s.inputEnd then
    return .ret false s
  let length := position - s.name
  return .again { s with
    starttls := (s.data.drop s.name).take length == (ascii "starttls").take length
    parseState := .FindElementEnd }

def findTLSEnd (s : XmlParser) : Option Pass := do
  let c ← s.deref s.parsePos
  if c = Chr.carriageReturn ∧ s.parsePos + 1 = s.inputEnd then
    return .ret false s
  let s := { s with
    parsePos := if c = Chr.carriageReturn then s.parsePos + 1 else s.parsePos
    parseState := .FindElementStart }
  let c ← s.deref s.parsePos
  if c = Chr.lineFeed then
    return .ret true { s with parsePos := s.parsePos + 1 }
  return .again s

def pass (s : XmlParser) : Option Pass :=
  match s.parseState with
  | .FindElementStart => s.findElementStart
  | .FindElementEnd => s.findElementEnd
  | .FindArgumentName => s.findArgumentName
  | .FindQuotedArgumentValue => s.findQuotedArgumentValue
  | .FindArgumentValue => s.findArgumentValue
  | .FindNameEnd => s.findNameEnd
  | .FindTLSEnd => s.findTLSEnd

/-- `while (parsePos < inputEnd)`. The result is `none` when a pass reads outside
the input or the passes do not suffice. -/
def loop : Nat → XmlParser → Option (Bool × XmlParser)
  | 0, _ => none
  | passes + 1, s =>
      if s.parsePos < s.inputEnd then
        match s.pass with
        | none => none
        | some (.ret result s) => some (result, s)
        | some (.again s) => loop passes s
      else some (false, s)

/-- Every character is looked at by at most three passes. -/
def operatorBool (s : XmlParser) : Option (Bool × XmlParser) :=
  loop (3 * (s.inputEnd - s.parsePos) + 3) s

/-! ### What the user of an element sees -/

def cstring (s : XmlParser) : CharPtr → CString
  | .null => .null
  | .inBuf offset =>
      if Chr.nul ∈ s.data.drop offset then
        .text ((s.data.drop offset).takeWhile (fun c => c != Chr.nul))
      else .wild
  | .wild => .wild

def element (s : XmlParser) : Element where
  tag := s.cstring (.inBuf s.name)
  attributes := s.attributes.map fun a => (s.cstring a.1, s.cstring a.2)

/-- `while (parser) ...` of `Session::run`: the elements one buffer fill gives.
Each one ends at a later character than the one before it. -/
def drainLoop : Nat → XmlParser → Option (List Element × XmlParser)
  | 0, _ => none
  | rounds + 1, s =>
      match s.operatorBool with
      | none => none
      | some (false, s) => some ([], s)
      | some (true, s) =>
          match drainLoop rounds s with
          | none => none
          | some (rest, t) => some (s.element :: rest, t)

def drain (s : XmlParser) : Option (List Element × XmlParser) :=
  drainLoop (s.inputEnd - s.parsePos + 1) s

example : (((new 8192).read (ascii "lks <tag true with=no-quot/>attr />")).2.operatorBool.map
    fun r => (r.1, r.2.element)) =
    some (true, ⟨.text (ascii "tag"),
      [(.text (ascii "tag"), .null), (.text (ascii "true"), .null),
       (.text (ascii "with"), .text (ascii "no-quot/"))]⟩) := by decide

end XmlParser
end PdServ
