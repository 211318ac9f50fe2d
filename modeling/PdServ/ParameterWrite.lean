import PdServ.ParameterTree
import PdServ.Memory

/-!
The way of a `write_parameter` command into shared memory:
`Session::writeParameter`, `Parameter::setHexValue` and
`Parameter::setDoubleValue` of the MSR protocol, and `Main::setValue` of the
library, which copies without a check of its own. A number is read as
`std::istream` does in the classic locale; what `static_cast` makes of it is
left to a parameter. A null pointer that is used gives no result.
-/

namespace PdServ

/-! ### Reading from a stream -/

/-- A number as it is written, before it is rounded:
`(-1)^negative * mantissa * 10^(exponent - fraction)`. -/
structure Numeral where
  negative : Bool
  mantissa : Nat
  fraction : Nat
  exponent : Int
deriving DecidableEq

/-- Half a unit above the largest `double`; `strtod` gives infinity from here
on. -/
def doubleLimit : Nat := 2 ^ 1024 - 2 ^ 970

def Numeral.overflows (n : Numeral) : Bool :=
  let scale := n.exponent - n.fraction
  if 0 ≤ scale then doubleLimit ≤ n.mantissa * 10 ^ scale.toNat
  else doubleLimit * 10 ^ (-scale).toNat ≤ n.mantissa

def decimalValue (digits : List Byte) : Nat :=
  digits.foldl (fun n c => n * 10 + (c.toNat - 48)) 0

/-- A sign, if there is one. -/
def takeSign : List Byte → Bool × List Byte
  | [] => (false, [])
  | c :: rest =>
      if c = Chr.minus then (true, rest)
      else if c = Chr.plus then (false, rest)
      else (false, c :: rest)

/-- `is >> v` for a `double`, without the white space before it. The exponent
needs a digit once its letter was read. -/
def readNumeral (text : List Byte) : Option (Numeral × List Byte) :=
  let (negative, text) := takeSign text
  let whole := text.takeWhile isdigit
  let text := text.dropWhile isdigit
  let pointed := text.head? == some 46
  let part := if pointed then (text.drop 1).takeWhile isdigit else []
  let text := if pointed then (text.drop 1).dropWhile isdigit else text
  if whole = [] ∧ part = [] then none
  else
    let mantissa := decimalValue (whole ++ part)
    if text.head? = some 101 ∨ text.head? = some 69 then
      let (down, text) := takeSign (text.drop 1)
      let digits := text.takeWhile isdigit
      if digits = [] then none
      else
        let size : Int := decimalValue digits
        some (⟨negative, mantissa, part.length, if down then -size else size⟩,
          text.dropWhile isdigit)
    else some (⟨negative, mantissa, part.length, 0⟩, text)

/-- `is >> v`; no result where the stream fails. -/
def extractDouble (is : List Byte) : Option (Numeral × List Byte) :=
  match readNumeral (is.dropWhile isspace) with
  | some (v, rest) => if v.overflows then none else some (v, rest)
  | none => none

/-- `is >> c` for a `char`. -/
def extractChar (is : List Byte) : Option (Byte × List Byte) :=
  match is.dropWhile isspace with
  | [] => none
  | c :: rest => some (c, rest)

/-- `DataType::setValue` of the primary types, a `static_cast<T>` of the number
that is stored at the destination. -/
structure SetValue where
  bytes : Primary → Numeral → List Byte
  length : ∀ kind v, (bytes kind v).length = kind.size

/-! ### The value of a command -/

/-- What the functions return: 0, 1 and `-EINVAL`. -/
inductive Status where
  | more
  | ended
  | invalid
deriving DecidableEq

/-- The stream, the bytes stored in front of `buf`, and `count`. -/
structure Elements where
  is : List Byte
  stored : List Byte
  count : Nat
deriving DecidableEq

namespace Parameter

variable (convert : SetValue)

def isSeparator (c : Byte) : Bool := c == 44 || c == 59 || isspace c

/-- The second loop of `setElements`, over the elements of a primary type. -/
def setPrimary (kind : Primary) : (left : Nat) → Elements → Status × Elements
  | 0, e => (.more, e)
  | left + 1, e =>
      match extractDouble e.is with
      | none => (.invalid, e)
      | some (v, is) =>
          let e : Elements :=
            { is := is
              stored := e.stored ++ convert.bytes kind v
              count := e.count + kind.size }
          match extractChar is with
          | none => (.ended, e)
          | some (c, is) =>
              if isSeparator c then setPrimary kind left { e with is := is }
              else (.invalid, { e with is := is })

/-- The first loop, over the elements of a compound. -/
def setCompound (fields : Elements → Status × Elements) :
    (left : Nat) → Elements → Status × Elements
  | 0, e => (.more, e)
  | left + 1, e =>
      match fields e with
      | (.more, e) => setCompound fields left e
      | stop => stop

mutual
def setElements : DataType → DimType → Elements → Status × Elements
  | .primary kind, dim, e => setPrimary convert kind dim.nelem e
  | .compound _ fieldList, dim, e => setCompound (setFields fieldList) dim.nelem e
def setFields : FieldList → Elements → Status × Elements
  | .nil, e => (.more, e)
  | .cons _ type _ dim rest, e =>
      match setElements type dim e with
      | (.more, e) => setFields rest e
      | stop => stop
end

/-- The arguments of `mainParam->setValue`; the count is the length of `buf`. -/
structure Call where
  mainParam : Nat
  offset : Nat
  buf : List Byte
deriving DecidableEq

/-- `setDoubleValue` up to the call; none where it returns `-EINVAL`. -/
def setDoubleValue (p : Parameter) (text : List Byte) (startindex : Nat) : Option Call :=
  match setElements convert p.dtype p.dim ⟨text, [], 0⟩ with
  | (.invalid, _) => none
  | (_, e) =>
      some
        { mainParam := p.mainParam
          offset := p.offset + startindex * p.dtype.size
          buf := e.stored.take e.count }

def hexNum : List Byte :=
  [0, 1, 2, 3, 4, 5, 6, 7, 8, 9, 0, 0, 0, 0, 0, 0,
    0, 10, 11, 12, 13, 14, 15, 0, 0, 0, 0, 0, 0, 0, 0, 0,
    0, 0, 0, 0, 0, 0, 0, 0, 0, 0, 0, 0, 0, 0, 0, 0,
    0, 10, 11, 12, 13, 14, 15]

/-- The loop of `setHexValue` with `room` bytes left in the buffer. At the end
of a string of odd length the second character is its NUL. -/
def hexBytes : (room : Nat) → List Byte → Option (List Byte)
  | 0, _ => some []
  | _ + 1, [] => some []
  | room + 1, s :: rest =>
      let c1 := s - 48
      let c2 := rest.headD Chr.nul - 48
      match hexNum[c1.toNat]?, hexNum[c2.toNat]? with
      | some high, some low =>
          (hexBytes room (rest.drop 1)).map fun bytes => (high <<< 4 ||| low) :: bytes
      | _, _ => none

def setHexValue (p : Parameter) (s : List Byte) (startindex : Nat) : Option Call :=
  (hexBytes p.memSize s).map fun valueBuf =>
    { mainParam := p.mainParam
      offset := p.offset + startindex * p.dtype.size
      buf := valueBuf }

end Parameter

/-! ### Main::setValue -/

/-- Shared memory and the modification times of the parameters. -/
structure MainState where
  shmem : Memory
  mtime : Nat → Nat × Nat

/-- The exchange with the real-time process: whether the request was written
and the answer read, and the answer. -/
structure Exchange where
  written : Bool
  answered : Bool
  rv : Int
  time : Nat × Nat

/-- `Main::setValue` of the library; `shmAddr` tells where a parameter lies. -/
def MainState.setValue (m : MainState) (shmAddr : Nat → Nat) (call : Parameter.Call)
    (exchange : Exchange) : Int × MainState :=
  let address := shmAddr call.mainParam + call.offset
  let backup := m.shmem.read address call.buf.length
  let copied := m.shmem.write address call.buf
  if exchange.written = false ∨ exchange.answered = false then
    (-5, { m with shmem := copied })
  else if exchange.rv = 0 then
    (0, { shmem := copied, mtime := Function.update m.mtime call.mainParam exchange.time })
  else (exchange.rv, { m with shmem := copied.write address backup })

/-! ### Session::writeParameter -/

/-- The MSR parameter a command names. `find` is the lookup in the directory. -/
def Server.addressed (server : Server) (find : List Byte → Option Nat)
    (command : Command) : Option Nat :=
  match command.getString (ascii "name") with
  | some name => find name
  | none =>
      match command.getUnsigned (ascii "index") with
      | some index => if index < server.parameters.length then some index else none
      | none => none

/-- What a command does: the warning, the parameter that becomes an
asynchronous input, the call of `mainParam->setValue`, whether the other
sessions are told, and the states it leaves. -/
structure WriteResult where
  warned : Bool
  aic : Option Nat
  call : Option Parameter.Call
  told : Bool
  session : Session
  main : MainState

/-- The end of `writeParameter` and `Main::setValue` around the library: where
the value was refused the client has to read it again. -/
def Session.finishWrite (session : Session) (shmAddr : Nat → Nat) (exchange : Exchange)
    (main : MainState) (p : Nat) (aic : Option Nat) (call : Option Parameter.Call) :
    WriteResult :=
  match call with
  | none =>
      { warned := false, aic := aic, call := none, told := false
        session := session.parameterChanged p, main := main }
  | some call =>
      let (rv, main) := main.setValue shmAddr call exchange
      { warned := false, aic := aic, call := some call, told := rv == 0
        session := if rv = 0 then session else session.parameterChanged p
        main := main }

def Session.writeParameter (convert : SetValue) (server : Server)
    (find : List Byte → Option Nat) (shmAddr : Nat → Nat) (writeAccess : Bool)
    (session : Session) (exchange : Exchange) (main : MainState) (command : Command) :
    Option WriteResult :=
  let nothing (aic : Option Nat) : WriteResult :=
    { warned := false, aic := aic, call := none, told := false
      session := session, main := main }
  if writeAccess = false then some { nothing none with warned := true }
  else
    match server.addressed find command with
    | none => some (nothing none)
    | some n =>
        match server.parameters[n]? with
        | none => some (nothing none)
        | some p =>
            let startindex := command.getUnsigned (ascii "startindex")
            if startindex.any fun i => p.dim.nelem ≤ i then some (nothing none)
            else
              let aic := if command.isTrue (ascii "aic") then some n else none
              let finish := session.finishWrite shmAddr exchange main n aic
              match command.find (ascii "hexvalue") with
              | some none => none
              | some (some s) => some (finish (p.setHexValue s (startindex.getD 0)))
              | none =>
                  match command.find (ascii "value") with
                  | some none => none
                  | some (some s) =>
                      some (finish (p.setDoubleValue convert s (startindex.getD 0)))
                  | none => some (nothing aic)

end PdServ
