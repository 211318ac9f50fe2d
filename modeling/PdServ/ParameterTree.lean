import PdServ.DataType
import PdServ.XmlAttributes
import Mathlib.Logic.Function.Basic

/-!
The MSR parameters a server builds from the parameters of the application, and whom
it tells about a write: `Server.cpp`, `Parameter.cpp` and the path attributes of
`DirectoryNode.cpp`. An application parameter is known by its place in the list of
`Main`, an MSR parameter by its index in the server. The directory the names end up
in is not modelled; it gives nothing back but the attributes of the path.
-/

namespace PdServ

/-! ### The attributes of a path -/

structure PathFlags where
  hidden : Byte
  persistent : Bool
deriving DecidableEq, Repr

namespace DirectoryNode

/-- One name of a path; attributes are written behind it in angle brackets. -/
def nameFlags (flags : PathFlags) (name : List Byte) : PathFlags :=
  if Chr.lessThan ∈ name then
    match ((XmlParser.new (1000 * XmlParser.bufIncrement)).read name).2.operatorBool with
    | some (true, parser) =>
        match parser.element.command with
        | some command =>
            let hidden :=
              if command.isTrue (ascii "hide") then 1
              else match command.find (ascii "hide") with
                | some (some value) => value.headD Chr.nul
                | _ => flags.hidden
            { hidden := if command.isTrue (ascii "unhide") then 0 else hidden
              persistent :=
                if (command.find (ascii "persistent")).isSome then
                  command.isTrue (ascii "persistent")
                else flags.persistent }
        | none => flags
    | _ => flags
  else flags

/-- What `traditionalPathInsert` reports about a path. -/
def pathFlags (path : List Byte) : PathFlags :=
  (path.splitOn Chr.slash).foldl nameFlags ⟨0, false⟩

end DirectoryNode

/-! ### Building the parameters -/

/-- A parameter of the application. -/
structure MainParameter where
  path : List Byte
  dtype : DataType
  dim : DimType

def MainParameter.memSize (p : MainParameter) : Nat := p.dim.nelem * p.dtype.size

structure Parameter where
  mainParam : Nat
  dtype : DataType
  dim : DimType
  offset : Nat
  hidden : Bool
  persistent : Bool
  dependent : Option Nat

def Parameter.memSize (p : Parameter) : Nat := p.dtype.size * p.dim.nelem

structure Server where
  itemize : Bool
  parameters : List Parameter
  /-- `Parameter::children` of every parameter -/
  children : Nat → List Nat
  parameterMap : Nat → Option Nat

/-- `base` is the path of the object this one was copied from. -/
structure CreateParameter where
  base : List Byte
  name : List Byte
  var : Nat
  parentParameter : Option Nat

namespace CreateParameter

def path (c : CreateParameter) : List Byte :=
  c.base ++ (if c.name = [] then [] else Chr.slash :: c.name)

/-- The constructor of `Parameter`; a dependent one takes over from its parent. -/
def newParameter (s : Server) (var : Nat) (dtype : DataType) (dim : DimType) (offset : Nat)
    (parent : Option Nat) : Parameter :=
  let above := parent.bind fun n => s.parameters[n]?
  { mainParam := var
    dtype := dtype
    dim := dim
    offset := offset
    hidden := above.any Parameter.hidden
    persistent := above.any Parameter.persistent
    dependent := parent }

/-- `parent->addChild(this)` -/
def addChild (s : Server) (parent : Option Nat) (index : Nat) : Nat → List Nat :=
  match parent with
  | none => s.children
  | some n => Function.update s.children n (s.children n ++ [index])

def parameter (dtype : DataType) (dim : DimType) (offset : Nat) (c : CreateParameter)
    (s : Server) : Parameter :=
  let p := newParameter s c.var dtype dim offset c.parentParameter
  let flags := DirectoryNode.pathFlags c.path
  if s.itemize then
    { p with
      hidden := flags.hidden == 112 || flags.hidden == 1
      persistent := flags.persistent }
  else p

def createVariable (dtype : DataType) (dim : DimType) (offset : Nat) (c : CreateParameter)
    (s : Server) : Bool × CreateParameter × Server :=
  let index := s.parameters.length
  let p := parameter dtype dim offset c s
  (if s.itemize then p.hidden else true,
    { c with parentParameter := some index },
    { s with
      parameters := s.parameters ++ [p]
      children := addChild s c.parentParameter index
      parameterMap :=
        if c.parentParameter.isNone then Function.update s.parameterMap c.var (some index)
        else s.parameterMap })

def newVariable (dtype : DataType) (dim : DimType) (dimIdx elemIdx offset : Nat)
    (c : CreateParameter) (s : Server) : Bool × CreateParameter × Server :=
  if dtype.isPrimary then
    if (dimIdx = 0 ∧ elemIdx = 0) ∨ s.itemize = false then
      createVariable dtype dim offset c s
    else if dimIdx = dim.dims.length then
      -- a leaf with only one element
      createVariable dtype .single offset c s
    else (false, c, s)
  else (false, c, s)

def visitor : DataType.Visitor CreateParameter Server where
  newVariable := newVariable
  newDimension := fun _ _ _ elemIdx _ c s => ({ c with name := ascii (toString elemIdx) }, s)
  newField := fun field _ c s => ({ c with name := field.name }, s)
  copy := fun c => { c with base := c.path, name := [] }

end CreateParameter

namespace Server

def createParameter (s : Server) (var : Nat) (param : MainParameter) : Server :=
  DataType.Iterator.iterate CreateParameter.visitor param.dtype param.dim
    ⟨param.path, [], var, none⟩ s

def createParameters (itemize : Bool) (mainParams : List MainParameter) : Server :=
  (mainParams.zipIdx).foldl (fun s p => s.createParameter p.2 p.1)
    { itemize := itemize, parameters := [], children := fun _ => [], parameterMap := fun _ => none }

end Server

/-! ### Telling the sessions -/

structure Session where
  polite : Bool
  changedParameter : List Nat
deriving DecidableEq, Repr

def Session.parameterChanged (session : Session) (p : Nat) : Session :=
  if session.polite then session
  else { session with changedParameter := session.changedParameter.insert p }

namespace Server

/-- The loop over the children, which ends at the first that lies behind the range. -/
def informChildren (inform : Nat → Bool × List Nat) : List Nat → List Nat
  | [] => []
  | child :: rest =>
      let informed := inform child
      if informed.1 then informed.2 else informed.2 ++ informChildren inform rest

/-- `Parameter::inform`: its result and the parameters reported to the session.
Children are younger than their parents, so the tree is no deeper than `depth`. -/
def inform (s : Server) (first last : Nat) : (depth : Nat) → Nat → Bool × List Nat
  | 0, _ => (false, [])
  | depth + 1, n =>
      match s.parameters[n]? with
      | none => (false, [])
      | some p =>
          if first ≥ p.offset + p.memSize then (false, [])
          else if p.offset ≥ last then (true, [])
          else (false, n :: informChildren (s.inform first last depth) (s.children n))

/-- `Server::parameterChanged`; no result where `find` dereferences `end()`. -/
def parameterChanged (s : Server) (sessions : List Session) (mainParam offset count : Nat) :
    Option (List Session) :=
  match s.parameterMap mainParam with
  | none => none
  | some n => some (sessions.map fun session =>
      (s.inform offset (offset + count) s.parameters.length n).2.foldl
        Session.parameterChanged session)

end Server
end PdServ
