import PdServ.XmlAttributes
import PdServ.TreeUpdate
import Mathlib.Logic.Function.Basic

/-!
The variable directory, `MsrProto::DirectoryNode` and `HyperDirNode`, and the
lookup of `Server::find`. Nodes are known by their address; the root, which is
`Server::variableDirectory`, has address 0. A node's name is a pointer to its key
in the map of its parent, and keys never change, so it is kept as the key itself.

A position in a path is the text from there on, without text where the source
has `npos`.
-/

namespace PdServ

open Std

abbrev Name := List Byte

inductive NodeKind where
  | directory
  | hyper
  | variable
deriving DecidableEq, Repr

structure DirectoryNode where
  kind : NodeKind
  parent : Nat
  name : Name
  children : TreeMap Name Nat

/-- All nodes; `next` is the address that `new` returns. -/
structure Directory where
  nodes : Nat → Option DirectoryNode
  next : Nat

/-- `hidden` and `persistent` of `traditionalPathInsert`. -/
structure Annotation where
  hidden : Byte
  persistent : Bool
deriving DecidableEq, Repr

/-- `os << n`, on the stream of the "C" locale. -/
def decimal (n : Nat) : Name := (Nat.toDigits 10 n).map Char.toUInt8

/-- `split`: the text up to the next `/`, and the position behind that `/` and
those following it. -/
def split (path : List Byte) : Name × Option (List Byte) :=
  let name := path.takeWhile fun c => c != Chr.slash
  let behind := path.dropWhile fun c => c != Chr.slash
  (name, if behind = [] then none else some (behind.dropWhile fun c => c == Chr.slash))

/-- Empty names are not pushed. -/
def push (name : Name) (dirQ : List Name) : List Name :=
  if name.isEmpty then dirQ else name :: dirQ

/-- The loop of `pathInsert`; each pass shortens the text. -/
def components : (passes : Nat) → List Byte → Option (List Name)
  | 0, _ => none
  | passes + 1, path =>
      let (name, pos) := split path
      (match pos with
        | none => some []
        | some path => components passes path).map (push name)

/-- `string(name, 0, nameEnd)`, where `nameEnd` has gone back over white space. -/
def trimmed (name : Name) : Name := (name.reverse.dropWhile isspace).reverse

/-- The attributes of a recognised annotation. -/
def annotate (command : Command) (flags : Annotation) : Annotation :=
  let hidden :=
    if command.isTrue (ascii "hide") then 1
    else match command.find (ascii "hide") with
      | some (some value) => value.headD Chr.nul
      | _ => flags.hidden
  { hidden := if command.isTrue (ascii "unhide") then 0 else hidden
    persistent :=
      if (command.find (ascii "persistent")).isSome then command.isTrue (ascii "persistent")
      else flags.persistent }

/-- One component of `traditionalPathInsert`: what is left of its name, and the
flags behind it. The parser is given the whole name. -/
def component (name : Name) (flags : Annotation) : Option (Name × Annotation) :=
  if Chr.lessThan ∈ name then do
    let parser := ((XmlParser.new (XmlParser.bufIncrement * 1000)).read name).2
    let (found, parser) ← parser.operatorBool
    if found then do
      let command ← parser.element.command
      some (trimmed (name.takeWhile fun c => c != Chr.lessThan), annotate command flags)
    else some (name, flags)
  else some (name, flags)

/-- The loop of `traditionalPathInsert`. -/
def annotatedComponents : (passes : Nat) → List Byte → Annotation → Option (List Name × Annotation)
  | 0, _, _ => none
  | passes + 1, path, flags => do
      let (text, pos) := split path
      let (name, flags) ← component text flags
      (match pos with
        | none => some ([], flags)
        | some path => annotatedComponents passes path flags).map
          fun (later : List Name × Annotation) => (push name later.1, later.2)

namespace Directory

def new : Directory where
  nodes := Function.update (fun _ => none) 0 (some
    { kind := .directory, parent := 0, name := [], children := ∅ })
  next := 1

/-- `DirectoryNode()`: its own parent. -/
def allocate (t : Directory) (kind : NodeKind) : Nat × Directory :=
  (t.next,
    { nodes := Function.update t.nodes t.next (some
        { kind := kind, parent := t.next, name := [], children := ∅ })
      next := t.next + 1 })

/-- `children[name] = child`, and `rename` of the child. -/
def adopt (t : Directory) (self child : Nat) (name : Name) : Option Directory := do
  let dir ← t.nodes self
  let nodes := Function.update t.nodes self (some
    { dir with children := dir.children.insert name child })
  let node ← nodes child
  some { t with
    nodes := Function.update nodes child (some { node with parent := self, name := name }) }

/-- `DirectoryNode(parent, name)` and `HyperDirNode(parent, &name)`. -/
def construct (t : Directory) (kind : NodeKind) (parent : Nat) (name : Name) :
    Option (Nat × Directory) := do
  let (node, t) := t.allocate kind
  let t ← t.adopt parent node name
  some (node, t)

def child (t : Directory) (self : Nat) (name : Name) : Option Nat := do
  let dir ← t.nodes self
  dir.children[name]?

def create (t : Directory) (self : Nat) (name : Name) : Option (Nat × Directory) := do
  let dir ← t.nodes self
  match dir.children[name]? with
  | some dir => some (dir, t)
  | none => t.construct .directory self name

/-- `HyperDirNode::insertLeaf` -/
def hyperInsertLeaf (t : Directory) (self node : Nat) : Option Directory := do
  let dir ← t.nodes self
  t.adopt self node (decimal dir.children.size)

def insertLeaf (t : Directory) (self node : Nat) : Option Directory := do
  let dir ← t.nodes self
  if dir.kind = .hyper then t.hyperInsertLeaf self node
  else do
    let (hyper, t) ← t.construct .hyper dir.parent dir.name
    let t ← t.hyperInsertLeaf hyper self
    t.hyperInsertLeaf hyper node

/-- `insert(DirectoryNode *node, const std::string &name)` -/
def insert (t : Directory) (self node : Nat) (name : Name) : Option Directory := do
  let dir ← t.nodes self
  match dir.children[name]? with
  | some dir => t.insertLeaf dir node
  | none => t.adopt self node name

/-- `insert(Variable *var, DirQ &dirQ)`; an empty queue has no front. -/
def insertQueue (t : Directory) (self var : Nat) : List Name → Option Directory
  | [] => none
  | [name] => t.insert self var name
  | name :: rest => do
      let (dir, t) ← t.create self name
      t.insertQueue dir var rest

def pathInsert (t : Directory) (self var : Nat) (path : List Byte) : Option Directory := do
  let dirQ ← components (path.length + 1) path
  t.insertQueue self var dirQ

/-- The flags are what the caller finds in `hidden` and `persistent`. -/
def traditionalPathInsert (t : Directory) (self var : Nat) (path : List Byte)
    (persistent : Bool) : Option (Directory × Annotation) := do
  let (dirQ, flags) ← annotatedComponents (path.length + 1) path ⟨0, persistent⟩
  let t ← t.insertQueue self var dirQ
  some (t, flags)

/-- `path()`; the chain of parents is followed for at most so many nodes. -/
def pathWithin (t : Directory) : (nodes : Nat) → Nat → Option (List Byte)
  | 0, _ => none
  | nodes + 1, self => do
      let node ← t.nodes self
      if node.parent = self then some []
      else do
        let path ← pathWithin t nodes node.parent
        some (path ++ Chr.slash :: node.name)

def path (t : Directory) (self : Nat) : Option (List Byte) := t.pathWithin t.next self

/-- `DirectoryNode::find`; each pass shortens the text. -/
def findFrom (t : Directory) : (passes : Nat) → (self : Nat) → List Byte → Option Nat
  | 0, _, _ => none
  | passes + 1, self, path => do
      let (name, pos) := split path
      let found ← t.child self name
      match pos with
      | none => some found
      | some [] => some found
      | some path => findFrom t passes found path

def isVariable (t : Directory) (self : Nat) : Bool :=
  (t.nodes self).any fun node => node.kind == .variable

/-- `Server::find<Variable>` -/
def find (t : Directory) (path : List Byte) : Option Nat :=
  match path with
  | [] => none
  | c :: rest =>
      if c = Chr.slash then
        match t.findFrom (rest.length + 1) 0 rest with
        | some node => if t.isVariable node then some node else none
        | none => none
      else none

/-- An insertion below a node of the directory, of a new variable in all but
`create`. -/
inductive Insertion where
  | create (self : Nat) (name : Name)
  | insert (self : Nat) (name : Name)
  | pathInsert (self : Nat) (path : List Byte)
  | traditionalPathInsert (self : Nat) (path : List Byte) (persistent : Bool)
deriving DecidableEq, Repr

def step (t : Directory) : Insertion → Option Directory
  | .create self name => (t.create self name).map fun created => created.2
  | .insert self name =>
      let (var, t) := t.allocate .variable
      t.insert self var name
  | .pathInsert self path =>
      let (var, t) := t.allocate .variable
      t.pathInsert self var path
  | .traditionalPathInsert self path persistent =>
      let (var, t) := t.allocate .variable
      (t.traditionalPathInsert self var path persistent).map fun inserted => inserted.1

example : (annotatedComponents 9 (ascii "/a <hide=c>//b") ⟨0, false⟩) =
    some ([ascii "a", ascii "b"], ⟨99, false⟩) := by decide

end Directory
end PdServ
