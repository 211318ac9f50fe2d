import PdServ.XmlAttributes

/-!
The configuration, `src/src/Config.cpp`: a node of the document the YAML library has read,
if there is one. Names and numbers that are written out are the scalars of the document.
-/

namespace PdServ

/-- A node of the document: `YAML_SCALAR_NODE`, `YAML_SEQUENCE_NODE` and
`YAML_MAPPING_NODE`. -/
inductive Node where
  | scalar (value : List Byte)
  | sequence (items : List Node)
  | mapping (pairs : List (Node × Node))

def Node.isScalar (value : List Byte) : Node → Bool
  | .scalar text => text = value
  | _ => false

abbrev Config := Option Node

namespace Config

/-- `operator[](const std::string& key)` -/
def at_ (config : Config) (key : List Byte) : Config :=
  match config with
  | some (.mapping pairs) => (pairs.find? fun pair => pair.1.isScalar key).map Prod.snd
  | _ => none

/-- `operator[](size_t index)`; none where an empty sequence or mapping is read outside, as
the test comes behind the first item. A mapping gives its keys. -/
def item (config : Config) (index : Nat) : Option Config :=
  match config with
  | none => some none
  | some (.sequence items) => if items = [] then none else some items[index]?
  | some (.mapping pairs) => if pairs = [] then none else some (pairs[index]?.map Prod.fst)
  | some (.scalar value) => if index = 0 then some (some (.scalar value)) else some none

def isMapping : Config → Bool
  | some (.mapping _) => true
  | _ => false

def toString (config : Config) (defaultString : List Byte) : List Byte :=
  match config with
  | some (.scalar value) => value
  | _ => defaultString

/-- The `unsigned long` of `strtoul` becomes an `unsigned int`. -/
def toUInt (config : Config) (dflt : Nat) : Nat :=
  let sval := config.toString []
  if sval = [] then dflt else strtoul sval % 2 ^ 32

/-- What `for (size_t i = 0; config[i]; ++i)` goes through. -/
def items (config : Config) : Option (List Node) :=
  match config with
  | none => some []
  | some (.sequence items) => if items = [] then none else some items
  | some (.mapping pairs) => if pairs = [] then none else some (pairs.map Prod.fst)
  | some (.scalar value) => some [.scalar value]

theorem item_eq (config : Config) (index : Nat) :
    config.item index = config.items.map fun items => items[index]? := by
  cases config with
  | none => rfl
  | some node =>
      cases node with
      | scalar value =>
          cases index with
          | zero => rfl
          | succ index => simp [item, items]
      | sequence items =>
          simp only [item, Config.items]
          split <;> rfl
      | mapping pairs =>
          simp only [item, items]
          split
          · rfl
          · simp

end Config

end PdServ
