import PdServ.Config
import PdServ.Database
import PdServ.Transition

/-!
Persistent parameters over the life of the server: `setupPersistent`, `setValue` and
`savePersistent` of `src/src/Main.cpp` with the `initializeParameter` of the library, and
`Database::checkKeys`. A process may end at any time; what it leaves are the files.
Berkeley DB opens every file, and each call is one step.
-/

namespace PdServ

/-- A parameter or a signal of the application. `address` is where its data type is. -/
structure MainVariable extends MainParameter where
  address : Nat

/-- What the application has registered when the server starts. The values are those the
application has given its parameters. Paths and records take less than 4 GiB. -/
structure Registered where
  parameters : List MainVariable
  signals : List MainVariable
  initial : (p : Fin parameters.length) → Vector Byte parameters[p].memSize
  same_type : ∀ p ∈ parameters, ∀ s ∈ signals, p.address = s.address → p.dtype = s.dtype
  short : ∀ p ∈ parameters, p.path.length < 2 ^ 32
  small : ∀ p ∈ parameters, Pdata.size + p.memSize < 2 ^ 32

namespace Registered

variable (vars : Registered)

abbrev Param : Type := Fin vars.parameters.length
abbrev Sig : Type := Fin vars.signals.length

abbrev param (p : vars.Param) : MainParameter := vars.parameters[p].toMainParameter
abbrev signal (s : vars.Sig) : MainParameter := vars.signals[s].toMainParameter

/-- The first parameter that has this path. -/
def findParameter (path : List Byte) : Option vars.Param :=
  (List.finRange _).find? fun p => (vars.param p).path = path

/-- A path that is there already takes the later signal. -/
def signalMap (path : List Byte) : Option vars.Sig :=
  (List.finRange _).reverse.find? fun s => (vars.signal s).path = path

end Registered

/-- As many bytes as a parameter has, from the front of these. -/
def copied (memSize : Nat) (bytes : List Byte) : Vector Byte memSize :=
  Vector.ofFn fun i => bytes.getD i 0

/-- A part of a value is replaced. -/
def overwritten {memSize : Nat} (value : Vector Byte memSize) (offset : Nat)
    (buf : List Byte) : Vector Byte memSize :=
  Vector.ofFn fun i => if offset ≤ i then buf.getD (i - offset) value[i] else value[i]

/-- `checkKeys`, for each record of the database. -/
def Records.checkKeys (records : Records) (keySet : List (List Byte)) : Records :=
  fun key => if key ∈ keySet then records key else none

/-! ### One process -/

/-- `persistentMap` has the signal of a pair, if there is one, for every persistent
parameter. -/
structure Process (vars : Registered) where
  database : List Byte
  persistentMap : vars.Param → Option (Option vars.Sig)
  value : (p : vars.Param) → Vector Byte (vars.param p).memSize
  mtime : vars.Param → Timespec

/-- The set `keys` beside the process. -/
structure Process.Setup (vars : Registered) where
  process : Process vars
  keys : List (List Byte)

namespace Process

variable {vars : Registered}

def init (database : List Byte) : Process vars where
  database := database
  persistentMap _ := none
  value := vars.initial
  mtime _ := ⟨0, 0⟩

/-- What the application has given the parameter. -/
def untouched (vars : Registered) (p : vars.Param) : List Byte × Timespec :=
  ((vars.initial p).toList, ⟨0, 0⟩)

/-- The signal of a pair; none where the item is passed over. -/
def pairSignal (item : Config) (param : vars.Param) : Option (Option vars.Sig) :=
  if item.isMapping ∧ (item.at_ (ascii "signal")).isSome then
    let path := (item.at_ (ascii "signal")).toString []
    if path = [] then some none
    else match vars.signalMap path with
      | none => none
      | some signal =>
          if vars.signals[signal].address ≠ vars.parameters[param].address then none
          else if (vars.signal signal).dim ≠ (vars.param param).dim then none
          else some (some signal)
  else some none

/-- `initializeParameter`, where there is data. -/
def initializeParameter (process : Process vars) (p : vars.Param) (data : List Byte)
    (mtime : Timespec) : Process vars :=
  { process with
    value := Function.update process.value p (copied _ data)
    mtime := Function.update process.mtime p mtime }

/-- `persistentMap[param] = signal`, and the value the database has. -/
def insert (records : Records) (process : Process vars) (param : vars.Param)
    (signal : Option vars.Sig) : Process vars :=
  let process := { process with
    persistentMap := Function.update process.persistentMap param (some signal) }
  match (Database.mk (some records)).read (vars.param param) with
  | some (value, mtime) => process.initializeParameter param value mtime
  | none => process

/-- One round of the loop over `variables`. -/
def setupItem (records : Records) (setup : Setup vars) (node : Node) : Setup vars :=
  let item : Config := some node
  let path := (if item.isMapping then item.at_ (ascii "parameter") else item).toString []
  match vars.findParameter path with
  | none => setup
  | some param =>
      if (setup.process.persistentMap param).isSome then setup
      else match pairSignal item param with
        | none => setup
        | some signal =>
            { process := setup.process.insert records param signal
              keys := (vars.param param).path :: setup.keys }

/-- What follows a write that was accepted, without the database. -/
def setValue (process : Process vars) (p : vars.Param) (offset : Nat) (buf : List Byte)
    (time : Timespec) : Process vars where
  database := process.database
  -- setting a pair by hand removes the coupling
  persistentMap :=
    if (process.persistentMap p).isSome then
      Function.update process.persistentMap p (some none)
    else process.persistentMap
  value := Function.update process.value p (overwritten (process.value p) offset buf)
  mtime := Function.update process.mtime p time

end Process

/-! ### The files -/

/-- The databases, by their file names, and the process that runs. -/
structure Persistence where
  files : List Byte → Records
  vars : Registered
  process : Process vars

inductive PersistenceAction where
  /-- a server is started, after the one before has ended anyhow -/
  | start (config : Config) (vars : Registered)
  /-- the real-time process has accepted these bytes at this time -/
  | setValue (p offset : Nat) (buf : List Byte) (time : Timespec) (padding : Vector Byte 6)
  /-- what `getPersistentSignalValue` gives, where it returns true -/
  | savePersistent (sample : Nat → Option (List Byte × Timespec)) (padding : Vector Byte 6)

namespace Persistence

/-- `Database(path).save` -/
def save (files : List Byte → Records) (database : List Byte) (p : MainParameter)
    (padding : Vector Byte 6) (value : Vector Byte p.memSize) (mtime : Timespec) :
    List Byte → Records :=
  match ((Database.mk (some (files database))).save p padding value mtime).db with
  | some records => Function.update files database records
  | none => files

/-- None where `varList[0]` reads an empty list. -/
def setupPersistent (config : Config) (vars : Registered) (files : List Byte → Records) :
    Option Persistence :=
  let persistentConfig := config.at_ (ascii "persistent")
  if persistentConfig.isNone then some ⟨files, vars, .init []⟩
  else match (persistentConfig.at_ (ascii "variables")).items with
    | none => none
    | some varList =>
        let databasePath := (persistentConfig.at_ (ascii "database")).toString []
        if varList.isEmpty ∨ databasePath = [] then some ⟨files, vars, .init []⟩
        else
          let records := files databasePath
          let setup := varList.foldl (Process.setupItem records) ⟨.init databasePath, []⟩
          some
            { vars := vars
              process := setup.process
              files :=
                if (persistentConfig.at_ (ascii "cleanup")).toUInt 1 ≠ 0 then
                  Function.update files databasePath (records.checkKeys setup.keys)
                else files }

/-- What follows a write that was accepted. -/
def setValue (state : Persistence) (p : state.vars.Param) (offset : Nat) (buf : List Byte)
    (time : Timespec) (padding : Vector Byte 6) : Persistence :=
  let process := state.process.setValue p offset buf time
  { state with
    process := process
    files :=
      if (state.process.persistentMap p).isSome then
        save state.files process.database (state.vars.param p) padding (process.value p)
          (process.mtime p)
      else state.files }

/-- One round of the loop of `savePersistent`. -/
def savePair {vars : Registered} (process : Process vars)
    (sample : Nat → Option (List Byte × Timespec)) (padding : Vector Byte 6)
    (files : List Byte → Records) (p : vars.Param) : List Byte → Records :=
  match process.persistentMap p with
  | some (some signal) =>
      match sample signal with
      | some (buf, time) => save files process.database (vars.param p) padding (copied _ buf) time
      | none => files
  | _ => files

/-- The pairs come in the order of their addresses; here in that of the parameters. -/
def savePersistent (state : Persistence) (sample : Nat → Option (List Byte × Timespec))
    (padding : Vector Byte 6) : Persistence :=
  { state with
    files := (List.finRange _).foldl (savePair state.process sample padding) state.files }

/-- A signal is copied with all its bytes. -/
def WholeSamples (vars : Registered) (sample : Nat → Option (List Byte × Timespec)) : Prop :=
  ∀ s : vars.Sig, ((sample s).elim (vars.signal s).memSize fun got => got.1.length) =
    (vars.signal s).memSize

instance (vars : Registered) (sample : Nat → Option (List Byte × Timespec)) :
    Decidable (WholeSamples vars sample) := inferInstanceAs (Decidable (∀ _, _))

def step (state : Persistence) : PersistenceAction → Option Persistence
  | .start config vars => setupPersistent config vars state.files
  | .setValue p offset buf time padding =>
      if inside : p < state.vars.parameters.length then
        if offset + buf.length ≤ (state.vars.param ⟨p, inside⟩).memSize then
          some (state.setValue ⟨p, inside⟩ offset buf time padding)
        else none
      else none
  | .savePersistent sample padding =>
      if WholeSamples state.vars sample then some (state.savePersistent sample padding)
      else none

end Persistence

end PdServ
