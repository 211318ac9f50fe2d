import Mathlib.Data.Fintype.Basic
import Mathlib.Logic.Function.Basic
import PdServ.Areas
import PdServ.Linearization
import PdServ.MemoryLayout
import PdServ.ParameterExchange
import PdServ.Transition

/-!
The threads of the server and the real-time process behind the pipes, as they are:
`ProcessParameter::setValue` and `getValue`, `Main::setValue`, `Main::getValue` and
`Main::run` of the library. A mutex is free when no thread is between its lock and its
unlock. A step of a thread ends where another party can notice it: at a lock, at a pipe
and at the return. The pipe calls of the real-time process do not fail.
-/

namespace PdServ

/-- Where parameters and the polling area lie, with the sizes of parameters and signals. -/
structure SharedAreas where
  shmAddr : Nat → Nat
  memSize : Nat → Nat
  signalData : Nat
  signalSize : Nat → Nat
  apart : ∀ p q, p ≠ q → Areas.Apart (shmAddr p, memSize p) (shmAddr q, memSize q)

/-- The areas `prefork_init` lays out behind `shmem`. -/
def Application.sharedAreas (app : Application) (shmem : Nat) : SharedAreas where
  shmAddr p := ((app.parameterAreas (ptr_align shmem))[p]?).elim 0 Prod.fst
  memSize p := ((app.parameterAreas (ptr_align shmem))[p]?).elim 0 Prod.snd
  signalData := ptr_align (ptr_align shmem + app.parameterDataOffset 4)
  signalSize s := ((app.tasks.flatMap StreamTask.signals)[s]?).getD 0
  apart := by
    have apart := List.pairwise_iff_getElem.mp (app.parameterAreas_pairwise (ptr_align shmem))
    intro p q other
    cases here : (app.parameterAreas (ptr_align shmem))[p]? with
    | none => simp [Areas.Apart]
    | some area =>
        cases there : (app.parameterAreas (ptr_align shmem))[q]? with
        | none => simp [Areas.Apart]
        | some area' =>
            obtain ⟨short, rfl⟩ := List.getElem?_eq_some_iff.mp here
            obtain ⟨short', rfl⟩ := List.getElem?_eq_some_iff.mp there
            rcases Nat.lt_or_gt_of_ne other with less | more
            · exact apart p q short short' less
            · exact (apart q p short' short more).symm

/-- The callbacks of the application, which change what belongs to it. The time is what
they leave in the message. -/
structure Callbacks (App : Type) where
  write_cb : App → (parameter : Nat) → List Byte → (Int × (Nat × Nat)) × App
  read_cb : App → (signal : Nat) → (List Byte × (Nat × Nat)) × App

/-- `struct SDO`: the requests and, in the same memory, the answers. -/
inductive Sdo where
  | paramChangeReq (parameter offset count : Nat)
  | pollSignal (signal : Nat)
  | paramChangeAck (rv : Int) (time : Nat × Nat)
  | polled (time : Nat × Nat)
deriving DecidableEq, Repr

namespace Sdo

/-- What the real-time process is asked: `Main::setValue` and `Main::getValue`. -/
inductive Request where
  | paramChange (call : Parameter.Call)
  | pollSignal (signal : Nat)
deriving DecidableEq

/-- What a thread calls; `getValue` is that of a parameter. -/
inductive Call where
  | getValue (p : Nat)
  | request (request : Request)
deriving DecidableEq

inductive Result where
  | set (rv : Int)
  | value (buf : List Byte) (time : Nat × Nat)
  | polled (dest : List Byte) (time : Nat × Nat)
  | unpolled (rv : Int)
deriving DecidableEq

/-- How far a call is. -/
inductive Phase where
  | called
  /-- holds the mutex of the parameter, where there is one -/
  | locked
  /-- holds `sdoMutex` as well -/
  | entered
  /-- the same, with the request written -/
  | asked (backup : List Byte)
  /-- `sdoMutex` is free again -/
  | left (result : Result)
deriving DecidableEq

abbrev Thread := Option (Call × Phase)

/-- Between lock and unlock of `sdoMutex`. -/
def Thread.exclusive : Thread → Bool
  | some (_, .entered) => true
  | some (_, .asked _) => true
  | _ => false

/-- Holds the write lock of `p`. -/
def Thread.writes (p : Nat) : Thread → Bool
  | some (.request (.paramChange call), phase) => call.mainParam = p ∧ phase ≠ .called
  | _ => false

/-- Holds a read lock of `p`. -/
def Thread.reads (p : Nat) : Thread → Bool
  | some (.getValue q, phase) => q = p ∧ phase ≠ .called
  | _ => false

/-- Where `Main::run` is. -/
inductive Supervisor where
  | waiting
  | took (sdo : Sdo)
  | ran (sdo : Sdo)
deriving DecidableEq

/-- What the calls work on. -/
structure Object (App : Type) where
  main : MainState
  app : App

structure State (App : Type) (n : Nat) extends Object App where
  thread : Fin n → Thread
  requests : List Sdo
  answers : List Sdo
  supervisor : Supervisor
  ipc_error : Bool

variable {App : Type} (areas : SharedAreas) (callbacks : Callbacks App)

/-! ### The calls one at a time -/

/-- What a call does when it is alone. -/
def Object.apply (o : Object App) : Call → Result × Object App
  | .getValue p =>
      (.value (o.main.shmem.read (areas.shmAddr p) (areas.memSize p)) (o.main.mtime p), o)
  | .request (.paramChange call) =>
      let ack (p : Nat) (buf : List Byte) := callbacks.write_cb o.app p buf
      let exchange := o.main.exchange areas.shmAddr (fun p buf => (ack p buf).1) call true true
      let copied := o.main.shmem.write (areas.shmAddr call.mainParam + call.offset) call.buf
      let (rv, main) := o.main.setValue areas.shmAddr call exchange
      (.set rv,
        { main := main
          app := (ack call.mainParam
            (copied.read (areas.shmAddr call.mainParam + call.offset % 2 ^ 32)
              (call.buf.length % 2 ^ 32))).2 })
  | .request (.pollSignal signal) =>
      let ((bytes, time), app) := callbacks.read_cb o.app signal
      let shmem := o.main.shmem.write areas.signalData bytes
      (.polled (shmem.read areas.signalData (areas.signalSize signal)) time,
        { main := { o.main with shmem := shmem }, app := app })

/-- The tasks of the application go on. -/
def Object.Cycles (before after : Object App) : Prop := after.main = before.main

/-! ### The parts of a call -/

namespace Request

/-- What is written to `ipcTx`. -/
def message : Request → Sdo
  | .paramChange call =>
      .paramChangeReq call.mainParam (call.offset % 2 ^ 32) (call.buf.length % 2 ^ 32)
  | .pollSignal signal => .pollSignal signal

/-- The shared memory when the request is written, and the backup. -/
def copy (main : MainState) : Request → MainState × List Byte
  | .paramChange call =>
      let shmAddr := areas.shmAddr call.mainParam + call.offset
      ({ main with shmem := main.shmem.write shmAddr call.buf },
        main.shmem.read shmAddr call.buf.length)
  | .pollSignal _ => (main, [])

/-- What is done with the answer. The answer to another request is not understood. -/
def finish (main : MainState) (backup : List Byte) : Request → Sdo → Option (Result × MainState)
  | .paramChange call, .paramChangeAck rv time =>
      if rv = 0 then
        some (.set rv, { main with mtime := Function.update main.mtime call.mainParam time })
      else
        some (.set rv, { main with
          shmem := main.shmem.write (areas.shmAddr call.mainParam + call.offset) backup })
  | .pollSignal signal, .polled time =>
      some (.polled (main.shmem.read areas.signalData (areas.signalSize signal)) time, main)
  | _, _ => none

/-- `return -EIO` -/
def broken : Request → Result
  | .paramChange _ => .set (-5)
  | .pollSignal _ => .unpolled (-5)

end Request

/-- The `switch` of `Main::run`. -/
def Object.run (o : Object App) : Sdo → Option (Sdo × Object App)
  | .paramChangeReq parameter offset count =>
      let ((rv, time), app) := callbacks.write_cb o.app parameter
        (o.main.shmem.read (areas.shmAddr parameter + offset) count)
      some (.paramChangeAck rv time, { o with app := app })
  | .pollSignal signal =>
      let ((bytes, time), app) := callbacks.read_cb o.app signal
      some (.polled time,
        { main := { o.main with shmem := o.main.shmem.write areas.signalData bytes }, app := app })
  | _ => none

/-! ### Side by side -/

variable {n : Nat}

inductive Action (App : Type) (n : Nat) where
  | call (t : Fin n) (call : Call)
  | lock (t : Fin n)
  | enter (t : Fin n)
  | ask (t : Fin n)
  | failWrite (t : Fin n)
  | finish (t : Fin n)
  | failRead (t : Fin n)
  | copyValue (t : Fin n)
  | return (t : Fin n)
  | take
  | run
  | answer
  | cycle (app : App)

namespace State

variable (s : State App n)

/-- `ost::MutexLock lock(sdoMutex)` is granted. -/
def sdoFree : Bool := ∀ t, (s.thread t).exclusive = false

/-- `ost::WriteLock lock(mutex)` is granted. -/
def unlocked (p : Nat) : Bool :=
  ∀ t, (s.thread t).writes p = false ∧ (s.thread t).reads p = false

/-- `ost::ReadLock lock(mutex)` is granted. -/
def unwritten (p : Nat) : Bool := ∀ t, (s.thread t).writes p = false

def put (t : Fin n) (call : Call) (phase : Phase) : State App n :=
  { s with thread := Function.update s.thread t (some (call, phase)) }

def step : Action App n → Option (State App n)
  | .call t call => if s.thread t = none then some (s.put t call .called) else none
  | .lock t =>
      match s.thread t with
      | some (.request (.paramChange call), .called) =>
          if s.unlocked call.mainParam then some (s.put t (.request (.paramChange call)) .locked)
          else none
      | some (.getValue p, .called) =>
          if s.unwritten p then some (s.put t (.getValue p) .locked) else none
      -- a signal has no mutex
      | some (.request (.pollSignal signal), .called) =>
          some (s.put t (.request (.pollSignal signal)) .locked)
      | _ => none
  | .enter t =>
      match s.thread t with
      | some (.request request, .locked) =>
          if s.sdoFree then some (s.put t (.request request) .entered) else none
      | _ => none
  | .ask t =>
      match s.thread t with
      | some (.request request, .entered) =>
          let (main, backup) := request.copy areas s.main
          some { s.put t (.request request) (.asked backup) with
            main := main, requests := s.requests ++ [request.message] }
      | _ => none
  | .failWrite t =>
      match s.thread t with
      | some (.request request, .entered) =>
          some { s.put t (.request request) (.left request.broken) with
            main := (request.copy areas s.main).1, ipc_error := true }
      | _ => none
  | .finish t =>
      match s.thread t, s.answers with
      | some (.request request, .asked backup), sdo :: rest =>
          (request.finish areas s.main backup sdo).map fun (result, main) =>
            { s.put t (.request request) (.left result) with main := main, answers := rest }
      | _, _ => none
  | .failRead t =>
      match s.thread t with
      | some (.request request, .asked _) =>
          some { s.put t (.request request) (.left request.broken) with ipc_error := true }
      | _ => none
  | .copyValue t =>
      match s.thread t with
      | some (.getValue p, .locked) =>
          some (s.put t (.getValue p) (.left (s.toObject.apply areas callbacks (.getValue p)).1))
      | _ => none
  | .return t =>
      match s.thread t with
      | some (_, .left _) => some { s with thread := Function.update s.thread t none }
      | _ => none
  | .take =>
      match s.supervisor, s.requests with
      | .waiting, sdo :: rest => some { s with supervisor := .took sdo, requests := rest }
      | _, _ => none
  | .run =>
      match s.supervisor with
      | .took sdo =>
          (s.toObject.run areas callbacks sdo).map fun (answer, object) =>
            { s with toObject := object, supervisor := .ran answer }
      | _ => none
  | .answer =>
      match s.supervisor with
      | .ran sdo => some { s with supervisor := .waiting, answers := s.answers ++ [sdo] }
      | _ => none
  | .cycle app => some { s with app := app }

end State

end Sdo

end PdServ
