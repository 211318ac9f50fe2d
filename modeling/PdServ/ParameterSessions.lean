import PdServ.Invalidation
import PdServ.ParameterNotice
import PdServ.ParameterPush
import PdServ.SdoLinearization

/-!
All sessions with the parameters of the application. A session reads a parameter and
replies with it, or writes one and tells all sessions through `Server::parameterChanged`
before `ProcessParameter::setValue` unlocks it, or writes a `<pu>` for what it was told
itself. Every session has a thread of its own, which makes its calls.
-/

namespace PdServ

open Invalidation

/-- The bytes of an MSR parameter in those of the application's parameter. -/
def Parameter.part (p : Parameter) (buf : List Byte) : List Byte :=
  (buf.drop p.offset).take p.memSize

/-- The application's parameter behind an index. -/
def Server.mainParamOf (server : Server) (q : Nat) : Nat :=
  (server.parameters[q]?).elim 0 Parameter.mainParam

namespace Coherence

/-- `held` is `buf` of a read command with the parameter it was read from, `output` what was
written about parameters, the last first. -/
structure Client where
  push : PushSession.State
  held : Option (Nat × List Byte)
  output : List (Message Nat (List Byte))

namespace Client

def new : Client := ⟨PushSession.start, none, []⟩

def parameterChanged (client : Client) (q : Nat) : Client :=
  { client with push :=
      { client.push with
        session := client.push.session.parameterChanged q
        history := .changed q :: client.push.history } }

/-- What `getValue` has copied. -/
def receive (client : Client) : Sdo.Call → Sdo.Result → Client
  | .getValue p, .value buf _ => { client with held := some (p, buf) }
  | _, _ => client

/-- `setXmlAttributes` of one parameter with the buffer of its application parameter. -/
def reply (client : Client) (q : Nat) (p : Parameter) : Option Client :=
  client.held.bind fun (var, buf) =>
    if p.mainParam = var then
      some { client with output := .value q (p.part buf) :: client.output }
    else none

end Client

/-- `telling` is what a thread that has written still tells, from the lock of `Server::mutex`
on: sessions, each with a parameter. -/
structure State (App : Type) (n : Nat) where
  calls : Sdo.State App n
  client : Fin n → Option Client
  telling : Fin n → Option (List (Fin n × Nat))

inductive Action (App : Type) (n : Nat) where
  | connect (c : Fin n)
  | close (c : Fin n)
  | command (c : Fin n) (call : Sdo.Call)
  | sdo (action : Sdo.Action App n)
  | announce (c : Fin n)
  | mark (c d : Fin n) (q : Nat)
  | return (c : Fin n)
  | reply (c : Fin n) (q : Nat)
  | drop (c : Fin n)
  | push (c : Fin n) (action : PushSession.Action)

/-- The parts of a call between its begin and its return. -/
def within {App : Type} {n : Nat} : Sdo.Action App n → Bool
  | .call .. | .return _ => false
  | _ => true

/-- The thread of the session itself does this, at the end of its cycle or in a command. -/
def ownThread : PushSession.Action → Bool
  | .parameterChanged _ | .setAIC _ => false
  | _ => true

def written : PushSession.Action → List (Message Nat (List Byte))
  | .write q => [.changed q]
  | _ => []

def wrote : Sdo.Call → Sdo.Result → Bool
  | .request (.paramChange _), .set rv => rv = 0
  | _, _ => false

namespace State

variable {App : Type} {n : Nat} (areas : SharedAreas) (callbacks : Callbacks App)
  (server : Server)

def start (main : MainState) (app : App) : State App n where
  calls := (Sdo.SdoRun.start main app).state
  client := fun _ => none
  telling := fun _ => none

/-- `ost::MutexLock lock(mutex)` of the server is granted. -/
def mutexFree (s : State App n) : Bool := ∀ t, (s.telling t).all List.isEmpty = true

/-- Has told all. -/
def told (s : State App n) (c : Fin n) : Bool := (s.telling c).any List.isEmpty

def put (s : State App n) (c : Fin n) (client : Option Client) : State App n :=
  { s with client := Function.update s.client c client }

/-- Whom `Server::parameterChanged` tells of a write, and of what. -/
def notices (s : State App n) (root : Nat) (call : Parameter.Call) : List (Fin n × Nat) :=
  ((List.finRange n).filter fun d => (s.client d).isSome).flatMap fun d =>
    (server.inform call.offset (call.offset + call.buf.length) server.parameters.length root).2.map
      fun q => (d, q)

def step (s : State App n) : Action App n → Option (State App n)
  | .connect c =>
      if s.mutexFree && (s.client c).isNone then some (s.put c (some Client.new)) else none
  | .close c =>
      if s.mutexFree && (s.calls.thread c).isNone then some (s.put c none) else none
  | .command c call =>
      (s.client c).bind fun client =>
        if client.push.cp.isNone && client.held.isNone then
          (s.calls.step areas callbacks (.call c call)).map fun calls => { s with calls := calls }
        else none
  | .sdo action =>
      if within action then
        (s.calls.step areas callbacks action).map fun calls => { s with calls := calls }
      else none
  | .announce c =>
      match s.calls.thread c with
      | some (.request (.paramChange call), .left (.set rv)) =>
          if rv = 0 ∧ s.mutexFree = true ∧ (s.telling c).isNone = true then
            (server.parameterMap call.mainParam).map fun root =>
              { s with telling := Function.update s.telling c (some (s.notices server root call)) }
          else none
      | _ => none
  | .mark c d q =>
      (s.telling c).bind fun left =>
        if left.contains (d, q) then
          some { s.put d ((s.client d).map fun client => client.parameterChanged q) with
            telling := Function.update s.telling c (some (left.erase (d, q))) }
        else none
  | .return c =>
      match s.calls.thread c with
      | some (call, .left result) =>
          if wrote call result && !s.told c then none
          else (s.calls.step areas callbacks (.return c)).map fun calls =>
            { s.put c ((s.client c).map fun client => client.receive call result) with
              calls := calls
              telling := Function.update s.telling c none }
      | _ => none
  | .reply c q =>
      (s.client c).bind fun client => (server.parameters[q]?).bind fun p =>
        (client.reply q p).map fun client => s.put c (some client)
  | .drop c => (s.client c).map fun client => s.put c (some { client with held := none })
  | .push c action =>
      (s.client c).bind fun client =>
        if ownThread action && ((s.calls.thread c).isSome || client.held.isSome) then none
        else (PushSession.step server.mainParamOf client.push action).map fun push =>
          s.put c (some { client with push := push, output := written action ++ client.output })

end State

variable {App : Type} {n : Nat}

/-! ### What a step of a call leaves alone -/

/-- One thread goes on inside its call, or none does. -/
inductive Goes (thread : Fin n → Sdo.Thread) : (Fin n → Sdo.Thread) → Prop
  | stay : Goes thread thread
  | on (t : Fin n) (call : Sdo.Call) (phase phase' : Sdo.Phase)
      (there : thread t = some (call, phase)) (inside : ∀ result, phase ≠ .left result) :
      Goes thread (Function.update thread t (some (call, phase')))

theorem goes_of_step {areas : SharedAreas} {callbacks : Callbacks App}
    {s after : Sdo.State App n} {action : Sdo.Action App n} (inner : within action = true)
    (done : s.step areas callbacks action = some after) : Goes s.thread after.thread := by
  cases action with
  | call t call => cases inner
  | «return» t => cases inner
  | lock t =>
      simp only [Sdo.State.step] at done
      split at done
      · next there =>
        split at done <;> cases done
        exact .on t _ _ _ there (by simp)
      · next there =>
        split at done <;> cases done
        exact .on t _ _ _ there (by simp)
      · next there =>
        cases done
        exact .on t _ _ _ there (by simp)
      · cases done
  | enter t =>
      simp only [Sdo.State.step] at done
      split at done
      · next there =>
        split at done <;> cases done
        exact .on t _ _ _ there (by simp)
      · cases done
  | ask t =>
      simp only [Sdo.State.step] at done
      split at done
      · next there =>
        cases done
        exact .on t _ _ _ there (by simp)
      · cases done
  | failWrite t =>
      simp only [Sdo.State.step] at done
      split at done
      · next there =>
        cases done
        exact .on t _ _ _ there (by simp)
      · cases done
  | finish t =>
      simp only [Sdo.State.step] at done
      split at done
      · next there _ =>
        obtain ⟨_, _, rfl⟩ := Option.map_eq_some_iff.mp done
        exact .on t _ _ _ there (by simp)
      · cases done
  | failRead t =>
      simp only [Sdo.State.step] at done
      split at done
      · next there =>
        cases done
        exact .on t _ _ _ there (by simp)
      · cases done
  | copyValue t =>
      simp only [Sdo.State.step] at done
      split at done
      · next there =>
        cases done
        exact .on t _ _ _ there (by simp)
      · cases done
  | take =>
      simp only [Sdo.State.step] at done
      split at done <;> cases done
      exact .stay
  | run =>
      simp only [Sdo.State.step] at done
      split at done
      · obtain ⟨_, _, rfl⟩ := Option.map_eq_some_iff.mp done
        exact .stay
      · cases done
  | answer =>
      simp only [Sdo.State.step] at done
      split at done <;> cases done
      exact .stay
  | cycle app =>
      cases done
      exact .stay

namespace Goes

variable {thread thread' : Fin n → Sdo.Thread} (goes : Goes thread thread')
include goes

/-- What has its result waits for the return. -/
theorem left {t : Fin n} {call : Sdo.Call} {result : Sdo.Result}
    (there : thread t = some (call, .left result)) : thread' t = some (call, .left result) := by
  cases goes with
  | stay => exact there
  | on u other phase phase' at_u inside =>
      have apart : t ≠ u := by
        rintro rfl
        rw [there] at at_u
        cases at_u
        exact inside result rfl
      rw [Function.update_of_ne apart]
      exact there

theorem idle {t : Fin n} (rests : thread t = none) : thread' t = none := by
  cases goes with
  | stay => exact rests
  | on u other phase phase' at_u inside =>
      have apart : t ≠ u := by
        rintro rfl
        rw [rests] at at_u
        cases at_u
      rw [Function.update_of_ne apart]
      exact rests

theorem call {t : Fin n} {call : Sdo.Call} {phase : Sdo.Phase}
    (there : thread' t = some (call, phase)) : ∃ phase, thread t = some (call, phase) := by
  cases goes with
  | stay => exact ⟨phase, there⟩
  | on u other before after at_u inside =>
      by_cases same : t = u
      · subst same
        rw [Function.update_self] at there
        cases there
        exact ⟨before, at_u⟩
      · rw [Function.update_of_ne same] at there
        exact ⟨phase, there⟩

end Goes

/-! ### What a call does to the parameters -/

/-- The bytes of a parameter of the application. -/
def value (areas : SharedAreas) (o : Sdo.Object App) (var : Nat) : List Byte :=
  o.main.shmem.read (areas.shmAddr var) (areas.memSize var)

/-- The bytes of an MSR parameter. -/
def store (areas : SharedAreas) (server : Server) (o : Sdo.Object App) (q : Nat) : List Byte :=
  (server.parameters[q]?).elim [] fun p => p.part (value areas o p.mainParam)

/-- A write reaches a parameter. -/
def Reaches (server : Server) (call : Parameter.Call) (q : Nat) : Prop :=
  ∃ p, server.parameters[q]? = some p ∧ p.mainParam = call.mainParam ∧
    Server.Intersects p call.offset (call.offset + call.buf.length)

/-- The range of a write that reaches a parameter is not empty. -/
theorem Reaches.pos {server : Server} {call : Parameter.Call} {q : Nat}
    (reaches : Reaches server call q) : 0 < call.buf.length := by
  obtain ⟨p, -, -, meets⟩ := reaches
  simp only [Server.Intersects] at meets
  omega

theorem part_congr (p : Parameter) {memory other : Memory} {address length : Nat}
    (same : ∀ i, p.offset ≤ i → i < p.offset + p.memSize →
      memory (address + i) = other (address + i)) :
    p.part (memory.read address length) = p.part (other.read address length) := by
  apply List.ext_getElem
  · simp [Parameter.part]
  · intro i short long
    simp only [Parameter.part, List.length_take] at short
    simp only [Parameter.part, Memory.read, List.getElem_take, List.getElem_drop,
      List.getElem_map, List.getElem_range]
    exact same (p.offset + i) (by omega) (by omega)

/-- The area for polls lies behind all parameters. -/
theorem parameter_before_poll (app : Application) (shmem var : Nat) :
    (app.sharedAreas shmem).shmAddr var + (app.sharedAreas shmem).memSize var ≤
      (app.sharedAreas shmem).signalData := by
  simp only [Application.sharedAreas]
  cases found : (app.parameterAreas (ptr_align shmem))[var]? with
  | none => exact Nat.zero_le _
  | some area =>
      have within := Application.parameterAreas_within (ptr_align shmem) area
        (List.mem_of_getElem? found)
      have aligned := le_ptr_align (ptr_align shmem + app.parameterDataOffset 4)
      exact within.2.trans aligned

variable (app : Application) (shmem : Nat) {callbacks : Callbacks App}

/-- A poll writes behind the parameters. -/
theorem value_poll (o : Sdo.Object App) (signal var : Nat) :
    value (app.sharedAreas shmem)
        (o.apply (app.sharedAreas shmem) callbacks (.request (.pollSignal signal))).2 var =
      value (app.sharedAreas shmem) o var :=
  Memory.read_write_apart _ _ (.inl (parameter_before_poll app shmem var))

/-- A write that is refused leaves the memory as it was. -/
theorem apply_write (areas : SharedAreas) (callbacks : Callbacks App) (o : Sdo.Object App)
    (call : Parameter.Call) :
    ((o.apply areas callbacks (.request (.paramChange call))).1 = .set 0 ∧
      (o.apply areas callbacks (.request (.paramChange call))).2.main.shmem =
        o.main.shmem.write (areas.shmAddr call.mainParam + call.offset) call.buf) ∨
    (o.apply areas callbacks (.request (.paramChange call))).2.main.shmem = o.main.shmem := by
  simp only [Sdo.Object.apply]
  generalize made : o.main.exchange areas.shmAddr
    (fun p buf => (callbacks.write_cb o.app p buf).1) call true true = exchange
  have worked : exchange.written = true ∧ exchange.answered = true := by
    rw [← made]
    exact ⟨rfl, rfl⟩
  rcases o.main.setValue_cases areas.shmAddr call exchange with
    ⟨failed, -⟩ | ⟨-, -, result⟩ | ⟨-, -, result⟩
  · simp [worked] at failed
  · rw [result]
    exact .inl ⟨rfl, rfl⟩
  · rw [result]
    exact .inr (Memory.write_backup _ _ _)

/-- Only a write that was accepted changes a parameter, and only one it reaches. -/
theorem store_apply (callbacks : Callbacks App) (server : Server) (o : Sdo.Object App)
    (call : Sdo.Call)
    (inside : ∀ change, call = .request (.paramChange change) →
      change.offset + change.buf.length ≤ (app.sharedAreas shmem).memSize change.mainParam)
    (q : Nat) :
    store (app.sharedAreas shmem) server
        (o.apply (app.sharedAreas shmem) callbacks call).2 q =
      store (app.sharedAreas shmem) server o q ∨
    ∃ change, call = .request (.paramChange change) ∧
      (o.apply (app.sharedAreas shmem) callbacks call).1 = .set 0 ∧ Reaches server change q := by
  cases found : server.parameters[q]? with
  | none => exact .inl (by simp [store, found])
  | some p =>
      simp only [store, found, Option.elim_some]
      cases call with
      | getValue var => exact .inl rfl
      | request request =>
          cases request with
          | pollSignal signal => exact .inl (by rw [value_poll])
          | paramChange change =>
              rcases apply_write (app.sharedAreas shmem) callbacks o change with
                ⟨accepted, written⟩ | refused
              · by_cases same : p.mainParam = change.mainParam
                · by_cases meets : Server.Intersects p change.offset
                    (change.offset + change.buf.length)
                  · exact .inr ⟨change, rfl, accepted, p, found, same, meets⟩
                  · -- what the write does not meet keeps its bytes
                    refine .inl (part_congr p fun i low high => ?_)
                    rw [written, same]
                    apply Memory.write_outside
                    simp only [Server.Intersects] at meets
                    omega
                · -- another parameter has an area of its own
                  have apart := (app.sharedAreas shmem).apart p.mainParam change.mainParam same
                  have fits := inside change rfl
                  simp only [Areas.Apart] at apart
                  refine .inl (congrArg p.part ?_)
                  rw [value, written]
                  exact Memory.read_write_apart _ _ (by omega)
              · exact .inl (by simp only [value, refused])

end Coherence

end PdServ
