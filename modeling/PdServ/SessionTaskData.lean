import PdServ.PdoChain
import PdServ.Transition

/-!
`SessionTaskData`: a session that follows the PDOs of a task. It runs in the
non-real-time process beside other sessions, and the real-time process goes on
at any time; so `init` and `rxPdo` are cut into turns, one for every PDO looked
at and one for `getSignalList`. A turn reads the memory of the PDOs at once.
Addresses have 64 bits. Of `sessionTask` only the calls of `newSignal` are kept.
-/

namespace PdServ

structure SessionTaskData where
  /-- 0 is no PDO -/
  pdo : Nat := 0
  seqNo : Nat := 0
  signalListId : Nat := 0
  pdoSize : Nat := 0
  /-- It is not initialised. -/
  signalBuffer : Option Nat := none
  signalPosition : Nat → Nat := fun _ => 0
  activeSet : Finset Nat := ∅
  transferredSet : Finset Nat := ∅
  subscribedSet : Finset Nat := ∅

namespace SessionTaskData

variable (S : Setup)

/-! ### Lists of signals -/

/-- `int(signalListId - subscriptionId) >= 0`, both unsigned -/
def notBefore (signalListId subscriptionId : Nat) : Bool :=
  (signalListId + 2 ^ 32 - subscriptionId) % 2 ^ 32 < 2 ^ 31

/-- One signal of `loadSignalList`; the list collects the calls of `newSignal`. -/
def loadSignal (subscriptionId : Nat → Nat) (loading : SessionTaskData × List Nat)
    (s : Nat) : SessionTaskData × List Nat :=
  let data :=
    { loading.1 with
      signalPosition := Function.update loading.1.signalPosition s loading.1.pdoSize
      pdoSize := loading.1.pdoSize + S.sizeOf s
      transferredSet := insert s loading.1.transferredSet }
  if s ∈ data.subscribedSet ∧ notBefore data.signalListId (subscriptionId s) ∧
      s ∉ data.activeSet then
    ({ data with activeSet := insert s data.activeSet }, loading.2 ++ [s])
  else (data, loading.2)

/-- `loadSignalList`; a place that is not used is `~0U`. -/
def loadSignalList (subscriptionId : Nat → Nat) (data : SessionTaskData) (sp : List Nat)
    (id : Nat) : SessionTaskData × List Nat :=
  sp.foldl (loadSignal S subscriptionId)
    ({ data with
      signalPosition := fun _ => 4294967295
      transferredSet := ∅
      signalListId := id
      pdoSize := 0 }, [])

/-- `getValue`: where the bytes of the signal are. -/
def getValue (data : SessionTaskData) (s : Nat) : Option Nat :=
  data.signalBuffer.map (· + data.signalPosition s)

/-! ### Turns -/

/-- How one turn of the loop in `rxPdo` ends. -/
inductive Received where
  /-- There is no further PDO. -/
  | ended
  | data
  | list
  | outOfSync
deriving DecidableEq

/-- One turn of the loop in `rxPdo`, with the calls of `newSignal`. -/
def receive (subscriptionId : Nat → Nat) (m : Memory) (data : SessionTaskData) :
    Received × SessionTaskData × List Nat :=
  let pdo := Pdo.next m data.pdo
  if pdo = 0 then (.ended, data, [])
  else
    let data := { data with pdo := pdo }
    if pdo < S.txMemBegin ∨ (pdo + 72) % 2 ^ 64 > S.txMemEnd then (.outOfSync, data, [])
    else if Pdo.type m pdo = Pdo.SignalList then
      let n := Pdo.count m pdo
      let sp := (List.range n).map (Pdo.signalIdx m pdo)
      if (pdo + 72 + 8 * n) % 2 ^ 64 > S.txMemEnd then (.outOfSync, data, [])
      else if ∀ s ∈ sp, s < S.signals.length then
        (.list, loadSignalList S subscriptionId data sp (Pdo.signalListId m pdo))
      else (.outOfSync, data, [])
    else if Pdo.type m pdo = Pdo.Data then
      if (pdo + 72 + data.pdoSize) % 2 ^ 64 ≥ S.txMemEnd ∨
          Pdo.signalListId m pdo ≠ data.signalListId ∨
          (Pdo.seqNo m pdo + 2 ^ 32 - data.seqNo) % 2 ^ 32 ≠ 1 then
        (.outOfSync, data, [])
      else
        (.data, { data with
          seqNo := Pdo.seqNo m pdo
          signalBuffer := some (pdo + 72) }, [])
    else (.outOfSync, data, [])

/-- One turn of the first loop in `init`. -/
def catchUp (m : Memory) (data : SessionTaskData) : SessionTaskData :=
  { data with
    pdo := if data.pdo < S.txMemBegin ∨ data.pdo ≥ S.txMemEnd then S.txMemBegin
      else Pdo.next m data.pdo }

/-- The end of `init`, at a Data PDO with the list read last. -/
def synchronise (subscriptionId : Nat → Nat) (m : Memory) (data : SessionTaskData)
    (signals : List Nat) : SessionTaskData × List Nat :=
  loadSignalList S subscriptionId { data with seqNo := Pdo.seqNo m data.pdo } signals
    data.signalListId

end SessionTaskData

/-! ### A session among the others -/

/-- Who called `init`. -/
inductive InitCaller where
  | constructor
  | rxPdo
deriving DecidableEq

/-- What a session does next. -/
inductive SessionPhase where
  | absent
  /-- in the first loop of `init` -/
  | catchingUp (caller : InitCaller)
  /-- before `getSignalList` -/
  | listing (caller : InitCaller)
  /-- at the test for a Data PDO, with the signals from `getSignalList` -/
  | checking (caller : InitCaller) (signals : List Nat)
  /-- in the loop that waits for a further PDO -/
  | awaiting (caller : InitCaller) (signals : List Nat)
  /-- outside of `rxPdo`, which returned this the last time -/
  | ready (result : Option Bool)
  /-- at the test of the loop in `rxPdo` -/
  | receiving

/-- What an observer notes when `rxPdo` returns. -/
structure RxPdo where
  result : Bool
  data : SessionTaskData
  time : Option Nat
  statistics : Option Nat
  memory : Memory
  events : List TaskEvent

/-- A task and one of its sessions. `time` and `statistics` are the variables
the caller of `rxPdo` keeps, `informed` are the signals `newSignal` was called
for. For the observer there is what happened before, and how many changes of
the list were applied when the session was constructed. -/
structure Stream where
  task : Task
  events : List TaskEvent := []
  data : SessionTaskData := {}
  phase : SessionPhase := .absent
  time : Option Nat := none
  statistics : Option Nat := none
  informed : Finset Nat := ∅
  returns : List RxPdo := []
  since : Nat := 0

inductive StreamAction where
  | task (action : Task.Action)
  | construct
  | rxPdo
  /-- the session goes on in `init` or `rxPdo` -/
  | turn
  | subscribe (s : Nat)
  | unsubscribe (s : Nat)

namespace Stream

variable (S : Setup) (own : Nat)

def init : Stream where
  task := Task.init S

def memory (stream : Stream) : Memory := stream.task.shmem.memory

def subscriptionId (stream : Stream) : Nat → Nat := stream.task.nrt.subscriptionId

/-- `newSignal` is called for these signals. -/
def inform (stream : Stream) (signals : List Nat) : Stream :=
  { stream with informed := stream.informed ∪ signals.toFinset }

/-- `rxPdo` returns. -/
def return_ (stream : Stream) (result : Bool) : Stream :=
  { stream with
    phase := .ready (some result)
    returns := stream.returns ++
      [⟨result, stream.data, stream.time, stream.statistics, stream.memory, stream.events⟩] }

/-- `*time = &pdo->time`, `*statistics = &pdo->taskStatistics` -/
def report (stream : Stream) : Stream :=
  { stream with
    time := some (stream.data.pdo + 24)
    statistics := some (stream.data.pdo + 40) }

/-- `init` returns. -/
def synchronised (stream : Stream) (caller : InitCaller) (signals : List Nat) : Stream :=
  let (data, new) :=
    stream.data.synchronise S stream.subscriptionId stream.memory signals
  let stream := { stream with data := data }.inform new
  match caller with
  | .constructor => { stream with phase := .ready none }
  | .rxPdo => stream.return_ true

/-- The session goes on in `init` or `rxPdo`; none where it waits. -/
def turn (stream : Stream) : Option Stream :=
  let data := stream.data
  match stream.phase with
  | .absent => none
  | .ready _ => none
  | .catchingUp caller =>
      let data := data.catchUp S stream.memory
      some { stream with
        data := data
        phase := if Pdo.next stream.memory data.pdo = 0 then .listing caller
          else .catchingUp caller }
  | .listing caller =>
      let (signals, id) := stream.task.getSignalList
      some { stream with
        data := { data with signalListId := id }
        phase := .checking caller signals }
  | .checking caller signals =>
      if Pdo.type stream.memory data.pdo ≠ Pdo.Data then
        some { stream with phase := .awaiting caller signals }
      else if Pdo.signalListId stream.memory data.pdo ≠ data.signalListId then
        some { stream with phase := .listing caller }
      else some (stream.synchronised S caller signals)
  | .awaiting caller signals =>
      if Pdo.next stream.memory data.pdo = 0 then none
      else
        some { stream with
          data := { data with pdo := Pdo.next stream.memory data.pdo }
          phase := .checking caller signals }
  | .receiving =>
      let (received, data, new) := data.receive S stream.subscriptionId stream.memory
      let stream := { stream with data := data }.inform new
      match received with
      | .ended => some (stream.report.return_ false)
      | .data => some (stream.report.return_ true)
      | .list => some stream
      | .outOfSync =>
          some { stream with
            data := { stream.data with pdo := 0 }
            phase := .catchingUp .rxPdo }

/-- `SessionTaskData::subscribe`; no step while the ring of the task is full. -/
def subscribe (stream : Stream) (s : Nat) : Option Stream :=
  let data := stream.data
  if s ∈ data.activeSet then some (stream.inform [s])
  else if s ∈ data.subscribedSet then some stream
  else
    (stream.task.subscribe S s own true).map fun (subscribed, task, new) =>
      let stream :=
        { stream with
          task := task
          events := stream.events ++ new
          data := { data with subscribedSet := insert s data.subscribedSet } }
      if subscribed ∧ s ∈ data.transferredSet then
        { stream with
          data := { stream.data with activeSet := insert s data.activeSet } }.inform [s]
      else stream

/-- `SessionTaskData::unsubscribe` -/
def unsubscribe (stream : Stream) (s : Nat) : Option Stream :=
  let data := stream.data
  if s ∈ data.subscribedSet then
    (stream.task.subscribe S s own false).map fun (_, task, new) =>
      { stream with
        task := task
        events := stream.events ++ new
        data :=
          { data with
            subscribedSet := data.subscribedSet.erase s
            activeSet := data.activeSet.erase s } }
  else some stream

/-- Not a change made in the name of this session. -/
def foreign : Task.Action → Bool
  | .subscribe _ st _ => st ≠ own
  | _ => true

/-- One step; none where it is not the turn of this action. -/
def step (stream : Stream) : StreamAction → Option Stream
  | .task action =>
      if foreign own action then
        (stream.task.step S action).map fun (task, new) =>
          { stream with task := task, events := stream.events ++ new }
      else none
  | .construct =>
      match stream.phase with
      | .absent => some { stream with
          phase := .catchingUp .constructor
          since := (Task.processed stream.events).length }
      | _ => none
  | .rxPdo =>
      match stream.phase with
      | .ready _ => some { stream with phase := .receiving }
      | _ => none
  | .turn => stream.turn S
  | .subscribe s =>
      match stream.phase with
      | .ready _ => if s < S.signals.length then stream.subscribe S own s else none
      | _ => none
  | .unsubscribe s =>
      match stream.phase with
      | .ready _ => if s < S.signals.length then stream.unsubscribe S own s else none
      | _ => none

end Stream

/-- The states a task and a session reach by allowed steps. -/
abbrev StreamRun (S : Setup) (own : Nat) (allowed : Stream → StreamAction → Prop) :
    Stream → Prop :=
  Transition.Reaches (Stream.step S own) allowed (Stream.init S)

/-- Take these actions one after the other, from the start. -/
def Stream.perform (S : Setup) (own : Nat) (actions : List StreamAction) : Stream :=
  (Transition.perform (Stream.step S own) (fun _ _ => true) actions (Stream.init S)).getD
    (Stream.init S)

theorem StreamRun.of_perform {S : Setup} {own : Nat} {actions : List StreamAction}
    (done : Transition.perform (Stream.step S own) (fun _ _ => true) actions (Stream.init S) =
      some (Stream.perform S own actions)) :
    StreamRun S own Transition.anyStep (Stream.perform S own actions) :=
  Transition.Reaches.perform (fun _ _ _ => trivial) .start done

theorem StreamRun.of_isSome {S : Setup} {own : Nat} {actions : List StreamAction}
    (done : (Transition.perform (Stream.step S own) (fun _ _ => true) actions
      (Stream.init S)).isSome = true) :
    StreamRun S own Transition.anyStep (Stream.perform S own actions) := by
  obtain ⟨stream, reached⟩ := Option.isSome_iff_exists.mp done
  apply StreamRun.of_perform
  rw [Stream.perform, reached]
  rfl

end PdServ
