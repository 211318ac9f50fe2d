import PdServ.SessionReceives
import PdServ.SessionSync

/-!
Signals coupled to persistent parameters. `nrt_init` lets `persist`, a session of
the task itself, subscribe them before the servers are started; `nrt_update`
calls its `rxPdo` until that returns false, and the values are taken in between.
Taking a value is one step. The set of the signals is not empty.
-/

namespace PdServ

/-- What `getPersistentSignalValue` leaves behind: `buf` and `*time`, none where
they were not written. -/
structure PersistentValue where
  signal : Nat
  result : Bool
  buf : Option (List Byte)
  time : Option (Nat × Nat)
  events : List TaskEvent

/-- The thread that calls `nrt_init`, `nrt_update` and `savePersistent`, among all
others. `Task::time` and `Persistent::active` are `time` and `informed` of the
stream; `unsubscribed` are the signals `nrt_init` has still to subscribe. -/
structure NrtThread where
  stream : Stream
  unsubscribed : List Nat
  saved : List PersistentValue := []

inductive NrtAction where
  /-- a step of `persist` or of another party -/
  | stream (action : StreamAction)
  | getPersistentSignalValue (s : Nat)

namespace Stream

/-- `Task::getPersistentValue`: the result, and where it was written the bytes of
`buf` and `*t`. -/
def getPersistentValue (S : Setup) (stream : Stream) (s : Nat) :
    Bool × Option (List Byte) × Option Nat :=
  (stream.time.isSome,
    if s ∈ stream.informed then
      ((stream.data.getValue s).map fun value => stream.memory.read value (S.sizeOf s),
        stream.time)
    else (none, none))

/-- `Main::getPersistentSignalValue`, called with a `time` -/
def getPersistentSignalValue (S : Setup) (stream : Stream) (s : Nat) : PersistentValue :=
  let (rv, buf, t) := stream.getPersistentValue S s
  { signal := s
    result := rv
    buf := buf
    time := if rv then
        t.map fun t => (stream.memory.word t 8, stream.memory.word (t + 8) 8)
      else none
    events := stream.events }

end Stream

namespace NrtThread

variable (S : Setup) (persist : Nat)

def init (persistentSet : List Nat) : NrtThread where
  stream := Stream.init S
  unsubscribed := persistentSet

/-- Other sessions come after `nrt_init`, and `persist` stays to the end. -/
def permitted (nrt : NrtThread) : StreamAction → Bool
  | .task (.subscribe ..) => nrt.unsubscribed = []
  | .task _ => true
  | .construct => true
  | .turn => true
  | .subscribe s => nrt.unsubscribed.head? = some s
  | .rxPdo => nrt.unsubscribed = []
  | .unsubscribe _ => false

/-- What `nrt_init` has to do behind this step. -/
def remaining (nrt : NrtThread) : StreamAction → List Nat
  | .subscribe _ => nrt.unsubscribed.tail
  | _ => nrt.unsubscribed

/-- One step; none where it is not the turn of this action. -/
def step (nrt : NrtThread) : NrtAction → Option NrtThread
  | .stream action =>
      if nrt.permitted action then
        (nrt.stream.step S persist action).map fun stream =>
          { nrt with stream := stream, unsubscribed := nrt.remaining action }
      else none
  | .getPersistentSignalValue s =>
      match nrt.stream.phase with
      | .ready (some false) =>
          some { nrt with
            saved := nrt.saved ++ [nrt.stream.getPersistentSignalValue S s] }
      | _ => none

end NrtThread

/-- The states reached by allowed steps. -/
abbrev NrtRun (S : Setup) (persist : Nat) (persistentSet : List Nat)
    (allowed : NrtThread → NrtAction → Prop) : NrtThread → Prop :=
  Transition.Reaches (NrtThread.step S persist) allowed (NrtThread.init S persistentSet)

/-- The value was written, with the time of a Data PDO that carries the signal and
the bytes it has there. -/
def PersistentValue.Sampled (S : Setup) (value : PersistentValue) : Prop :=
  ∃ pdo, .data pdo ∈ Task.pdos value.events ∧
    value.signal ∈ Published.list (.data pdo) ∧
    value.buf = some ((List.range (S.sizeOf value.signal)).map (pdo.values value.signal)) ∧
    value.time = some (pdo.time.tv_sec.toNat, pdo.time.tv_nsec.toNat)

/-! ### The list of the session -/

namespace Stream

variable {S : Setup} {own : Nat} {stream after : Stream} {list : List Nat} {id : Nat}

/-- A list that the session loads in `rxPdo` stands in a PDO as it was published. -/
def KnownList (S : Setup) (stream : Stream) : StreamAction → Prop
  | .turn => stream.phase = .receiving →
      (stream.data.receive S stream.subscriptionId stream.memory).1 = .list →
      ∃ pdo, stream.Intact (Pdo.next stream.memory stream.data.pdo) (.signals pdo)
  | _ => True

/-- The session has one of the lists of the task, also after it has called `init`
again, and where `rxPdo` has returned false its time is that of the PDO it stands
on. -/
structure Listed (S : Setup) (stream : Stream) : Prop where
  listed : ∀ caller signals, stream.phase = .checking caller signals ∨
      stream.phase = .awaiting caller signals →
    Committed S stream stream.data.signalListId signals
  loaded : (∃ result, stream.phase = .ready result) ∨ stream.phase = .receiving →
    ∃ list, stream.data.Loaded S list ∧ Committed S stream stream.data.signalListId list
  time : stream.phase = .ready (some false) → stream.time = some (stream.data.pdo + 24)

namespace Listed

/-- A step that leaves the session where it is. -/
theorem kept {new : List TaskEvent} (listed : Listed S stream)
    (events : after.events = stream.events ++ new) (phase : after.phase = stream.phase)
    (id : after.data.signalListId = stream.data.signalListId)
    (pdo : after.data.pdo = stream.data.pdo) (time : after.time = stream.time)
    (loaded : ∀ list, stream.data.Loaded S list → after.data.Loaded S list) :
    Listed S after where
  listed := by
    intro caller signals
    rw [phase, id]
    intro checking
    exact (listed.listed caller signals checking).mono events
  loaded := by
    rw [phase, id]
    intro waiting
    obtain ⟨list, holds, committed⟩ := listed.loaded waiting
    exact ⟨list, loaded list holds, committed.mono events⟩
  time := by
    rw [phase, time, pdo]
    exact listed.time

/-- A step after which the session is in `init`. -/
theorem searching
    (phase : after.phase.Searching (Committed S after after.data.signalListId)) :
    Listed S after where
  listed := fun _ _ checking => phase.known checking
  loaded := fun outside => absurd outside phase.inside
  time := fun returned => absurd (.inl ⟨_, returned⟩) phase.inside

/-- A step after which the session has a list and is outside of `init`. -/
theorem holding (phase : (∃ result, after.phase = .ready result) ∨ after.phase = .receiving)
    (loaded : after.data.Loaded S list)
    (committed : Committed S after after.data.signalListId list)
    (time : after.phase = .ready (some false) → after.time = some (after.data.pdo + 24)) :
    Listed S after where
  listed := fun _ _ checking => absurd checking (SessionPhase.not_listed phase)
  loaded := fun _ => ⟨list, loaded, committed⟩
  time := time

theorem step {action : StreamAction} (listed : Listed S stream)
    (run : TaskRun S stream.task stream.events) (known : KnownList S stream action)
    (done : stream.step S own action = some after) : Listed S after := by
  cases steps done with
  | task other taken =>
      apply listed.kept <;> first | rfl | exact fun _ => id
  | construct phase => exact .searching (.inl ⟨_, rfl⟩)
  | rxPdo phase =>
      obtain ⟨list, loaded, committed⟩ := listed.loaded (.inl ⟨_, phase⟩)
      exact .holding (.inr rfl) loaded (committed.same rfl) nofun
  | @catchUp caller phase =>
      refine Listed.searching ?_
      dsimp only
      split
      · exact .inr (.inl ⟨_, rfl⟩)
      · exact .inl ⟨_, rfl⟩
  | @list caller phase =>
      exact .searching
        (.inr (.inr ⟨_, _, .inl rfl, (getSignalList_committed run).same rfl⟩))
  | @other caller signals phase type =>
      exact .searching
        (.inr (.inr ⟨_, _, .inr rfl, (listed.listed _ signals (.inl phase)).same rfl⟩))
  | @older caller signals phase type id => exact .searching (.inr (.inl ⟨_, rfl⟩))
  | @found caller signals phase type id =>
      have committed := listed.listed caller signals (.inl phase)
      have loads := synchronised_loads S stream (committed.nodup run)
      cases caller with
      | constructor =>
          refine .holding (.inl ⟨_, rfl⟩) loads.loaded ?_ nofun
          rw [loads.signalListId]
          exact committed.same rfl
      | rxPdo =>
          refine .holding (.inl ⟨_, rfl⟩) loads.loaded ?_ nofun
          have number : (stream.synchronised S .rxPdo signals).data.signalListId = _ :=
            loads.signalListId
          rw [number]
          exact committed.same rfl
  | @next caller signals phase some_pdo =>
      exact .searching
        (.inr (.inr ⟨_, _, .inl rfl, (listed.listed _ signals (.inr phase)).same rfl⟩))
  | ended phase result =>
      obtain ⟨list, loaded, committed⟩ := listed.loaded (.inr phase)
      obtain rfl := SessionTaskData.receive_of_ended result
      exact .holding (.inl ⟨_, rfl⟩) loaded (committed.same rfl) fun _ => rfl
  | @data data told phase result =>
      obtain ⟨list, loaded, committed⟩ := listed.loaded (.inr phase)
      have keeps := SessionTaskData.receive_keeps result nofun
      rw [← keeps.signalListId] at committed
      exact .holding (.inl ⟨_, rfl⟩) (keeps.loaded list loaded) (committed.same rfl) nofun
  | @signals data told phase result =>
      obtain ⟨pdo, intact⟩ := known phase (by rw [result])
      have loads := Intact.loads run intact result
      have committed := intact.committed run
      have number : (Published.signals pdo).signalListId = data.signalListId :=
        loads.signalListId.symm
      rw [number] at committed
      apply Listed.holding
      · exact .inr phase
      · exact loads.loaded
      · exact committed.same rfl
      · intro returned
        cases phase.symm.trans returned
  | outOfSync phase result => exact .searching (.inl ⟨_, rfl⟩)
  | active phase active =>
      apply listed.kept
      · exact (List.append_nil _).symm
      · rfl
      · rfl
      · rfl
      · rfl
      · exact fun _ => id
  | subscribed phase subscribed => exact listed
  | activate phase fresh taken result transferred =>
      apply listed.kept <;> first
        | rfl
        | exact fun _ loaded => ⟨loaded.transferred, loaded.pdoSize, loaded.position⟩
  | subscribe phase inactive fresh taken =>
      apply listed.kept <;> first
        | rfl
        | exact fun _ loaded => ⟨loaded.transferred, loaded.pdoSize, loaded.position⟩
  | unsubscribe phase subscribed taken =>
      apply listed.kept <;> first
        | rfl
        | exact fun _ loaded => ⟨loaded.transferred, loaded.pdoSize, loaded.position⟩
  | unknown phase fresh => exact listed

theorem init : Listed S (Stream.init S) where
  listed := by
    intro caller signals phase
    rcases phase with phase | phase <;> cases phase
  loaded := by
    rintro (⟨result, phase⟩ | phase) <;> cases phase
  time := nofun

end Listed

end Stream

/-! ### Values that were sampled -/

namespace NrtThread

variable {S : Setup} {persist : Nat} {persistentSet : List Nat} {nrt after : NrtThread}

/-- A list that is loaded was published; and where a value is taken, `persist` knows
that the signal is active, its buffer is that of the Data PDO it stands on, and this
PDO is intact, has the list that is loaded, and carries the signal. The number of a
list stands for one list only. -/
def Supplied (S : Setup) (nrt : NrtThread) : NrtAction → Prop
  | .stream action => nrt.stream.KnownList S action
  | .getPersistentSignalValue s =>
      let stream := nrt.stream
      s ∈ stream.informed ∧ (Task.published stream.events).length < 2 ^ 32 ∧
        stream.data.signalBuffer = some (stream.data.pdo + 72) ∧
        ∃ pdo, stream.Intact stream.data.pdo (.data pdo) ∧
          pdo.signalListId = stream.data.signalListId ∧ s ∈ Published.list (.data pdo)

theorem step_stream {action : StreamAction}
    (done : nrt.step S persist (.stream action) = some after) :
    nrt.stream.step S persist action = some after.stream ∧ after.saved = nrt.saved := by
  simp only [step] at done
  split at done
  · obtain ⟨stream, here, same⟩ := Option.map_eq_some_iff.mp done
    cases same
    exact ⟨here, rfl⟩
  · cases done

theorem step_value {s : Nat}
    (done : nrt.step S persist (.getPersistentSignalValue s) = some after) :
    nrt.stream.phase = .ready (some false) ∧ after.stream = nrt.stream ∧
      after.saved = nrt.saved ++ [nrt.stream.getPersistentSignalValue S s] := by
  simp only [step] at done
  split at done <;> cases done
  next ready => exact ⟨ready, rfl, rfl⟩

end NrtThread

/-- The session of a run of the thread. -/
theorem NrtRun.streamRun {S : Setup} {persist : Nat} {persistentSet : List Nat}
    {allowed : NrtThread → NrtAction → Prop} {nrt : NrtThread}
    (run : NrtRun S persist persistentSet allowed nrt) :
    StreamRun S persist Transition.anyStep nrt.stream := by
  induction run with
  | start => exact .start
  | step action _ _ done ih =>
      cases action with
      | stream action => exact .step action ih trivial (NrtThread.step_stream done).1
      | getPersistentSignalValue s =>
          rw [(NrtThread.step_value done).2.1]
          exact ih

namespace Stream

variable {S : Setup} {stream : Stream} {s : Nat}

/-- A signal that is not active is reported with whatever `buf` and `t` hold. -/
theorem getPersistentSignalValue_inactive (inactive : s ∉ stream.informed) :
    stream.getPersistentSignalValue S s =
      { signal := s, result := stream.time.isSome, buf := none, time := none,
        events := stream.events } := by
  simp only [getPersistentSignalValue, getPersistentValue, if_neg inactive]
  split <;> rfl

theorem Listed.sampled (listed : Listed S stream)
    (run : TaskRun S stream.task stream.events) (phase : stream.phase = .ready (some false))
    (active : s ∈ stream.informed)
    (few : (Task.published stream.events).length < 2 ^ 32)
    (buffer : stream.data.signalBuffer = some (stream.data.pdo + 72)) {pdo : DataPdo}
    (intact : stream.Intact stream.data.pdo (.data pdo))
    (number : pdo.signalListId = stream.data.signalListId)
    (carried : s ∈ Published.list (.data pdo)) :
    (stream.getPersistentSignalValue S s).Sampled S := by
  obtain ⟨list, loaded, committed⟩ := listed.loaded (.inl ⟨_, phase⟩)
  have address : pdo.address = stream.data.pdo := intact.address
  have other := intact.committed run
  have number' : (Published.data pdo).signalListId = stream.data.signalListId := number
  rw [number'] at other
  rw [committed.unique few other] at loaded
  obtain ⟨p, value, bytes⟩ := loaded.reads (run.follows.bytes_eq intact.published)
    intact.body (by rw [buffer, address]) carried
  obtain ⟨-, -, -, -, sec, nsec, -⟩ := intact.header
  refine ⟨pdo, intact.published, carried, ?_, ?_⟩
  · simp only [getPersistentSignalValue, getPersistentValue, if_pos active, value]
    exact congrArg some bytes
  · simp only [getPersistentSignalValue, getPersistentValue, if_pos active, listed.time phase]
    rw [← address]
    exact congrArg some (Prod.ext sec nsec)

end Stream

/-- As long as its steps meet the condition, all values are what a Data PDO carries. -/
theorem NrtThread.values_sampled {S : Setup} {persist : Nat} {persistentSet : List Nat}
    {nrt : NrtThread} (run : NrtRun S persist persistentSet (Supplied S) nrt) :
    ∀ value ∈ nrt.saved, value.result = true → value.Sampled S := by
  have both : Stream.Listed S nrt.stream ∧ ∀ value ∈ nrt.saved, value.Sampled S := by
    induction run with
    | start => exact ⟨.init, by simp [init]⟩
    | @step before after action earlier supplied done ih =>
        obtain ⟨listed, sampled⟩ := ih
        have task := (NrtRun.streamRun earlier).taskRun
        cases action with
        | stream action =>
            obtain ⟨here, saved⟩ := step_stream done
            rw [saved]
            exact ⟨listed.step task supplied here, sampled⟩
        | getPersistentSignalValue s =>
            obtain ⟨phase, same, saved⟩ := step_value done
            rw [same, saved]
            refine ⟨listed, ?_⟩
            intro value member
            rcases List.mem_append.mp member with old | fresh
            · exact sampled value old
            · obtain rfl := List.mem_singleton.mp fresh
              obtain ⟨active, few, buffer, pdo, intact, number, carried⟩ := supplied
              exact listed.sampled task phase active few buffer intact number carried
  exact fun value member _ => both.2 value member

namespace NrtThread

/-- `Supplied` as a check. -/
def supplies (S : Setup) (nrt : NrtThread) : NrtAction → Bool
  | .stream .turn =>
      let stream := nrt.stream
      match stream.phase with
      | .receiving =>
          (stream.data.receive S stream.subscriptionId stream.memory).1 ≠ .list ||
            (Task.pdos stream.events).any fun pdo =>
              !pdo.isData && decide (pdo.address = Pdo.next stream.memory stream.data.pdo ∧
                pdo.Header stream.memory ∧ pdo.Body stream.memory)
      | _ => true
  | .stream _ => true
  | .getPersistentSignalValue s =>
      let stream := nrt.stream
      decide (s ∈ stream.informed ∧ (Task.published stream.events).length < 2 ^ 32 ∧
        stream.data.signalBuffer = some (stream.data.pdo + 72)) &&
        (Task.pdos stream.events).any fun pdo =>
          pdo.isData && decide ((pdo.address = stream.data.pdo ∧
            pdo.Header stream.memory ∧ pdo.Body stream.memory) ∧
            pdo.signalListId = stream.data.signalListId ∧ s ∈ pdo.list)

theorem supplied_of_check {S : Setup} (nrt : NrtThread) (action : NrtAction)
    (check : supplies S nrt action = true) : Supplied S nrt action := by
  cases action with
  | stream action =>
      cases action with
      | turn =>
          intro receiving loads
          simp only [supplies, receiving, loads, ne_eq, not_true_eq_false, decide_false,
            Bool.false_or, List.any_eq_true, Bool.and_eq_true, decide_eq_true_eq] at check
          obtain ⟨pdo, published, isSignals, address, header, body⟩ := check
          cases pdo with
          | signals pdo => exact ⟨pdo, published, address, header, body⟩
          | data pdo => cases isSignals
      | task action => trivial
      | construct => trivial
      | rxPdo => trivial
      | subscribe s => trivial
      | unsubscribe s => trivial
  | getPersistentSignalValue s =>
      simp only [supplies, List.any_eq_true, Bool.and_eq_true, decide_eq_true_eq] at check
      obtain ⟨⟨active, few, buffer⟩, pdo, published, isData, intact, number, carried⟩ := check
      obtain ⟨address, header, body⟩ := intact
      refine ⟨active, few, buffer, ?_⟩
      cases pdo with
      | signals pdo => cases isData
      | data pdo => exact ⟨pdo, ⟨published, address, header, body⟩, number, carried⟩

/-- Take these actions one after the other, from the start. -/
def perform (S : Setup) (persist : Nat) (persistentSet : List Nat)
    (check : NrtThread → NrtAction → Bool) (actions : List NrtAction) : NrtThread :=
  (Transition.perform (step S persist) check actions (init S persistentSet)).getD
    (init S persistentSet)

/-- `nrt_init` for one signal, after the first turn of the real-time process. -/
def coupleActions : List NrtAction :=
  [.stream (.task (.rt_update none)), .stream (.task (.copyData fun _ _ => 9)),
    .stream .construct, .stream .turn, .stream .turn, .stream .turn, .stream (.subscribe 0)]

/-- A further turn of the real-time process, all it has published, and the value. -/
def valueActions : List NrtAction :=
  [.stream (.task (.rt_update (some ⟨5, 7⟩))), .stream (.task .processSignalList),
    .stream (.task .calculateCopyList), .stream (.task (.copyData fun _ _ => 9)),
    .stream .rxPdo, .stream .turn, .stream .turn, .stream .rxPdo, .stream .turn,
    .getPersistentSignalValue 0]

theorem values_sampled_one :
    (perform oneSignal 1 [0] (supplies oneSignal) (coupleActions ++ valueActions)).saved.map
        (fun value => (value.result, value.buf, value.time)) =
      [(true, some [9, 9, 9, 9, 9, 9, 9, 9], some (5, 7))] ∧
    ∀ value ∈ (perform oneSignal 1 [0] (supplies oneSignal)
        (coupleActions ++ valueActions)).saved,
      value.result = true → value.Sampled oneSignal := by
  have done : Transition.perform (step oneSignal 1) (supplies oneSignal)
      (coupleActions ++ valueActions) (init oneSignal [0]) =
      some (perform oneSignal 1 [0] (supplies oneSignal) (coupleActions ++ valueActions)) := by
    rfl
  exact ⟨by decide,
    values_sampled (Transition.Reaches.perform supplied_of_check .start done)⟩

/-- `nrt_update` comes before the real-time process has seen the signal: the value is
reported, and neither `buf` nor the time was written. -/
theorem value_unwritten : ∃ nrt value, NrtRun oneSignal 1 [0] Transition.anyStep nrt ∧
    value ∈ nrt.saved ∧ value.result = true ∧ value.buf = none ∧ value.time = none ∧
    ¬value.Sampled oneSignal := by
  let actions := coupleActions ++
    [.stream .rxPdo, .stream .turn, .getPersistentSignalValue 0]
  let nrt := perform oneSignal 1 [0] (fun _ _ => true) actions
  have done : Transition.perform (step oneSignal 1) (fun _ _ => true) actions
      (init oneSignal [0]) = some nrt := by rfl
  have returned : nrt.saved.map (fun value => (value.result, value.buf, value.time)) =
      [(true, none, none)] := by
    decide
  obtain ⟨value, once, same⟩ := List.map_eq_singleton_iff.mp returned
  simp only [Prod.mk.injEq] at same
  obtain ⟨result, buf, time⟩ := same
  refine ⟨nrt, value, Transition.Reaches.perform (fun _ _ _ => trivial) .start done, ?_,
    result, buf, time, ?_⟩
  · rw [once]
    exact List.mem_singleton_self value
  · rintro ⟨pdo, -, -, written, -⟩
    rw [buf] at written
    cases written

end NrtThread

end PdServ
