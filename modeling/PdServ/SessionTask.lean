import PdServ.SessionDelivery
import PdServ.SubscriptionRuns

/-!
`MsrProto::SubscriptionManager` as the `PdServ::SessionTask` that it is: its
`SessionTaskData` follows the PDOs of the task, calls `newSignal` and hands the
values on. The steps are those of the session's thread, between which the other
threads and the real-time process go on: a turn of `SessionTaskData`, one pass of
`rxPdo` over the active signals, one call of a command. `clear` gives up its
signals one at a time.
-/

namespace PdServ

namespace Stream

variable (S : Setup) (own : Nat)

/-- The signals `newSignal` is called for in a turn, in this order. -/
def told (stream : Stream) : List Nat :=
  match stream.phase with
  | .checking _ signals =>
      if Pdo.type stream.memory stream.data.pdo = Pdo.Data ∧
          Pdo.signalListId stream.memory stream.data.pdo = stream.data.signalListId then
        (stream.data.synchronise S stream.subscriptionId stream.memory signals).2
      else []
  | .receiving => (stream.data.receive S stream.subscriptionId stream.memory).2.2
  | _ => []

/-- Whether `subscribe` calls `newSignal` before it returns. -/
def activates (stream : Stream) (s : Nat) : Bool :=
  if s ∈ stream.data.activeSet then true
  else if s ∈ stream.data.subscribedSet then false
  else
    match stream.task.subscribe S s own true with
    | some (subscribed, _, _) => subscribed && decide (s ∈ stream.data.transferredSet)
    | none => false

/-- The time `rxPdo` reported and the values of the signals, read now. As long as it has
not reported any, `taskTime` points to `dummyTime`, which is zero. `unknown` is read in
place of the values of the task's time and statistics, and where no value was received
so far. -/
def tick (stream : Stream) (unknown : Nat → Nat → Byte) : Tick where
  tv_sec := (stream.time.map fun p => stream.memory.word p 8).getD 0
  tv_nsec := (stream.time.map fun p => stream.memory.word (p + 8) 8).getD 0
  getValue := fun s i =>
    match if s < S.signals.length then stream.data.getValue s else none with
    | some q => stream.memory (q + i)
    | none => unknown s i

end Stream

/-- Where the thread is in the functions of the manager. -/
inductive ManagerPhase where
  /-- in the constructor, which calls `rxPdo` of the task once -/
  | constructing
  | idle
  /-- `rxPdo` has called the one of the task -/
  | rxPdo (quiet : Bool)
  /-- which has returned true -/
  | taking (quiet : Bool)
  /-- `clear`, in the destructor too, with the signals still to be given up -/
  | clearing (signals : List Nat) (last : Bool)
  | deleted
deriving DecidableEq

structure SessionTask where
  stream : Stream
  manager : SubscriptionManager := {}
  phase : ManagerPhase := .constructing
  /-- The `<data>` elements so far. -/
  output : List DataElement := []

inductive SessionTaskAction where
  | task (action : Task.Action)
  | construct
  /-- `SessionTaskData` goes on in `init` or `rxPdo` -/
  | turn
  | rxPdo (quiet : Bool)
  | take (unknown : Nat → Nat → Byte)
  | subscribe (channel group decimation blocksize : Nat) (base64 : Bool)
      (precision address : Nat)
  | unsubscribe (channel group : Nat)
  /-- `last`: in the destructor -/
  | clear (last : Bool)
  | giveUp
  | sync

namespace SessionTask

variable (S : Setup) (channels : Nat → Channel) (own : Nat)

/-- `SessionTaskData` takes a step. -/
def follow (t : SessionTask) (action : StreamAction) : Option SessionTask :=
  (t.stream.step S own action).map fun stream => { t with stream := stream }

/-- Back in the manager where `rxPdo` of the task has returned. -/
def returned (t : SessionTask) : SessionTask :=
  match t.phase, t.stream.phase with
  | .constructing, .ready (some _) => { t with phase := .idle }
  | .rxPdo quiet, .ready (some true) => { t with phase := .taking quiet }
  | .rxPdo _, .ready (some false) => { t with phase := .idle }
  | _, _ => t

def newSignals (m : SubscriptionManager) (signals : List Nat) : Option SubscriptionManager :=
  signals.foldlM SubscriptionManager.newSignal m

/-- The signals `clear` gives up. It calls `Signal::unsubscribe` once for each channel
of a signal, and all but the first call find nothing to do. -/
def cleared (m : SubscriptionManager) : List Nat := m.signalSubscriptionMap.keys

/-- One step; none where it is not the turn of this action. -/
def step (t : SessionTask) : SessionTaskAction → Option SessionTask
  | .task action => t.follow S own (.task action)
  | .construct => t.follow S own .construct
  | .turn => do
      let manager ← newSignals t.manager (t.stream.told S)
      let next ← t.follow S own .turn
      some (returned { next with manager := manager })
  | .rxPdo quiet =>
      match t.phase with
      | .constructing => t.follow S own .rxPdo
      | .idle => do
          let next ← t.follow S own .rxPdo
          some { next with phase := .rxPdo quiet }
      | _ => none
  | .take unknown =>
      match t.phase with
      | .taking quiet => do
          let (manager, printed) ← t.manager.rxPdo channels quiet (t.stream.tick S unknown)
          let next ← t.follow S own .rxPdo
          some { next with
            manager := manager
            output := t.output ++ printed
            phase := .rxPdo quiet }
      | _ => none
  | .subscribe channel group decimation blocksize base64 precision address =>
      match t.phase with
      | .idle =>
          let signal := (channels channel).signal
          if (t.manager.heap address).isSome then none
          else if signal < S.signals.length then do
            let manager ← t.manager.subscribe channels channel group decimation blocksize
              base64 precision address (t.stream.activates S own signal)
            let next ← t.follow S own (.subscribe signal)
            some { next with manager := manager }
          else do
            -- `TimeSignal` and `StatSignal` are always there
            let manager ← t.manager.subscribe channels channel group decimation blocksize
              base64 precision address true
            some { t with manager := manager }
      | _ => none
  | .unsubscribe channel group =>
      match t.phase with
      | .idle => do
          let signal := (channels channel).signal
          let manager ← t.manager.unsubscribe channels channel group
          if signal < S.signals.length ∧ t.manager.signalSubscriptionMap.contains signal ∧
              ¬manager.signalSubscriptionMap.contains signal then do
            let next ← t.follow S own (.unsubscribe signal)
            some { next with manager := manager }
          else some { t with manager := manager }
      | _ => none
  | .clear last =>
      match t.phase with
      | .idle => do
          let manager ← t.manager.clear
          some { t with manager := manager, phase := .clearing (cleared t.manager) last }
      | _ => none
  | .giveUp =>
      match t.phase with
      | .clearing (signal :: rest) last =>
          if signal < S.signals.length then do
            let next ← t.follow S own (.unsubscribe signal)
            some { next with phase := .clearing rest last }
          else some { t with phase := .clearing rest last }
      | .clearing [] false => some { t with phase := .idle }
      | .clearing [] true =>
          -- `~SessionTaskData` would erase from the set it goes through
          if t.stream.data.subscribedSet = ∅ then some { t with phase := .deleted } else none
      | _ => none
  | .sync =>
      match t.phase with
      | .idle => do
          let manager ← t.manager.sync
          some { t with manager := manager }
      | _ => none

/-- All that a step can do. -/
inductive Steps (t : SessionTask) : SessionTaskAction → SessionTask → Prop
  | task {action stream} : t.stream.step S own (.task action) = some stream →
      Steps t (.task action) { t with stream := stream }
  | construct {stream} : t.stream.step S own .construct = some stream →
      Steps t .construct { t with stream := stream }
  | turn {stream manager} : t.stream.step S own .turn = some stream →
      newSignals t.manager (t.stream.told S) = some manager →
      Steps t .turn (returned { t with stream := stream, manager := manager })
  | first {quiet stream} : t.phase = .constructing →
      t.stream.step S own .rxPdo = some stream →
      Steps t (.rxPdo quiet) { t with stream := stream }
  | rxPdo {quiet stream} : t.phase = .idle → t.stream.step S own .rxPdo = some stream →
      Steps t (.rxPdo quiet) { t with stream := stream, phase := .rxPdo quiet }
  | take {quiet unknown manager printed stream} : t.phase = .taking quiet →
      t.manager.rxPdo channels quiet (t.stream.tick S unknown) = some (manager, printed) →
      t.stream.step S own .rxPdo = some stream →
      Steps t (.take unknown)
        { t with
          stream := stream
          manager := manager
          output := t.output ++ printed
          phase := .rxPdo quiet }
  | subscribe {channel group decimation blocksize base64 precision address manager stream} :
      t.phase = .idle → t.manager.heap address = none →
      (channels channel).signal < S.signals.length →
      t.manager.subscribe channels channel group decimation blocksize base64 precision address
        (t.stream.activates S own (channels channel).signal) = some manager →
      t.stream.step S own (.subscribe (channels channel).signal) = some stream →
      Steps t (.subscribe channel group decimation blocksize base64 precision address)
        { t with stream := stream, manager := manager }
  | present {channel group decimation blocksize base64 precision address manager} :
      t.phase = .idle → t.manager.heap address = none →
      ¬(channels channel).signal < S.signals.length →
      t.manager.subscribe channels channel group decimation blocksize base64 precision address
        true = some manager →
      Steps t (.subscribe channel group decimation blocksize base64 precision address)
        { t with manager := manager }
  | unsubscribe {channel group manager stream} : t.phase = .idle →
      t.manager.unsubscribe channels channel group = some manager →
      (channels channel).signal < S.signals.length →
      (channels channel).signal ∈ t.manager.signalSubscriptionMap →
      (channels channel).signal ∉ manager.signalSubscriptionMap →
      t.stream.step S own (.unsubscribe (channels channel).signal) = some stream →
      Steps t (.unsubscribe channel group) { t with stream := stream, manager := manager }
  | needed {channel group manager} : t.phase = .idle →
      t.manager.unsubscribe channels channel group = some manager →
      ((channels channel).signal < S.signals.length →
        (channels channel).signal ∈ t.manager.signalSubscriptionMap →
        (channels channel).signal ∈ manager.signalSubscriptionMap) →
      Steps t (.unsubscribe channel group) { t with manager := manager }
  | clear {last manager} : t.phase = .idle → t.manager.clear = some manager →
      Steps t (.clear last)
        { t with manager := manager, phase := .clearing (cleared t.manager) last }
  | giveUp {signal rest last stream} : t.phase = .clearing (signal :: rest) last →
      signal < S.signals.length → t.stream.step S own (.unsubscribe signal) = some stream →
      Steps t .giveUp { t with stream := stream, phase := .clearing rest last }
  | skip {signal rest last} : t.phase = .clearing (signal :: rest) last →
      ¬signal < S.signals.length → Steps t .giveUp { t with phase := .clearing rest last }
  | cleared : t.phase = .clearing [] false → Steps t .giveUp { t with phase := .idle }
  | delete : t.phase = .clearing [] true → t.stream.data.subscribedSet = ∅ →
      Steps t .giveUp { t with phase := .deleted }
  | sync {manager} : t.phase = .idle → t.manager.sync = some manager →
      Steps t .sync { t with manager := manager }

variable {S channels own} {t after : SessionTask}

theorem steps {action : SessionTaskAction} (done : t.step S channels own action = some after) :
    Steps S channels own t action after := by
  cases action with
  | task action =>
      obtain ⟨stream, moved, same⟩ := Option.map_eq_some_iff.mp done
      cases same
      exact .task moved
  | construct =>
      obtain ⟨stream, moved, same⟩ := Option.map_eq_some_iff.mp done
      cases same
      exact .construct moved
  | turn =>
      obtain ⟨manager, told, done⟩ := Option.bind_eq_some_iff.mp done
      obtain ⟨next, moved, same⟩ := Option.bind_eq_some_iff.mp done
      obtain ⟨stream, went, rfl⟩ := Option.map_eq_some_iff.mp moved
      cases same
      exact .turn went told
  | rxPdo quiet =>
      simp only [step] at done
      split at done
      · next phase =>
        obtain ⟨stream, moved, same⟩ := Option.map_eq_some_iff.mp done
        cases same
        exact .first phase moved
      · next phase =>
        obtain ⟨next, moved, same⟩ := Option.bind_eq_some_iff.mp done
        obtain ⟨stream, went, rfl⟩ := Option.map_eq_some_iff.mp moved
        cases same
        exact .rxPdo phase went
      · cases done
  | take unknown =>
      simp only [step] at done
      split at done
      · next phase =>
        obtain ⟨⟨manager, printed⟩, taken, done⟩ := Option.bind_eq_some_iff.mp done
        obtain ⟨next, moved, same⟩ := Option.bind_eq_some_iff.mp done
        obtain ⟨stream, went, rfl⟩ := Option.map_eq_some_iff.mp moved
        cases same
        exact .take phase taken went
      · cases done
  | subscribe channel group decimation blocksize base64 precision address =>
      simp only [step] at done
      split at done
      · next phase =>
        split at done
        · cases done
        · next free =>
          have free := Option.not_isSome_iff_eq_none.mp free
          split at done
          · next known =>
            obtain ⟨manager, made, done⟩ := Option.bind_eq_some_iff.mp done
            obtain ⟨next, moved, same⟩ := Option.bind_eq_some_iff.mp done
            obtain ⟨stream, went, rfl⟩ := Option.map_eq_some_iff.mp moved
            cases same
            exact .subscribe phase free known made went
          · next other =>
            obtain ⟨manager, made, same⟩ := Option.bind_eq_some_iff.mp done
            cases same
            exact .present phase free other made
      · cases done
  | unsubscribe channel group =>
      simp only [step] at done
      split at done
      · next phase =>
        obtain ⟨manager, made, done⟩ := Option.bind_eq_some_iff.mp done
        split at done
        · next gone =>
          obtain ⟨known, before, behind⟩ := gone
          obtain ⟨next, moved, same⟩ := Option.bind_eq_some_iff.mp done
          obtain ⟨stream, went, rfl⟩ := Option.map_eq_some_iff.mp moved
          cases same
          refine .unsubscribe phase made known (Std.TreeMap.mem_iff_contains.mpr before) ?_ went
          exact fun there => behind (Std.TreeMap.mem_iff_contains.mp there)
        · next still =>
          cases done
          refine .needed phase made fun known before => ?_
          by_contra gone
          refine still ⟨known, Std.TreeMap.mem_iff_contains.mp before, fun there => gone ?_⟩
          exact Std.TreeMap.mem_iff_contains.mpr there
      · cases done
  | clear last =>
      simp only [step] at done
      split at done
      · next phase =>
        obtain ⟨manager, made, same⟩ := Option.bind_eq_some_iff.mp done
        cases same
        exact .clear phase made
      · cases done
  | giveUp =>
      simp only [step] at done
      split at done
      · next phase =>
        split at done
        · next known =>
          obtain ⟨next, moved, same⟩ := Option.bind_eq_some_iff.mp done
          obtain ⟨stream, went, rfl⟩ := Option.map_eq_some_iff.mp moved
          cases same
          exact .giveUp phase known went
        · next other =>
          cases done
          exact .skip phase other
      · next phase =>
        cases done
        exact .cleared phase
      · next phase =>
        split at done
        · next none_left =>
          cases done
          exact .delete phase none_left
        · cases done
      · cases done
  | sync =>
      simp only [step] at done
      split at done
      · next phase =>
        obtain ⟨manager, made, same⟩ := Option.bind_eq_some_iff.mp done
        cases same
        exact .sync phase made
      · cases done

@[simp] theorem returned_manager (t : SessionTask) : t.returned.manager = t.manager := by
  unfold returned
  split <;> rfl

@[simp] theorem returned_output (t : SessionTask) : t.returned.output = t.output := by
  unfold returned
  split <;> rfl

@[simp] theorem returned_stream (t : SessionTask) : t.returned.stream = t.stream := by
  unfold returned
  split <;> rfl

/-! ### `SessionTaskData` on its own -/

/-- What `SessionTaskData` does in an action. -/
def Runs (channels : Nat → Channel) : SessionTaskAction → StreamAction → Prop
  | .task taken, next => next = .task taken
  | .construct, next => next = .construct
  | .turn, next => next = .turn
  | .rxPdo _, next | .take _, next => next = .rxPdo
  | .subscribe channel .., next => next = .subscribe (channels channel).signal
  | .unsubscribe .., next | .giveUp, next => ∃ s, next = .unsubscribe s
  | .clear _, _ | .sync, _ => False

theorem Steps.stream {action : SessionTaskAction} (steps : Steps S channels own t action after) :
    after.stream = t.stream ∨
      ∃ next, Runs channels action next ∧ t.stream.step S own next = some after.stream := by
  cases steps with
  | task moved | construct moved | first phase moved | rxPdo phase moved
  | take phase taken moved | subscribe phase free known made moved =>
      exact .inr ⟨_, rfl, moved⟩
  | turn moved told =>
      rw [returned_stream]
      exact .inr ⟨_, rfl, moved⟩
  | unsubscribe phase made known before behind moved | giveUp phase known moved =>
      exact .inr ⟨_, ⟨_, rfl⟩, moved⟩
  | present | needed | clear | skip | cleared | delete | sync => exact .inl rfl

/-! ### The manager on its own -/

theorem run_newSignals {actions : List SubscriptionManager.Action} {m result : SubscriptionManager}
    {out : List DataElement} {signals : List Nat} (run : ManagerRun channels actions m out)
    (told : newSignals m signals = some result) :
    ManagerRun channels (actions ++ signals.map .newSignal) result out := by
  induction signals generalizing actions m with
  | nil =>
      cases told
      rw [List.map_nil, List.append_nil]
      exact run
  | cons signal rest ih =>
      obtain ⟨middle, first, later⟩ := Option.bind_eq_some_iff.mp told
      have next : ManagerRun channels (actions ++ [.newSignal signal]) middle (out ++ []) := by
        apply ManagerRun.step (.newSignal signal) run trivial
        rw [SubscriptionManager.step, first]
        rfl
      rw [List.append_nil] at next
      have all := ih next later
      rwa [List.append_assoc] at all

theorem run_one {actions : List SubscriptionManager.Action} {m result : SubscriptionManager}
    {out : List DataElement} (action : SubscriptionManager.Action)
    (run : ManagerRun channels actions m out) (allowed : m.Allowed action)
    (done : m.step channels action = some (result, [])) :
    ManagerRun channels (actions ++ [action]) result out := by
  have next := ManagerRun.step action run allowed done
  rwa [List.append_nil] at next

/-- What a step does to the manager are actions of the manager. -/
theorem Steps.managed {action : SessionTaskAction} (steps : Steps S channels own t action after)
    (managed : ∃ actions, ManagerRun channels actions t.manager t.output) :
    ∃ actions, ManagerRun channels actions after.manager after.output := by
  obtain ⟨actions, run⟩ := managed
  cases steps with
  | task | construct | first | rxPdo | giveUp | skip | cleared | delete => exact ⟨actions, run⟩
  | turn moved told =>
      rw [returned_manager, returned_output]
      exact ⟨_, run_newSignals run told⟩
  | take phase taken => exact ⟨_, .step (.rxPdo ..) run trivial taken⟩
  | subscribe phase free known made | present phase free known made =>
      exact ⟨_, run_one (.subscribe ..) run free (congrArg (Option.map (·, [])) made)⟩
  | unsubscribe phase made | needed phase made =>
      exact ⟨_, run_one (.unsubscribe ..) run trivial
        (congrArg (Option.map (·, [])) made)⟩
  | clear phase made =>
      exact ⟨_, run_one .clear run trivial (congrArg (Option.map (·, [])) made)⟩
  | sync phase made =>
      exact ⟨_, run_one .sync run trivial (congrArg (Option.map (·, [])) made)⟩

end SessionTask

end PdServ
