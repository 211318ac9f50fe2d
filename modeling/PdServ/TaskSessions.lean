import PdServ.SessionTask
import PdServ.SubscriptionFocus
import PdServ.StandingOrders
import PdServ.SessionActive

/-!
A task with all its sessions: the real-time process, clients that come and go, and
the session of the task itself for its persistent signals. A session is known by the
address of its `SessionTaskData`, which a later session may have again. What the
real-time process copies is what some session wants, each signal once.
-/

namespace PdServ

open Std

structure TaskSessions where
  task : Task
  events : List TaskEvent := []
  sessions : Nat → Option SessionTask := fun _ => none
  /-- `Task::persist`, whose address is 0 here, is subscribed to these. -/
  persistent : Finset Nat := ∅

inductive TaskSessionsAction where
  | realtime (action : Task.Action)
  /-- `nrt_init` subscribes a signal of `persistentSet` -/
  | persist (signal : Nat)
  | connect (id : Nat)
  | session (id : Nat) (action : SessionTaskAction)

namespace TaskSessions

variable (S : Setup) (channels : Nat → Channel)

def start : TaskSessions where
  task := Task.init S

/-- A session with the task as it is now. -/
def view (st : TaskSessions) (t : SessionTask) : SessionTask :=
  { t with stream := { t.stream with task := st.task, events := st.events } }

/-- A session has taken a step; it is gone where it was deleted. -/
def put (st : TaskSessions) (id : Nat) (t : SessionTask) : TaskSessions :=
  { st with
    task := t.stream.task
    events := t.stream.events
    sessions := Function.update st.sessions id (if t.phase = .deleted then none else some t) }

/-- One step; none where it is not the turn of this action. -/
def step (st : TaskSessions) : TaskSessionsAction → Option TaskSessions
  | .realtime (.subscribe ..) => none
  | .realtime action =>
      (st.task.step S action).map fun (task, new) =>
        { st with task := task, events := st.events ++ new }
  | .persist signal =>
      if signal ∈ st.persistent then none
      else
        (st.task.step S (.subscribe signal 0 true)).map fun (task, new) =>
          { st with
            task := task
            events := st.events ++ new
            persistent := insert signal st.persistent }
  | .connect id =>
      if id = 0 ∨ (st.sessions id).isSome then none
      else some { st with
        sessions := Function.update st.sessions id (some { stream := Stream.init S }) }
  | .session _ (.task _) => none
  | .session id action => do
      let t ← st.sessions id
      let after ← (st.view t).step S channels id action
      some (st.put id after)

end TaskSessions

/-- The states a task and its sessions reach. -/
abbrev TaskSessionsRun (S : Setup) (channels : Nat → Channel) : TaskSessions → Prop :=
  Transition.Reaches (TaskSessions.step S channels) Transition.anyStep (TaskSessions.start S)

/-! ### What a session wants -/

/-- The client has an order for the signal, or it is still to be given up. -/
def SessionTask.Wants (t : SessionTask) (s : Nat) : Prop :=
  s ∈ t.manager.signalSubscriptionMap ∨
    ∃ signals last, t.phase = .clearing signals last ∧ s ∈ signals

def TaskSessions.Wanted (st : TaskSessions) (s : Nat) : Prop :=
  s ∈ st.persistent ∨ ∃ id t, st.sessions id = some t ∧ t.Wants s

/-! ### The sessions of a signal -/

section Registry

variable {S : Setup}

theorem Task.sessions_subscribe {task after : Task} {new : List TaskEvent} {cs st : Nat}
    {insert : Bool} (done : task.step S (.subscribe cs st insert) = some (after, new))
    (s id : Nat) :
    id ∈ after.nrt.sessions s ↔
      if s = cs ∧ id = st then insert = true else id ∈ task.nrt.sessions s := by
  rcases Task.step_sessions done with ⟨cs', st', insert', same, sessions, -⟩ | ⟨-, -, other⟩
  · cases same
    rw [sessions]
    by_cases here : s = cs
    · subst here
      cases insert <;> by_cases mine : id = st <;> simp [Task.changeSessions, mine]
    · simp [Task.changeSessions, here]
  · exact absurd rfl (other cs st insert)

/-- What an action does to the subscriptions of a session. -/
def StreamAction.subscribing (signals : Finset Nat) : StreamAction → Finset Nat
  | .subscribe s => insert s signals
  | .unsubscribe s => signals.erase s
  | _ => signals

namespace Stream

variable {own : Nat} {stream after : Stream} {action : StreamAction}

theorem loadSignalList_sets (subscriptionId : Nat → Nat) (data : SessionTaskData)
    (sp : List Nat) (id : Nat) :
    let after := (data.loadSignalList S subscriptionId sp id).1
    after.subscribedSet = data.subscribedSet ∧
      (data.activeSet ⊆ data.subscribedSet → after.activeSet ⊆ after.subscribedSet) := by
  have loads : SessionTaskData.Loads S subscriptionId _ sp _ := SessionTaskData.loads sp
    ({ data with
      signalPosition := fun _ => 4294967295
      transferredSet := ∅
      signalListId := id
      pdoSize := 0 }, [])
  refine ⟨loads.subscribed, fun within s member => ?_⟩
  have member := (loads.active s).mp member
  rw [SessionTaskData.loadSignalList, loads.subscribed]
  rcases member with old | ⟨-, new, -⟩
  · exact within old
  · exact new

theorem receive_sets {subscriptionId : Nat → Nat} {m : Memory} {data after : SessionTaskData}
    {received : SessionTaskData.Received} {told : List Nat}
    (read : data.receive S subscriptionId m = (received, after, told)) :
    after.subscribedSet = data.subscribedSet ∧
      (data.activeSet ⊆ data.subscribedSet → after.activeSet ⊆ after.subscribedSet) := by
  by_cases list : received = .list
  · subst list
    unfold SessionTaskData.receive at read
    dsimp only at read
    repeat' split at read
    all_goals first
      | (cases congrArg Prod.fst read; done)
      | skip
    have same := congrArg (fun r => r.2.1) read
    dsimp only at same
    rw [← same]
    exact loadSignalList_sets ..
  · have keeps := SessionTaskData.receive_keeps read list
    refine ⟨keeps.subscribed, fun within => ?_⟩
    rw [keeps.active, keeps.subscribed]
    exact within

/-- What a step does to the sets of the session. -/
theorem Steps.sets (steps : Steps S own stream action after)
    (within : stream.data.activeSet ⊆ stream.data.subscribedSet) :
    after.data.subscribedSet = action.subscribing stream.data.subscribedSet ∧
      after.data.activeSet ⊆ after.data.subscribedSet := by
  cases steps with
  | task | construct | rxPdo | catchUp | list | other | older | next => exact ⟨rfl, within⟩
  | @found caller signals phase type id =>
      have sets := loadSignalList_sets (S := S) stream.subscriptionId
        { stream.data with seqNo := Pdo.seqNo stream.memory stream.data.pdo } signals
        stream.data.signalListId
      cases caller <;> exact ⟨sets.1, sets.2 within⟩
  | ended phase read | data phase read | signals phase read | outOfSync phase read =>
      obtain ⟨subscribed, active⟩ := receive_sets read
      exact ⟨subscribed, active within⟩
  | active phase active =>
      exact ⟨(Finset.insert_eq_of_mem (within active)).symm, within⟩
  | subscribed phase subscribed =>
      exact ⟨(Finset.insert_eq_of_mem subscribed).symm, within⟩
  | activate => exact ⟨rfl, Finset.insert_subset_insert _ within⟩
  | subscribe => exact ⟨rfl, within.trans (Finset.subset_insert _ _)⟩
  | unsubscribe => exact ⟨rfl, Finset.erase_subset_erase _ within⟩
  | unknown phase fresh => exact ⟨(Finset.erase_eq_of_notMem fresh).symm, within⟩

/-- What a step of the session itself does to the sessions of the signals. -/
theorem Steps.registry (steps : Steps S own stream action after)
    (within : stream.data.activeSet ⊆ stream.data.subscribedSet)
    (mine : ∀ taken, action ≠ .task taken)
    (registered : ∀ s, own ∈ stream.task.nrt.sessions s ↔ s ∈ stream.data.subscribedSet)
    (s id : Nat) :
    id ∈ after.task.nrt.sessions s ↔
      if id = own then s ∈ after.data.subscribedSet else id ∈ stream.task.nrt.sessions s := by
  have sets := (steps.sets within).1
  have same (task : after.task = stream.task)
      (unchanged : after.data.subscribedSet = stream.data.subscribedSet) :
      id ∈ after.task.nrt.sessions s ↔
        if id = own then s ∈ after.data.subscribedSet else id ∈ stream.task.nrt.sessions s := by
    rw [task, unchanged]
    split
    · next here =>
      subst here
      exact registered s
    · exact Iff.rfl
  cases steps with
  | task => exact absurd rfl (mine _)
  | construct | rxPdo | catchUp | list | other | older | next => exact same rfl rfl
  | @found caller => cases caller <;> exact same rfl sets
  | ended | data | signals | outOfSync => exact same rfl sets
  | active | subscribed | unknown => exact same rfl rfl
  | @activate cs _ _ _ _ _ taken | @subscribe cs _ _ _ _ _ _ taken =>
      refine (Task.sessions_subscribe taken s id).trans ?_
      by_cases me : id = own
      · subst me
        by_cases here : s = cs <;> simp [here, registered s, inform]
      · simp [me]
  | @unsubscribe cs _ _ _ _ _ taken =>
      refine (Task.sessions_subscribe taken s id).trans ?_
      by_cases me : id = own
      · subst me
        by_cases here : s = cs <;> simp [here, registered s]
      · simp [me]

end Stream

end Registry

/-! ### The table of a manager -/

namespace SubscriptionManager

variable {channels : Nat → Channel} {m after : SubscriptionManager}

theorem newSignals_frame {signals : List Nat}
    (told : SessionTask.newSignals m signals = some after) :
    after.heap = m.heap ∧ after.signalSubscriptionMap = m.signalSubscriptionMap := by
  induction signals generalizing m with
  | nil =>
      cases told
      exact ⟨rfl, rfl⟩
  | cons signal rest ih =>
      obtain ⟨middle, first, later⟩ := Option.bind_eq_some_iff.mp told
      obtain ⟨heap, registry⟩ := newSignal_frame first
      obtain ⟨heap', registry'⟩ := ih later
      exact ⟨heap'.trans heap, registry'.trans registry⟩

theorem mem_subscribe (tidy : m.Tidy) {channel group decimation blocksize precision address : Nat}
    {base64 activates : Bool}
    (made : m.subscribe channels channel group decimation blocksize base64 precision address
      activates = some after) (s : Nat) :
    s ∈ after.signalSubscriptionMap ↔
      s = (channels channel).signal ∨ s ∈ m.signalSubscriptionMap := by
  obtain ⟨middle, removed, created⟩ := Option.bind_eq_some_iff.mp made
  have kept : middle.signalSubscriptionMap = m.signalSubscriptionMap := by
    unfold removeOld at removed
    split at removed
    · exact (tidy.remove removed).2.1
    · cases removed
      rfl
  have put : after.signalSubscriptionMap =
      m.signalSubscriptionMap.assign (channels channel).signal channel group address := by
    rw [← kept]
    dsimp only at created
    split at created
    · exact (newSignal_frame created).2
    · cases created
      rfl
  rw [put, SignalSubscriptionMap.assign, TreeMap.mem_insert, Nat.compare_eq_eq, eq_comm]

theorem mem_unsubscribe (tidy : m.Tidy) {channel group : Nat}
    (made : m.unsubscribe channels channel group = some after) (s : Nat) :
    (s ∈ after.signalSubscriptionMap → s ∈ m.signalSubscriptionMap) ∧
      (s ∈ m.signalSubscriptionMap →
        s = (channels channel).signal ∨ s ∈ after.signalSubscriptionMap) := by
  unfold unsubscribe at made
  dsimp only at made
  split at made
  · cases made
    exact ⟨id, .inr⟩
  · next channelMap first =>
    split at made
    · cases made
      exact ⟨id, .inr⟩
    · next groups second =>
      split at made
      · cases made
        exact ⟨id, .inr⟩
      · obtain ⟨middle, removed, same⟩ := Option.bind_eq_some_iff.mp made
        obtain ⟨-, registry, -⟩ := tidy.remove removed
        cases same
        dsimp only
        rw [registry, SignalSubscriptionMap.mem_eraseFrom first]
        refine ⟨And.left, fun there => ?_⟩
        by_cases here : s = (channels channel).signal
        · exact .inl here
        · exact .inr ⟨there, fun same => here same.1⟩

theorem clear_registry (made : m.clear = some after) : after.signalSubscriptionMap = ∅ := by
  obtain ⟨state, -, same⟩ := Option.bind_eq_some_iff.mp made
  cases same
  rfl

theorem rxPdo_registry {quiet : Bool} {tick : Tick} {printed : List DataElement}
    (made : m.rxPdo channels quiet tick = some (after, printed)) :
    after.signalSubscriptionMap = m.signalSubscriptionMap := by
  unfold rxPdo at made
  split at made
  · cases made
    rfl
  · obtain ⟨state, -, same⟩ := Option.bind_eq_some_iff.mp made
    cases same
    rfl

/-- `clear` gives up exactly the signals of the table, each once. -/
theorem mem_cleared (m : SubscriptionManager) (s : Nat) :
    s ∈ SessionTask.cleared m ↔ s ∈ m.signalSubscriptionMap :=
  TreeMap.mem_keys

theorem nodup_cleared (m : SubscriptionManager) : (SessionTask.cleared m).Nodup :=
  TreeMap.nodup_keys

end SubscriptionManager

/-! ### One session -/

namespace SessionTask

variable {S : Setup} {channels : Nat → Channel} {own : Nat} {t after : SessionTask}
  {action : SessionTaskAction}

/-- What a session knows of its own subscriptions. -/
structure Kept (S : Setup) (channels : Nat → Channel) (t : SessionTask) : Prop where
  managed : ∃ actions, ManagerRun channels actions t.manager t.output
  active : t.stream.data.activeSet ⊆ t.stream.data.subscribedSet
  wants : ∀ s, s ∈ t.stream.data.subscribedSet ↔ s < S.signals.length ∧ t.Wants s
  cleared : ∀ signals last, t.phase = .clearing signals last →
    signals.Nodup ∧ ∀ s, s ∉ t.manager.signalSubscriptionMap
  deleted : t.phase = .deleted → t.stream.data.subscribedSet = ∅

theorem Kept.tidy (kept : Kept S channels t) : t.manager.Tidy := by
  obtain ⟨actions, run⟩ := kept.managed
  exact run.tidy

theorem Kept.new : Kept S channels { stream := Stream.init S } where
  managed := ⟨[], .start⟩
  active := Finset.Subset.refl _
  wants := by
    intro s
    simp [Wants, Stream.init]
  cleared := nofun
  deleted := nofun

theorem Kept.idle (kept : Kept S channels t) (phase : t.phase = .idle) (s : Nat) :
    s ∈ t.stream.data.subscribedSet ↔
      s < S.signals.length ∧ s ∈ t.manager.signalSubscriptionMap := by
  rw [kept.wants s, Wants]
  simp [phase]

theorem Kept.of_idle (managed : ∃ actions, ManagerRun channels actions t.manager t.output)
    (active : t.stream.data.activeSet ⊆ t.stream.data.subscribedSet) (phase : t.phase = .idle)
    (wants : ∀ s, s ∈ t.stream.data.subscribedSet ↔
      s < S.signals.length ∧ s ∈ t.manager.signalSubscriptionMap) : Kept S channels t where
  managed := managed
  active := active
  wants := by
    intro s
    rw [wants s, Wants]
    simp [phase]
  cleared := by
    intro signals last clearing
    cases phase.symm.trans clearing
  deleted := by
    intro gone
    cases phase.symm.trans gone

/-- Without an order left, a session wants the signals that it is still to give up. -/
theorem wants_clearing {signals : List Nat} {last : Bool} (phase : t.phase = .clearing signals last)
    (none_left : ∀ s, s ∉ t.manager.signalSubscriptionMap) (s : Nat) :
    t.Wants s ↔ s ∈ signals := by
  rw [Wants, phase]
  constructor
  · rintro (there | ⟨signals, last, here, member⟩)
    · exact absurd there (none_left s)
    · cases here
      exact member
  · intro member
    exact .inr ⟨signals, last, rfl, member⟩

theorem Kept.of_clearing {signals : List Nat} {last : Bool}
    (managed : ∃ actions, ManagerRun channels actions t.manager t.output)
    (active : t.stream.data.activeSet ⊆ t.stream.data.subscribedSet)
    (phase : t.phase = .clearing signals last) (nodup : signals.Nodup)
    (none_left : ∀ s, s ∉ t.manager.signalSubscriptionMap)
    (wants : ∀ s, s ∈ t.stream.data.subscribedSet ↔ s < S.signals.length ∧ s ∈ signals) :
    Kept S channels t where
  managed := managed
  active := active
  wants := by
    intro s
    rw [wants s, wants_clearing phase none_left]
  cleared := by
    intro others last clearing
    cases phase.symm.trans clearing
    exact ⟨nodup, none_left⟩
  deleted := by
    intro gone
    cases phase.symm.trans gone

theorem returned_clearing (t : SessionTask) (signals : List Nat) (last : Bool) :
    t.returned.phase = .clearing signals last ↔ t.phase = .clearing signals last := by
  unfold returned
  split <;> simp [*]

theorem returned_deleted (t : SessionTask) : t.returned.phase = .deleted ↔ t.phase = .deleted := by
  unfold returned
  split <;> simp [*]

/-- A step that changes neither the subscriptions nor the table. -/
theorem Kept.still (kept : Kept S channels t)
    (managed : ∃ actions, ManagerRun channels actions after.manager after.output)
    (subscribed : after.stream.data.subscribedSet = t.stream.data.subscribedSet)
    (active : after.stream.data.activeSet ⊆ after.stream.data.subscribedSet)
    (registry : after.manager.signalSubscriptionMap = t.manager.signalSubscriptionMap)
    (clearing : ∀ signals last,
      after.phase = .clearing signals last ↔ t.phase = .clearing signals last)
    (deleted : after.phase = .deleted → t.phase = .deleted) : Kept S channels after where
  managed := managed
  active := active
  wants := by
    intro s
    rw [subscribed, kept.wants s, Wants, Wants, registry]
    simp only [clearing]
  cleared := by
    intro signals last phase
    rw [registry]
    exact kept.cleared signals last ((clearing signals last).mp phase)
  deleted := by
    intro phase
    rw [subscribed]
    exact kept.deleted (deleted phase)

theorem Kept.step (kept : Kept S channels t) (steps : Steps S channels own t action after) :
    Kept S channels after := by
  have managed := steps.managed kept.managed
  have moves {next : StreamAction} {stream : Stream}
      (moved : t.stream.step S own next = some stream) :
      stream.data.subscribedSet = next.subscribing t.stream.data.subscribedSet ∧
        stream.data.activeSet ⊆ stream.data.subscribedSet :=
    (Stream.steps moved).sets kept.active
  -- what is subscribed while `clear` gives its signals up
  have clearing {signals : List Nat} {last : Bool} (phase : t.phase = .clearing signals last) :
      signals.Nodup ∧ (∀ s, s ∉ t.manager.signalSubscriptionMap) ∧
        ∀ s, s ∈ t.stream.data.subscribedSet ↔ s < S.signals.length ∧ s ∈ signals := by
    obtain ⟨nodup, none_left⟩ := kept.cleared _ _ phase
    refine ⟨nodup, none_left, fun s => ?_⟩
    rw [kept.wants s, wants_clearing phase none_left]
  cases steps with
  | task moved | construct moved | first phase moved =>
      obtain ⟨subscribed, active⟩ := moves moved
      exact kept.still managed subscribed active rfl (fun _ _ => .rfl) id
  | turn moved told =>
      obtain ⟨subscribed, active⟩ := moves moved
      apply kept.still managed
      · rw [returned_stream]
        exact subscribed
      · rw [returned_stream]
        exact active
      · rw [returned_manager]
        exact (SubscriptionManager.newSignals_frame told).2
      · exact returned_clearing _
      · exact (returned_deleted _).mp
  | rxPdo phase moved =>
      obtain ⟨subscribed, active⟩ := moves moved
      exact kept.still managed subscribed active rfl (by simp [phase]) nofun
  | take phase taken moved =>
      obtain ⟨subscribed, active⟩ := moves moved
      exact kept.still managed subscribed active (SubscriptionManager.rxPdo_registry taken)
        (by simp [phase]) nofun
  | subscribe phase free known made moved =>
      obtain ⟨subscribed, active⟩ := moves moved
      refine .of_idle managed active phase fun s => ?_
      rw [SubscriptionManager.mem_subscribe kept.tidy made, subscribed]
      simp only [StreamAction.subscribing, Finset.mem_insert, kept.idle phase]
      constructor
      · rintro (rfl | ⟨inside, there⟩)
        · exact ⟨known, .inl rfl⟩
        · exact ⟨inside, .inr there⟩
      · rintro ⟨inside, here | there⟩
        · exact .inl here
        · exact .inr ⟨inside, there⟩
  | present phase free other made =>
      refine .of_idle managed kept.active phase fun s => ?_
      rw [SubscriptionManager.mem_subscribe kept.tidy made, kept.idle phase]
      refine and_congr_right fun inside => ⟨.inr, fun wanted => wanted.resolve_left ?_⟩
      rintro rfl
      exact other inside
  | unsubscribe phase made known before behind moved =>
      obtain ⟨subscribed, active⟩ := moves moved
      refine .of_idle managed active phase fun s => ?_
      obtain ⟨fewer, others⟩ := SubscriptionManager.mem_unsubscribe kept.tidy made s
      rw [subscribed, StreamAction.subscribing, Finset.mem_erase, kept.idle phase]
      constructor
      · rintro ⟨apart, inside, there⟩
        exact ⟨inside, (others there).resolve_left apart⟩
      · rintro ⟨inside, there⟩
        refine ⟨?_, inside, fewer there⟩
        rintro rfl
        exact behind there
  | needed phase made still =>
      refine .of_idle managed kept.active phase fun s => ?_
      obtain ⟨fewer, others⟩ := SubscriptionManager.mem_unsubscribe kept.tidy made s
      rw [kept.idle phase]
      refine and_congr_right fun inside => ⟨fun there => ?_, fewer⟩
      rcases others there with rfl | left
      · exact still inside there
      · exact left
  | clear phase made =>
      have none_left := SubscriptionManager.clear_registry made
      refine .of_clearing managed kept.active rfl (SubscriptionManager.nodup_cleared _) ?_ ?_
      · intro s
        simp [none_left]
      · intro s
        rw [kept.idle phase, SubscriptionManager.mem_cleared]
  | @giveUp signal rest last stream phase known moved =>
      obtain ⟨subscribed, active⟩ := moves moved
      obtain ⟨nodup, none_left, before⟩ := clearing phase
      obtain ⟨once, nodup⟩ := List.nodup_cons.mp nodup
      refine .of_clearing managed active rfl nodup none_left fun s => ?_
      rw [subscribed, StreamAction.subscribing, Finset.mem_erase, before s, List.mem_cons]
      constructor
      · rintro ⟨apart, inside, member⟩
        exact ⟨inside, member.resolve_left apart⟩
      · rintro ⟨inside, member⟩
        refine ⟨?_, inside, .inr member⟩
        rintro rfl
        exact once member
  | @skip signal rest last phase other =>
      obtain ⟨nodup, none_left, before⟩ := clearing phase
      refine .of_clearing managed kept.active rfl (List.nodup_cons.mp nodup).2 none_left
        fun s => ?_
      -- the task has no such signal, so the session was not subscribed to it
      rw [before s, List.mem_cons]
      refine and_congr_right fun inside => ⟨fun member => member.resolve_left ?_, .inr⟩
      rintro rfl
      exact other inside
  | cleared phase =>
      obtain ⟨-, none_left, before⟩ := clearing phase
      refine .of_idle managed kept.active rfl fun s => ?_
      rw [before s]
      simp [none_left]
  | delete phase none_subscribed =>
      obtain ⟨-, none_left, before⟩ := clearing phase
      refine ⟨managed, kept.active, fun s => ?_, nofun, fun _ => none_subscribed⟩
      rw [before s, Wants]
      simp [none_left]
  | sync phase made =>
      refine .of_idle managed kept.active phase fun s => ?_
      rw [kept.idle phase, (SubscriptionManager.sync_orderAt made).2]

theorem Steps.registry (steps : Steps S channels own t action after)
    (within : t.stream.data.activeSet ⊆ t.stream.data.subscribedSet)
    (mine : ∀ taken, action ≠ .task taken)
    (registered : ∀ s,
      own ∈ t.stream.task.nrt.sessions s ↔ s ∈ t.stream.data.subscribedSet) (s id : Nat) :
    id ∈ after.stream.task.nrt.sessions s ↔
      if id = own then s ∈ after.stream.data.subscribedSet
      else id ∈ t.stream.task.nrt.sessions s := by
  rcases steps.stream with same | ⟨next, runs, moved⟩
  · rw [same]
    split
    · next here =>
      subst here
      exact registered s
    · exact Iff.rfl
  · refine (Stream.steps moved).registry within ?_ registered s id
    rintro taken rfl
    cases action with
    | task other =>
        obtain rfl : taken = other := StreamAction.task.inj runs
        exact mine taken rfl
    | construct | turn | rxPdo | take | subscribe => cases runs
    | unsubscribe | giveUp => cases runs.choose_spec
    | clear | sync => exact runs

theorem Steps.taskRun (steps : Steps S channels own t action after)
    (run : TaskRun S t.stream.task t.stream.events) :
    TaskRun S after.stream.task after.stream.events := by
  rcases steps.stream with same | ⟨next, -, moved⟩
  · rw [same]
    exact run
  · exact (Stream.steps moved).taskRun run

end SessionTask

/-! ### All sessions -/

namespace TaskSessions

variable {S : Setup} {channels : Nat → Channel} {st after : TaskSessions}

/-- The task knows exactly what its sessions are subscribed to. -/
structure Registered (S : Setup) (channels : Nat → Channel) (st : TaskSessions) : Prop where
  run : TaskRun S st.task st.events
  kept : ∀ id t, st.sessions id = some t → t.Kept S channels
  own : st.sessions 0 = none
  persistent : ∀ s, 0 ∈ st.task.nrt.sessions s ↔ s ∈ st.persistent
  known : ∀ s ∈ st.persistent, s < S.signals.length
  registry : ∀ s id, id ≠ 0 → (id ∈ st.task.nrt.sessions s ↔
    ∃ t, st.sessions id = some t ∧ s ∈ t.stream.data.subscribedSet)

namespace Registered

theorem init : Registered S channels (start S) := by
  constructor
  case run =>
    exact .start
  case kept =>
    intro id t found
    cases found
  case own =>
    rfl
  case persistent =>
    intro s
    exact iff_of_false (Finset.notMem_empty 0) (Finset.notMem_empty s)
  case known =>
    intro s member
    exact absurd member (Finset.notMem_empty s)
  case registry =>
    intro s id _
    constructor
    · intro member
      exact absurd member (Finset.notMem_empty id)
    · rintro ⟨t, found, -⟩
      cases found

theorem realtime {action : Task.Action} {task : Task} {new : List TaskEvent}
    (registered : Registered S channels st)
    (mine : ∀ cs id insert, action ≠ .subscribe cs id insert)
    (taken : st.task.step S action = some (task, new)) :
    Registered S channels { st with task := task, events := st.events ++ new } := by
  have same : task.nrt = st.task.nrt := by
    rcases Task.step_sessions taken with ⟨cs, id, insert, here, -⟩ | ⟨-, same, -⟩
    · exact absurd here (mine cs id insert)
    · exact same
  refine ⟨.step action registered.run taken, registered.kept, registered.own, ?_,
    registered.known, ?_⟩
  · rw [same]
    exact registered.persistent
  · rw [same]
    exact registered.registry

theorem persist {signal : Nat} {task : Task} {new : List TaskEvent}
    (registered : Registered S channels st)
    (taken : st.task.step S (.subscribe signal 0 true) = some (task, new)) :
    Registered S channels
      { st with
        task := task
        events := st.events ++ new
        persistent := insert signal st.persistent } := by
  refine ⟨.step _ registered.run taken, registered.kept, registered.own, fun s => ?_, ?_,
    fun s id client => ?_⟩
  · rw [Task.sessions_subscribe taken, Finset.mem_insert, registered.persistent]
    by_cases here : s = signal <;> simp [here]
  · intro s member
    rcases Finset.mem_insert.mp member with rfl | old
    · exact (Task.gains_session taken).1
    · exact registered.known s old
  · rw [Task.sessions_subscribe taken, if_neg fun same => client same.2]
    exact registered.registry s id client

theorem connect {id : Nat} (registered : Registered S channels st) (client : id ≠ 0)
    (free : st.sessions id = none) :
    Registered S channels
      { st with
        sessions := Function.update st.sessions id (some { stream := Stream.init S }) } := by
  refine ⟨registered.run, fun id' t found => ?_, ?_, registered.persistent, registered.known,
    fun s id' other => ?_⟩
  · by_cases here : id' = id
    · subst here
      dsimp only at found
      rw [Function.update_self] at found
      cases found
      exact .new
    · dsimp only at found
      rw [Function.update_of_ne here] at found
      exact registered.kept id' t found
  · dsimp only
    rw [Function.update_of_ne client.symm]
    exact registered.own
  · dsimp only
    rw [registered.registry s id' other]
    by_cases here : id' = id
    · subst here
      rw [Function.update_self, free]
      simp [Stream.init]
    · rw [Function.update_of_ne here]

theorem session {id : Nat} {t next : SessionTask} {action : SessionTaskAction}
    (registered : Registered S channels st) (mine : ∀ taken, action ≠ .task taken)
    (found : st.sessions id = some t)
    (steps : SessionTask.Steps S channels id (st.view t) action next) :
    Registered S channels (st.put id next) := by
  have kept := registered.kept id t found
  have client : id ≠ 0 := by
    rintro rfl
    rw [registered.own] at found
    cases found
  have viewed : (st.view t).Kept S channels :=
    ⟨kept.managed, kept.active, kept.wants, kept.cleared, kept.deleted⟩
  have after := viewed.step steps
  have change := steps.registry viewed.active mine (by
    intro s
    refine (registered.registry s id client).trans ?_
    rw [found]
    simp [view])
  refine ⟨steps.taskRun registered.run, fun id' t' found' => ?_, ?_, fun s => ?_,
    registered.known, fun s id' other => ?_⟩
  · by_cases here : id' = id
    · subst here
      dsimp only [put] at found'
      rw [Function.update_self] at found'
      split at found'
      · cases found'
      · cases found'
        exact after
    · dsimp only [put] at found'
      rw [Function.update_of_ne here] at found'
      exact registered.kept id' t' found'
  · dsimp only [put]
    rw [Function.update_of_ne client.symm]
    exact registered.own
  · refine (change s 0).trans ?_
    rw [if_neg client.symm]
    exact registered.persistent s
  · refine (change s id').trans ?_
    dsimp only [put]
    by_cases here : id' = id
    · subst here
      rw [if_pos rfl, Function.update_self]
      split
      · next gone =>
        rw [after.deleted gone]
        simp
      · simp
    · rw [if_neg here, Function.update_of_ne here]
      exact registered.registry s id' other

theorem step {action : TaskSessionsAction} (registered : Registered S channels st)
    (done : st.step S channels action = some after) : Registered S channels after := by
  cases action with
  | realtime action =>
      have taken (mine : ∀ cs id insert, action ≠ .subscribe cs id insert)
          (done : ((st.task.step S action).map fun (task, new) =>
            { st with task := task, events := st.events ++ new }) = some after) :
          Registered S channels after := by
        obtain ⟨⟨task, new⟩, taken, same⟩ := Option.map_eq_some_iff.mp done
        cases same
        exact registered.realtime mine taken
      cases action with
      | subscribe => cases done
      | updateStatistics | rt_update | processSignalList | calculateCopyList | copyData =>
          exact taken nofun done
  | persist signal =>
      simp only [TaskSessions.step] at done
      split at done
      · cases done
      · obtain ⟨⟨task, new⟩, taken, same⟩ := Option.map_eq_some_iff.mp done
        cases same
        exact registered.persist taken
  | connect id =>
      simp only [TaskSessions.step] at done
      split at done
      · cases done
      · next fresh =>
        cases done
        obtain ⟨client, free⟩ := not_or.mp fresh
        exact registered.connect client (Option.not_isSome_iff_eq_none.mp free)
  | session id action =>
      have stepped (mine : ∀ taken, action ≠ .task taken)
          (done : (do
            let t ← st.sessions id
            let next ← (st.view t).step S channels id action
            some (st.put id next)) = some after) : Registered S channels after := by
        obtain ⟨t, found, done⟩ := Option.bind_eq_some_iff.mp done
        obtain ⟨next, moved, same⟩ := Option.bind_eq_some_iff.mp done
        cases same
        exact registered.session mine found (SessionTask.steps moved)
      cases action with
      | task => cases done
      | construct | turn | rxPdo | take | subscribe | unsubscribe | clear | giveUp | sync =>
          simp only [TaskSessions.step] at done
          exact stepped nofun done

end Registered

theorem registered_of_run (run : TaskSessionsRun S channels st) : Registered S channels st := by
  induction run with
  | start => exact .init
  | step action _ _ done ih => exact ih.step done

/-- Some session is registered for a signal exactly where one wants it. -/
theorem Registered.wanted_iff (registered : Registered S channels st) {s : Nat}
    (known : s < S.signals.length) : st.task.nrt.sessions s ≠ ∅ ↔ st.Wanted s := by
  rw [← Finset.nonempty_iff_ne_empty]
  constructor
  · rintro ⟨id, member⟩
    by_cases own : id = 0
    · subst own
      exact .inl ((registered.persistent s).mp member)
    · obtain ⟨t, found, subscribed⟩ := (registered.registry s id own).mp member
      exact .inr ⟨id, t, found, (((registered.kept id t found).wants s).mp subscribed).2⟩
  · rintro (persistent | ⟨id, t, found, wants⟩)
    · exact ⟨0, (registered.persistent s).mpr persistent⟩
    · have own : id ≠ 0 := by
        rintro rfl
        rw [registered.own] at found
        cases found
      have subscribed := ((registered.kept id t found).wants s).mpr ⟨known, wants⟩
      exact ⟨id, (registered.registry s id own).mpr ⟨t, found, subscribed⟩⟩

/-- Where the ring is empty, all changes have been applied. -/
theorem processed_of_drained {task : Task} {events : List TaskEvent}
    (follows : Task.Follows S task events)
    (drained : task.shmem.signalListRp = task.shmem.signalListWp) :
    Task.processed events = Task.published events := by
  by_cases some_signals : S.signals = []
  · have none_made : Task.published events = [] := by
      apply List.eq_nil_iff_forall_not_mem.mpr
      intro entry member
      have known := follows.known member
      simp [some_signals] at known
    have behind := follows.behind
    rw [none_made] at behind ⊢
    exact List.prefix_nil.mp behind
  · have none_left := (follows.ring some_signals).empty_iff.mp drained
    unfold Task.pending at none_left
    obtain ⟨rest, split⟩ := follows.behind
    rw [← split, List.drop_left] at none_left
    rw [← split, none_left, List.append_nil]

/-- In every run of a task and its sessions the lists of the non-real-time process have
exactly the signals that a session wants, each once; where all changes are applied, the
real-time process copies exactly these; and the `SessionTaskData` of a session that
goes has no subscription left when it is deleted. -/
theorem copies_wanted (run : TaskSessionsRun S channels st) :
    ((List.range 4).flatMap (Task.NrtLists st.task.nrt)).Nodup ∧
    (∀ s, s ∈ (List.range 4).flatMap (Task.NrtLists st.task.nrt) ↔
      s < S.signals.length ∧ st.Wanted s) ∧
    (st.task.shmem.signalListRp = st.task.shmem.signalListWp →
      Task.copied S st.task.rt = Task.NrtLists st.task.nrt) ∧
    ∀ id t, st.sessions id = some t → t.phase = .clearing [] true →
      t.stream.data.subscribedSet = ∅ := by
  have registered := registered_of_run run
  have follows := registered.run.follows
  have fit := follows.log.listsFit
  have lists := follows.nrt.lists_eq
  refine ⟨?_, fun s => ?_, fun drained => ?_, fun id t found phase => ?_⟩
  · rw [lists]
    exact fit.all_nodup
  · rw [lists, List.mem_flatMap]
    constructor
    · rintro ⟨w, -, member⟩
      obtain ⟨rfl, known⟩ := fit.bins w s member
      exact ⟨known, (registered.wanted_iff known).mp ((follows.nrt.listed s known).mp member)⟩
    · rintro ⟨known, wanted⟩
      refine ⟨S.bin s, List.mem_range.mpr ?_, (follows.nrt.listed s known).mpr ?_⟩
      · unfold Setup.bin
        cases found : S.signals[s]? with
        | none => decide
        | some signal => exact signal.bin_lt
      · exact (registered.wanted_iff known).mpr wanted
  · rw [follows.copied_eq, lists, processed_of_drained follows drained]
  · have kept := registered.kept id t found
    apply Finset.eq_empty_of_forall_notMem
    intro s member
    obtain ⟨-, wants⟩ := (kept.wants s).mp member
    obtain ⟨-, none_left⟩ := kept.cleared _ _ phase
    rcases wants with there | ⟨signals, last, clearing, member⟩
    · exact none_left s there
    · cases phase.symm.trans clearing
      cases member

/-! A client comes, orders the only signal and goes. -/

def wholeSignal (_ : Nat) : Channel := ⟨0, 0, 8⟩

def cycle (changes : List Task.Action) : List TaskSessionsAction :=
  .realtime (.rt_update none) :: changes.map .realtime ++ [.realtime (.copyData fun _ _ => 9)]

def comes : List TaskSessionsAction :=
  cycle [] ++ [.connect 1, .session 1 .construct, .session 1 .turn, .session 1 .turn,
    .session 1 .turn, .session 1 (.rxPdo false), .session 1 .turn,
    .session 1 (.subscribe 0 0 1 1 true 16 7)] ++ cycle [.processSignalList, .calculateCopyList]

def goes : List TaskSessionsAction :=
  [.session 1 (.clear true), .session 1 .giveUp] ++
    cycle [.processSignalList, .calculateCopyList] ++ [.session 1 .giveUp]

def performed (actions : List TaskSessionsAction) : TaskSessions :=
  (Transition.perform (step oneSignal wholeSignal) (fun _ _ => true) actions
    (start oneSignal)).getD (start oneSignal)

theorem copies_wanted_of_client :
    (List.range 4).map (Task.copied oneSignal (performed comes).task.rt) = [[0], [], [], []] ∧
      (List.range 4).map (Task.copied oneSignal (performed (comes ++ goes)).task.rt) =
        [[], [], [], []] ∧
      ∀ s, s ∈ (List.range 4).flatMap (Task.NrtLists (performed comes).task.nrt) ↔
        s < oneSignal.signals.length ∧ (performed comes).Wanted s := by
  refine ⟨by decide +kernel, by decide +kernel, ?_⟩
  have possible : (Transition.perform (step oneSignal wholeSignal) (fun _ _ => true) comes
      (start oneSignal)).isSome = true := by decide +kernel
  obtain ⟨st, reached⟩ := Option.isSome_iff_exists.mp possible
  have run : TaskSessionsRun oneSignal wholeSignal (performed comes) := by
    rw [performed, reached]
    exact Transition.Reaches.perform (fun _ _ _ => trivial) .start reached
  exact (copies_wanted run).2.1

end TaskSessions

end PdServ
