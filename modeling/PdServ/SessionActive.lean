import PdServ.SessionSync

/-!
The active signals of a session are in the list it has loaded. `loadSignalList`
compares the number of the list with the last change of a signal; `subscribe`
looks into the loaded list alone, which can be older than this change.
-/

namespace PdServ

/-! ### Changes and sessions -/

namespace Task

variable {S : Setup} {task after : Task} {events new : List TaskEvent}

/-- What a step does to the sessions of the signals: one of them is changed, or
none. The number of a change is that of the signal. -/
theorem step_sessions {action : Action} (done : task.step S action = some (after, new)) :
    (∃ cs st insert, action = .subscribe cs st insert ∧
      after.nrt.sessions = (changeSessions task.nrt cs st insert).sessions ∧
      ((published new = [] ∧ after.nrt.subscriptionId = task.nrt.subscriptionId ∧
          unchanged task.nrt cs st insert = true) ∨
        ∃ entry, published new = [entry] ∧
          after.nrt.subscriptionId =
            Function.update task.nrt.subscriptionId cs after.nrt.signalListId)) ∨
      (published new = [] ∧ after.nrt = task.nrt ∧
        ∀ cs st insert, action ≠ .subscribe cs st insert) := by
  cases action with
  | subscribe cs st insert =>
      left
      simp only [step] at done
      split at done
      · obtain ⟨⟨result, after', new'⟩, done, same⟩ := Option.map_eq_some_iff.mp done
        cases same
        refine ⟨cs, st, insert, rfl, ?_⟩
        obtain ⟨-, ⟨same, -, rfl, rfl⟩ | ⟨changed, entry, entry_eq, -, -, rfl, rfl⟩⟩ :=
          subscribe_cases done
        · exact ⟨rfl, .inl ⟨rfl, rfl, same⟩⟩
        · obtain rfl : changed = _ := congrArg Prod.fst entry_eq
          refine ⟨?_, .inr ⟨entry, rfl, ?_⟩⟩
          · cases insert <;> rfl
          · cases insert <;> rfl
      · cases done
  | updateStatistics statistics | rt_update t =>
      right
      simp only [step] at done
      split at done <;> cases done
      exact ⟨rfl, rfl, fun _ _ _ => Action.noConfusion⟩
  | processSignalList =>
      right
      simp only [step] at done
      split at done
      · split at done <;> cases done
        exact ⟨rfl, rfl, fun _ _ _ => Action.noConfusion⟩
      · cases done
  | calculateCopyList =>
      right
      simp only [step] at done
      split at done
      · split at done <;> cases done
        exact ⟨rfl, rfl, fun _ _ _ => Action.noConfusion⟩
      · cases done
  | copyData values =>
      right
      simp only [step] at done
      split at done <;> cases done
      exact ⟨rfl, rfl, fun _ _ _ => Action.noConfusion⟩

/-- A signal without sessions gets one by a change only. -/
theorem sessions_of_unchanged {nrt : NrtTask} {cs st : Nat} {insert : Bool} (s : Nat)
    (same : unchanged nrt cs st insert = true)
    (used : (changeSessions nrt cs st insert).sessions s ≠ ∅) : nrt.sessions s ≠ ∅ := by
  by_cases here : s = cs
  · subst here
    cases insert with
    | true => simpa [unchanged] using same
    | false =>
        simp only [changeSessions, Function.update_self, Bool.false_eq_true, if_false] at used
        rintro none_there
        rw [none_there] at used
        exact used rfl
  · simpa [changeSessions, here] using used

/-- Only its own calls take a session away from a signal. -/
theorem keeps_session {action : Action} {own s : Nat}
    (done : task.step S action = some (after, new))
    (other : action ≠ .subscribe s own false) (subscribed : own ∈ task.nrt.sessions s) :
    own ∈ after.nrt.sessions s := by
  rcases step_sessions done with ⟨cs, st, insert, rfl, same, -⟩ | ⟨-, same, -⟩
  · rw [same]
    by_cases here : s = cs
    · subst here
      cases insert with
      | true => simp [changeSessions, subscribed]
      | false =>
          have different : own ≠ st := by
            rintro rfl
            exact other rfl
          simp [changeSessions, subscribed, different]
    · simpa [changeSessions, here] using subscribed
  · rw [same]
    exact subscribed

theorem gains_session {own s : Nat}
    (done : task.step S (.subscribe s own true) = some (after, new)) :
    s < S.signals.length ∧ own ∈ after.nrt.sessions s := by
  constructor
  · simp only [step] at done
    split at done
    · next known => exact known
    · cases done
  · rcases step_sessions done with ⟨cs, st, insert, same, sessions, -⟩ | ⟨-, -, other⟩
    · cases same
      rw [sessions]
      simp [changeSessions]
    · exact absurd rfl (other s own true)

/-- The lists after this many changes and all later ones have the signal. -/
def Lasts (S : Setup) (events : List TaskEvent) (count s : Nat) : Prop :=
  ∀ part, part <+: published events → count ≤ part.length →
    s ∈ (List.range 4).flatMap (listsAfter S part)

theorem Lasts.later {count count' s : Nat} (lasts : Lasts S events count s)
    (later : count ≤ count') : Lasts S events count' s :=
  fun part early long => lasts part early (later.trans long)

/-- The list of the task has the signals that are subscribed. -/
theorem Follows.used {s : Nat} (follows : Follows S task events)
    (known : s < S.signals.length) (used : task.nrt.sessions s ≠ ∅) :
    s ∈ (List.range 4).flatMap (listsAfter S (published events)) := by
  refine List.mem_flatMap.mpr ⟨S.bin s, ?_, (follows.nrt.listed s known).mpr used⟩
  have bin : S.bin s < 4 := by
    simp only [Setup.bin, List.getElem?_eq_getElem known]
    exact Signal.bin_lt _
  exact List.mem_range.mpr bin

/-- A signal that is still subscribed after a step is in the list after it too. -/
theorem Lasts.step {count s : Nat} {action : Action} (lasts : Lasts S events count s)
    (run : TaskRun S task events) (done : task.step S action = some (after, new))
    (known : s < S.signals.length) (used : after.nrt.sessions s ≠ ∅) :
    Lasts S (events ++ new) count s := by
  intro part early long
  have follows := run.follows.step done
  have last := follows.used known used
  rw [published_append] at early last
  have short : published new = [] ∨ ∃ entry, published new = [entry] := by
    rcases step_sessions done with ⟨cs, st, insert, -, -, ⟨none_new, -⟩ | ⟨entry, one, -⟩⟩ |
      ⟨none_new, -⟩
    · exact .inl none_new
    · exact .inr ⟨entry, one⟩
    · exact .inl none_new
  rcases short with none_new | ⟨entry, one⟩
  · rw [none_new, List.append_nil] at early
    exact lasts part early long
  · rw [one] at early last
    rcases List.prefix_concat_iff.mp early with whole | before
    · rw [whole]
      exact last
    · exact lasts part before long

/-- A subscribed signal has the number of the change it was inserted with. -/
def Numbered (S : Setup) (task : Task) (events : List TaskEvent) : Prop :=
  ∀ s, s < S.signals.length → task.nrt.sessions s ≠ ∅ →
    ∃ count, count ≤ (published events).length ∧
      task.nrt.subscriptionId s = count % 2 ^ 32 ∧ Lasts S events count s

theorem Numbered.step {action : Action} (numbered : Numbered S task events)
    (run : TaskRun S task events) (done : task.step S action = some (after, new)) :
    Numbered S after (events ++ new) := by
  intro s known used
  have follows := run.follows.step done
  -- What holds of a signal this step does not change.
  have old : after.nrt.subscriptionId s = task.nrt.subscriptionId s →
      task.nrt.sessions s ≠ ∅ → ∃ count, count ≤ (published (events ++ new)).length ∧
        after.nrt.subscriptionId s = count % 2 ^ 32 ∧ Lasts S (events ++ new) count s := by
    intro same before
    obtain ⟨count, bound, number, lasts⟩ := numbered s known before
    refine ⟨count, ?_, same.trans number, lasts.step run done known used⟩
    rw [published_append, List.length_append]
    omega
  rcases step_sessions done with
    ⟨cs, st, insert, -, sessions, ⟨-, ids, same⟩ | ⟨entry, one, ids⟩⟩ | ⟨-, nrt, -⟩
  · rw [sessions] at used
    exact old (congrFun ids s) (sessions_of_unchanged s same used)
  · by_cases here : s = cs
    · subst here
      refine ⟨(published (events ++ new)).length, le_refl _, ?_, ?_⟩
      · rw [ids, Function.update_self, follows.signalListId]
      · intro part early long
        rw [early.eq_of_length_le long]
        exact follows.used known used
    · apply old
      · rw [ids, Function.update_of_ne here]
      · rw [sessions] at used
        simpa [changeSessions, here] using used
  · rw [nrt] at used
    exact old (by rw [nrt]) used

end Task

theorem TaskRun.numbered {S : Setup} {task : Task} {events : List TaskEvent}
    (run : TaskRun S task events) : Task.Numbered S task events := by
  induction run with
  | start => exact fun s _ used => absurd rfl used
  | step action run done ih => exact ih.step run done

/-! ### Active signals -/

/-- Where `rxPdo` returned true, a list is loaded that has all active signals, so
the bytes of each of them have a place in the Data PDO. -/
def RxPdo.Contained (S : Setup) (rx : RxPdo) : Prop :=
  rx.result = true → (∃ list, rx.data.Loaded S list) ∧
    ∀ s ∈ rx.data.activeSet, s ∈ rx.data.transferredSet ∧
      rx.data.signalPosition s + S.sizeOf s ≤ rx.data.pdoSize

theorem SessionTaskData.Loaded.position_le {S : Setup} {data : SessionTaskData}
    {list : List Nat} {s : Nat} (loaded : data.Loaded S list) (member : s ∈ list) :
    s ∈ data.transferredSet ∧ data.signalPosition s + S.sizeOf s ≤ data.pdoSize := by
  constructor
  · rw [loaded.transferred]
    exact List.mem_toFinset.mpr member
  · obtain ⟨front, back, split⟩ := List.append_of_mem member
    rw [loaded.position front s back split, loaded.pdoSize, split]
    simp only [List.map_append, List.map_cons, List.sum_append, List.sum_cons]
    omega

theorem RxPdo.Contained.of_loaded {S : Setup} {rx : RxPdo} {list : List Nat}
    (loaded : rx.data.Loaded S list) (listed : ∀ s ∈ rx.data.activeSet, s ∈ list) :
    rx.Contained S := by
  intro _
  exact ⟨⟨list, loaded⟩, fun s member => loaded.position_le (listed s member)⟩

namespace Stream

variable {S : Setup} {own : Nat} {stream after : Stream} {list : List Nat} {id : Nat}

/-- A signal that is made active at once was not changed behind the list that is
loaded. A list that is loaded in `rxPdo` was published and is not older than the one
before. The numbers of the lists have not wrapped. -/
def Confirmed (S : Setup) (stream : Stream) : StreamAction → Prop
  | .turn => stream.phase = .receiving →
      (stream.data.receive S stream.subscriptionId stream.memory).1 = .list →
      (Task.published stream.events).length ≤ 2 ^ 31 ∧
        ∃ pdo, stream.Intact (Pdo.next stream.memory stream.data.pdo) (.signals pdo) ∧
          SessionTaskData.notBefore pdo.signalListId stream.data.signalListId = true
  | .subscribe s =>
      s ∉ stream.data.subscribedSet → s ∈ stream.data.transferredSet →
      stream.task.nrt.sessions s ≠ ∅ →
      (Task.published stream.events).length ≤ 2 ^ 31 ∧
        SessionTaskData.notBefore stream.data.signalListId (stream.subscriptionId s) = true
  | _ => True

/-- The list after a part of the changes, with its number. It has all these signals,
and so have the lists after it. -/
def Lasting (S : Setup) (stream : Stream) (id : Nat) (list : List Nat)
    (signals : Finset Nat) : Prop :=
  ∃ part, part <+: Task.published stream.events ∧ id = part.length % 2 ^ 32 ∧
    list = (List.range 4).flatMap (listsAfter S part) ∧
    ∀ s ∈ signals, Task.Lasts S stream.events part.length s

namespace Lasting

variable {signals : Finset Nat}

theorem all_listed (lasting : Lasting S stream id list signals) : ∀ s ∈ signals, s ∈ list := by
  obtain ⟨part, early, -, rfl, lasts⟩ := lasting
  exact fun s member => lasts s member part early (le_refl _)

theorem committed (lasting : Lasting S stream id list signals) :
    Committed S stream id list := by
  obtain ⟨part, early, number, same, -⟩ := lasting
  exact ⟨part, early, number, same⟩

theorem subset {fewer : Finset Nat} (lasting : Lasting S stream id list signals)
    (within : fewer ⊆ signals) : Lasting S stream id list fewer := by
  obtain ⟨part, early, number, same, lasts⟩ := lasting
  exact ⟨part, early, number, same, fun s member => lasts s (within member)⟩

theorem same (lasting : Lasting S stream id list signals)
    (events : after.events = stream.events) : Lasting S after id list signals := by
  obtain ⟨part, early, number, same, lasts⟩ := lasting
  refine ⟨part, ?_, number, same, ?_⟩
  · rw [events]
    exact early
  · rw [events]
    exact lasts

/-- The task goes on, and all the signals stay subscribed. -/
theorem task {taken : Task.Action} {new : List TaskEvent}
    (lasting : Lasting S stream id list signals)
    (run : TaskRun S stream.task stream.events)
    (done : stream.task.step S taken = some (after.task, new))
    (events : after.events = stream.events ++ new)
    (used : ∀ s ∈ signals, s < S.signals.length ∧ after.task.nrt.sessions s ≠ ∅) :
    Lasting S after id list signals := by
  obtain ⟨part, early, number, same, lasts⟩ := lasting
  refine ⟨part, ?_, number, same, ?_⟩
  · rw [events, Task.published_append]
    exact early.trans (List.prefix_append _ _)
  · intro s member
    rw [events]
    exact (lasts s member).step run done (used s member).1 (used s member).2

end Lasting

/-- `int(later - earlier) >= 0`, as long as the numbers have not wrapped. -/
theorem le_of_notBefore {later earlier : Nat} (bound : later ≤ 2 ^ 31)
    (bound' : earlier ≤ 2 ^ 31)
    (order : SessionTaskData.notBefore (later % 2 ^ 32) (earlier % 2 ^ 32) = true) :
    earlier ≤ later := by
  unfold SessionTaskData.notBefore at order
  have small := of_decide_eq_true order
  omega

/-- What a session knows of its active signals. -/
structure Contains (S : Setup) (own : Nat) (stream : Stream) : Prop where
  subscribed : ∀ s ∈ stream.data.subscribedSet,
    s < S.signals.length ∧ own ∈ stream.task.nrt.sessions s
  active : stream.data.activeSet ⊆ stream.data.subscribedSet
  listed : ∀ caller signals, stream.phase = .checking caller signals ∨
      stream.phase = .awaiting caller signals →
    Lasting S stream stream.data.signalListId signals stream.data.subscribedSet
  loaded : (∃ result, stream.phase = .ready result) ∨ stream.phase = .receiving →
    ∃ list, stream.data.Loaded S list ∧
      Lasting S stream stream.data.signalListId list stream.data.activeSet
  returns : ∀ rx ∈ stream.returns, rx.Contained S

namespace Contains

theorem used (contains : Contains S own stream) :
    ∀ s ∈ stream.data.subscribedSet,
      s < S.signals.length ∧ stream.task.nrt.sessions s ≠ ∅ := by
  intro s member
  obtain ⟨known, subscribed⟩ := contains.subscribed s member
  exact ⟨known, Finset.ne_empty_of_mem subscribed⟩

/-- A step after which the session has a list and is outside of `init`. -/
theorem holding (phase : (∃ result, after.phase = .ready result) ∨ after.phase = .receiving)
    (subscribed : ∀ s ∈ after.data.subscribedSet,
      s < S.signals.length ∧ own ∈ after.task.nrt.sessions s)
    (active : after.data.activeSet ⊆ after.data.subscribedSet)
    (loaded : after.data.Loaded S list)
    (lasting : Lasting S after after.data.signalListId list after.data.activeSet)
    (returns : ∀ rx ∈ after.returns, rx.Contained S) : Contains S own after where
  subscribed := subscribed
  active := active
  listed := fun _ _ checking => absurd checking (SessionPhase.not_listed phase)
  loaded := fun _ => ⟨list, loaded, lasting⟩
  returns := returns

/-- A step after which the session is in `init`. -/
theorem searching (contains : Contains S own stream) (task : after.task = stream.task)
    (subscribed : after.data.subscribedSet = stream.data.subscribedSet)
    (active : after.data.activeSet = stream.data.activeSet)
    (returns : after.returns = stream.returns)
    (phase : after.phase.Searching fun signals =>
      Lasting S after after.data.signalListId signals after.data.subscribedSet) :
    Contains S own after := by
  constructor
  case subscribed =>
    rw [subscribed, task]
    exact contains.subscribed
  case active =>
    rw [subscribed, active]
    exact contains.active
  case listed =>
    exact fun _ _ checking => phase.known checking
  case loaded =>
    exact fun outside => absurd outside phase.inside
  case returns =>
    rw [returns]
    exact contains.returns

/-- A step of the task that the session does not take. -/
theorem foreign {taken : Task.Action} {new : List TaskEvent}
    (contains : Contains S own stream) (run : TaskRun S stream.task stream.events)
    (other : Stream.foreign own taken = true)
    (done : stream.task.step S taken = some (after.task, new))
    (events : after.events = stream.events ++ new) (data : after.data = stream.data)
    (phase : after.phase = stream.phase) (returns : after.returns = stream.returns) :
    Contains S own after := by
  have subscribed : ∀ s ∈ stream.data.subscribedSet,
      s < S.signals.length ∧ own ∈ after.task.nrt.sessions s := by
    intro s member
    obtain ⟨known, before⟩ := contains.subscribed s member
    refine ⟨known, Task.keeps_session done ?_ before⟩
    rintro rfl
    simp [Stream.foreign] at other
  have used : ∀ s ∈ stream.data.subscribedSet,
      s < S.signals.length ∧ after.task.nrt.sessions s ≠ ∅ := by
    intro s member
    obtain ⟨known, here⟩ := subscribed s member
    exact ⟨known, Finset.ne_empty_of_mem here⟩
  constructor
  case subscribed =>
    rw [data]
    exact subscribed
  case active =>
    rw [data]
    exact contains.active
  case listed =>
    rw [phase, data]
    intro caller signals checking
    exact (contains.listed caller signals checking).task run done events used
  case loaded =>
    rw [phase, data]
    intro outside
    obtain ⟨list, loaded, lasting⟩ := contains.loaded outside
    exact ⟨list, loaded, lasting.task run done events
      fun s member => used s (contains.active member)⟩
  case returns =>
    rw [returns]
    exact contains.returns

/-- A change in the name of the session, outside of `rxPdo`. -/
theorem change {taken : Task.Action} {new : List TaskEvent} {result : Option Bool}
    (contains : Contains S own stream) (run : TaskRun S stream.task stream.events)
    (ready : stream.phase = .ready result)
    (done : stream.task.step S taken = some (after.task, new))
    (events : after.events = stream.events ++ new) (phase : after.phase = stream.phase)
    (number : after.data.signalListId = stream.data.signalListId)
    (loaded : ∀ list, stream.data.Loaded S list → after.data.Loaded S list)
    (returns : after.returns = stream.returns)
    (subscribed : ∀ s ∈ after.data.subscribedSet,
      s < S.signals.length ∧ own ∈ after.task.nrt.sessions s)
    (active : after.data.activeSet ⊆ after.data.subscribedSet)
    (lasting : ∀ list,
      Lasting S stream stream.data.signalListId list stream.data.activeSet →
      Lasting S stream stream.data.signalListId list after.data.activeSet) :
    Contains S own after := by
  obtain ⟨list, holds, lasts⟩ := contains.loaded (.inl ⟨_, ready⟩)
  apply Contains.holding (.inl ⟨result, phase.trans ready⟩) subscribed active (loaded list holds)
  · rw [number]
    apply (lasting list lasts).task run done events
    intro s member
    obtain ⟨known, here⟩ := subscribed s (active member)
    exact ⟨known, Finset.ne_empty_of_mem here⟩
  · rw [returns]
    exact contains.returns

/-- The list of the task has all signals the session has subscribed. -/
theorem getSignalList (contains : Contains S own stream)
    (run : TaskRun S stream.task stream.events) :
    Lasting S stream stream.task.getSignalList.2 stream.task.getSignalList.1
      stream.data.subscribedSet := by
  refine ⟨Task.published stream.events, List.prefix_refl _, run.follows.last,
    congrArg (fun lists => (List.range 4).flatMap lists) run.follows.nrt.lists_eq, ?_⟩
  intro s member part early long
  obtain ⟨known, used⟩ := contains.used s member
  rw [early.eq_of_length_le long]
  exact run.follows.used known used

/-- A signal the session has active, or makes active with this list, is in all later
lists as well. -/
theorem load (contains : Contains S own stream)
    (run : TaskRun S stream.task stream.events) (phase : stream.phase = .receiving)
    (few : (Task.published stream.events).length ≤ 2 ^ 31) {p : Nat} {pdo : SignalsPdo}
    {data : SessionTaskData} {told : List Nat} (intact : stream.Intact p (.signals pdo))
    (order : SessionTaskData.notBefore pdo.signalListId stream.data.signalListId = true)
    (loads : SessionTaskData.LoadsList S stream.subscriptionId
      { stream.data with pdo := pdo.address } pdo.signals pdo.signalListId data told) :
    Lasting S stream pdo.signalListId pdo.signals data.activeSet := by
  obtain ⟨part, early, number, same⟩ := intact.committed run
  obtain ⟨list, -, before, early', number', -, lasts⟩ := contains.loaded (.inr phase)
  have number : pdo.signalListId = part.length % 2 ^ 32 := number
  have bound := early.length_le
  have bound' := early'.length_le
  refine ⟨part, early, number, same, ?_⟩
  intro s member
  rcases (loads.active s).mp member with old | ⟨listed, subscribed, new⟩
  · rw [number, number'] at order
    exact (lasts s old).later (le_of_notBefore (by omega) (by omega) order)
  · obtain ⟨known, used⟩ := contains.used s subscribed
    obtain ⟨count, inside, counted, from_then⟩ := run.numbered s known used
    have id : stream.subscriptionId s = count % 2 ^ 32 := counted
    rw [number, id] at new
    exact from_then.later (le_of_notBefore (by omega) (by omega) new)

/-- The active signals after a list was loaded are subscribed. -/
theorem load_active {subscriptionId : Nat → Nat} {before data : SessionTaskData}
    {told : List Nat}
    (loads : SessionTaskData.LoadsList S subscriptionId before list id data told)
    (active : before.activeSet ⊆ before.subscribedSet) :
    data.activeSet ⊆ data.subscribedSet := by
  intro s member
  rw [loads.subscribed]
  rcases (loads.active s).mp member with old | ⟨-, subscribed, -⟩
  · exact active old
  · exact subscribed

/-- After a call of `subscribe` all signals of the session have it. -/
theorem subscribes {s : Nat} {task : Task} {new : List TaskEvent}
    (contains : Contains S own stream)
    (taken : stream.task.step S (.subscribe s own true) = some (task, new)) :
    ∀ t ∈ insert s stream.data.subscribedSet,
      t < S.signals.length ∧ own ∈ task.nrt.sessions t := by
  intro t member
  rcases Finset.mem_insert.mp member with rfl | old
  · exact Task.gains_session taken
  · obtain ⟨known, before⟩ := contains.subscribed t old
    exact ⟨known, Task.keeps_session taken nofun before⟩

/-- `Task::subscribe` returns true where the signal is subscribed already. -/
theorem used_of_true {s : Nat} {task after : Task} {new : List TaskEvent}
    (taken : task.subscribe S s own true = some (true, after, new)) :
    task.nrt.sessions s ≠ ∅ := by
  obtain ⟨-, ⟨same, -⟩ | ⟨_, _, -, -, result, -⟩⟩ := Task.subscribe_cases taken
  · simpa [Task.unchanged] using same
  · cases result

/-- A signal that is made active at once was inserted before the list was made. -/
theorem activates {s : Nat} {task : Task} {new : List TaskEvent}
    (run : TaskRun S stream.task stream.events) (used : stream.task.nrt.sessions s ≠ ∅)
    (confirmed : (Task.published stream.events).length ≤ 2 ^ 31 ∧
      SessionTaskData.notBefore stream.data.signalListId (stream.subscriptionId s) = true)
    (taken : stream.task.step S (.subscribe s own true) = some (task, new))
    (lasting : Lasting S stream stream.data.signalListId list stream.data.activeSet) :
    Lasting S stream stream.data.signalListId list (insert s stream.data.activeSet) := by
  obtain ⟨few, order⟩ := confirmed
  obtain ⟨part, early, number, same, lasts⟩ := lasting
  obtain ⟨count, inside, counted, from_then⟩ :=
    run.numbered s (Task.gains_session taken).1 used
  have bound := early.length_le
  have id : stream.subscriptionId s = count % 2 ^ 32 := counted
  rw [number, id] at order
  refine ⟨part, early, number, same, ?_⟩
  intro t member
  rcases Finset.mem_insert.mp member with rfl | old
  · exact from_then.later (le_of_notBefore (by omega) (by omega) order)
  · exact lasts t old

/-- `init` is left with the list that was looked for. -/
theorem found {caller : InitCaller} {signals : List Nat} (contains : Contains S own stream)
    (run : TaskRun S stream.task stream.events)
    (phase : stream.phase = .checking caller signals) :
    Contains S own (stream.synchronised S caller signals) := by
  have listed := contains.listed caller signals (.inl phase)
  have loads := synchronised_loads S stream (listed.committed.nodup run)
  have active := load_active loads contains.active
  have subscribed := loads.subscribed
  have lasting : Lasting S stream _ signals _ := listed.subset (active.trans subscribed.subset)
  rw [← loads.signalListId] at lasting
  cases caller with
  | constructor =>
      apply Contains.holding (.inl ⟨_, rfl⟩)
      · rw [subscribed]
        exact contains.subscribed
      · exact active
      · exact loads.loaded
      · exact lasting.same rfl
      · exact contains.returns
  | rxPdo =>
      apply Contains.holding (.inl ⟨_, rfl⟩)
      · intro s member
        exact contains.subscribed s (subscribed.subset member)
      · exact active
      · exact loads.loaded
      · exact lasting.same rfl
      · apply returns_concat contains.returns rfl
        exact .of_loaded loads.loaded lasting.all_listed

/-- `rxPdo` returns with a Data PDO of the list it has. -/
theorem data {data : SessionTaskData} {told : List Nat} (contains : Contains S own stream)
    (phase : stream.phase = .receiving)
    (result : stream.data.receive S stream.subscriptionId stream.memory = (.data, data, told)) :
    Contains S own (({ stream with data := data }.inform told).report.return_ true) := by
  obtain ⟨list, loaded, lasting⟩ := contains.loaded (.inr phase)
  have keeps := SessionTaskData.receive_keeps result nofun
  have loaded := keeps.loaded list loaded
  rw [← keeps.signalListId, ← keeps.active] at lasting
  have active := contains.active
  rw [← keeps.active, ← keeps.subscribed] at active
  have subscribed := contains.subscribed
  rw [← keeps.subscribed] at subscribed
  refine .holding (.inl ⟨_, rfl⟩) subscribed active loaded (lasting.same rfl) ?_
  apply returns_concat contains.returns rfl
  exact .of_loaded loaded lasting.all_listed

theorem step {action : StreamAction} (contains : Contains S own stream)
    (run : TaskRun S stream.task stream.events) (confirmed : Confirmed S stream action)
    (done : stream.step S own action = some after) : Contains S own after := by
  cases steps done with
  | task other taken => exact contains.foreign run other taken rfl rfl rfl rfl
  | construct phase => exact contains.searching rfl rfl rfl rfl (.inl ⟨_, rfl⟩)
  | rxPdo phase =>
      obtain ⟨list, loaded, lasting⟩ := contains.loaded (.inl ⟨_, phase⟩)
      exact .holding (.inr rfl) contains.subscribed contains.active loaded
        (lasting.same rfl) contains.returns
  | @catchUp caller phase =>
      refine contains.searching rfl rfl rfl rfl ?_
      dsimp only
      split
      · exact .inr (.inl ⟨_, rfl⟩)
      · exact .inl ⟨_, rfl⟩
  | @list caller phase =>
      exact contains.searching rfl rfl rfl rfl
        (.inr (.inr ⟨_, _, .inl rfl, (contains.getSignalList run).same rfl⟩))
  | @other caller signals phase type =>
      exact contains.searching rfl rfl rfl rfl
        (.inr (.inr ⟨_, _, .inr rfl, (contains.listed _ signals (.inl phase)).same rfl⟩))
  | @older caller signals phase type id =>
      exact contains.searching rfl rfl rfl rfl (.inr (.inl ⟨_, rfl⟩))
  | found phase type id => exact contains.found run phase
  | @next caller signals phase some_pdo =>
      exact contains.searching rfl rfl rfl rfl
        (.inr (.inr ⟨_, _, .inl rfl, (contains.listed _ signals (.inr phase)).same rfl⟩))
  | ended phase result =>
      obtain ⟨list, loaded, lasting⟩ := contains.loaded (.inr phase)
      obtain rfl := SessionTaskData.receive_of_ended result
      refine .holding (.inl ⟨_, rfl⟩) contains.subscribed contains.active loaded
        (lasting.same rfl) ?_
      exact returns_concat contains.returns rfl nofun
  | data phase result => exact contains.data phase result
  | @signals data told phase result =>
      obtain ⟨few, pdo, intact, order⟩ := confirmed phase (by rw [result])
      have loads := Intact.loads run intact result
      have lasting := contains.load run phase few intact order loads
      have active := load_active loads contains.active
      have subscribed := contains.subscribed
      have same : data.subscribedSet = stream.data.subscribedSet := loads.subscribed
      rw [← same] at subscribed
      rw [← loads.signalListId] at lasting
      exact .holding (.inr phase) subscribed active loads.loaded (lasting.same rfl)
        contains.returns
  | @outOfSync data told phase result =>
      have keeps := SessionTaskData.receive_keeps result nofun
      exact contains.searching rfl keeps.subscribed keeps.active rfl (.inl ⟨_, rfl⟩)
  | active phase active =>
      obtain ⟨list, loaded, lasting⟩ := contains.loaded (.inl ⟨_, phase⟩)
      exact .holding (.inl ⟨_, phase⟩) contains.subscribed contains.active loaded
        (lasting.same rfl) contains.returns
  | subscribed phase subscribed => exact contains
  | @activate s result task new phase fresh taken known transferred =>
      apply contains.change run phase taken <;> try rfl
      · exact fun _ loaded => ⟨loaded.transferred, loaded.pdoSize, loaded.position⟩
      · exact contains.subscribes taken
      · exact Finset.insert_subset_insert s contains.active
      · intro list lasting
        have used := used_of_true known
        exact activates run used (confirmed fresh transferred used) taken lasting
  | @subscribe s result task new phase inactive fresh taken =>
      apply contains.change run phase taken <;> try rfl
      · exact fun _ loaded => ⟨loaded.transferred, loaded.pdoSize, loaded.position⟩
      · exact contains.subscribes taken
      · exact contains.active.trans (Finset.subset_insert s _)
      · exact fun _ lasting => lasting
  | @unsubscribe s result task new phase subscribed taken =>
      apply contains.change run phase taken <;> try rfl
      · exact fun _ loaded => ⟨loaded.transferred, loaded.pdoSize, loaded.position⟩
      · intro t member
        obtain ⟨different, member⟩ := Finset.mem_erase.mp member
        obtain ⟨known, before⟩ := contains.subscribed t member
        refine ⟨known, Task.keeps_session taken ?_ before⟩
        rintro same
        cases same
        exact different rfl
      · exact Finset.erase_subset_erase s contains.active
      · exact fun _ lasting => lasting.subset (Finset.erase_subset s _)
  | unknown phase fresh => exact contains

theorem init : Contains S own (Stream.init S) where
  subscribed := nofun
  active := Finset.Subset.refl _
  listed := by
    intro caller signals phase
    rcases phase with phase | phase <;> cases phase
  loaded := by
    rintro (⟨result, phase⟩ | phase) <;> cases phase
  returns := nofun

end Contains

/-- In a run that meets the condition all active signals are in the loaded list
whenever `rxPdo` returns true. -/
theorem active_contained (run : StreamRun S own (Confirmed S) stream) :
    ∀ rx ∈ stream.returns, rx.Contained S := by
  have contains : Contains S own stream := by
    induction run with
    | start => exact .init
    | step action before confirmed done ih =>
        exact ih.step (StreamRun.taskRun before) confirmed done
  exact contains.returns

/-- `Confirmed` as a check. -/
def confirms (S : Setup) (stream : Stream) : StreamAction → Bool
  | .turn =>
      match stream.phase with
      | .receiving =>
          (stream.data.receive S stream.subscriptionId stream.memory).1 ≠ .list ||
            (decide ((Task.published stream.events).length ≤ 2 ^ 31) &&
              (Task.pdos stream.events).any fun pdo =>
                !pdo.isData && decide ((pdo.address = Pdo.next stream.memory stream.data.pdo ∧
                  pdo.Header stream.memory ∧ pdo.Body stream.memory) ∧
                  SessionTaskData.notBefore pdo.signalListId stream.data.signalListId = true))
      | _ => true
  | .subscribe s =>
      decide (s ∉ stream.data.subscribedSet → s ∈ stream.data.transferredSet →
        stream.task.nrt.sessions s ≠ ∅ →
        (Task.published stream.events).length ≤ 2 ^ 31 ∧
          SessionTaskData.notBefore stream.data.signalListId (stream.subscriptionId s) = true)
  | _ => true

theorem confirmed_of_check (stream : Stream) (action : StreamAction)
    (check : confirms S stream action = true) : Confirmed S stream action := by
  cases action with
  | turn =>
      intro receiving loads
      simp only [confirms, receiving, loads, ne_eq, not_true_eq_false, decide_false,
        Bool.false_or, List.any_eq_true, Bool.and_eq_true, decide_eq_true_eq] at check
      obtain ⟨few, pdo, published, isSignals, ⟨address, header, body⟩, order⟩ := check
      refine ⟨few, ?_⟩
      cases pdo with
      | signals pdo => exact ⟨pdo, ⟨published, address, header, body⟩, order⟩
      | data pdo => cases isSignals
  | subscribe s =>
      simp only [confirms, decide_eq_true_eq] at check
      exact check
  | task action => trivial
  | construct => trivial
  | rxPdo => trivial
  | unsubscribe s => trivial

theorem active_contained_inStep :
    (perform oneSignal 1 inStepActions).returns.map
        (fun rx => (rx.result, rx.data.activeSet)) = [(true, {0}), (false, {0})] ∧
      ∀ rx ∈ (perform oneSignal 1 inStepActions).returns, rx.Contained oneSignal := by
  have done : Transition.perform (Stream.step oneSignal 1) (confirms oneSignal) inStepActions
      (init oneSignal) = some (perform oneSignal 1 inStepActions) := by rfl
  exact ⟨by decide,
    active_contained (Transition.Reaches.perform confirmed_of_check .start done)⟩

/-- A turn of the real-time process that finds one change of the list. -/
def changeTurn : List StreamAction :=
  [.task (.rt_update none), .task .processSignalList, .task .calculateCopyList,
    .task (.copyData fun _ _ => 9)]

/-- The signal is in the list of a new session; another one removes it, and a third
inserts it again before the session has called `rxPdo`. -/
def reinserted : List StreamAction :=
  [.task (.subscribe 0 2 true)] ++ changeTurn ++
    [.construct, .turn, .turn, .turn, .turn, .task (.subscribe 0 2 false)] ++ changeTurn ++
    [.task (.subscribe 0 3 true)] ++ changeTurn ++ [.subscribe 0, .rxPdo, .turn, .turn]

/-- The session makes the signal active at once, and then receives the Data PDO
without it. -/
theorem active_lost : ∃ stream rx, StreamRun oneSignal 1 Transition.anyStep stream ∧
    rx ∈ stream.returns ∧ rx.result = true ∧ 0 ∈ rx.data.activeSet ∧
    0 ∉ rx.data.transferredSet ∧ rx.data.signalPosition 0 = 4294967295 ∧
    rx.data.pdoSize = 0 ∧ ¬rx.Contained oneSignal := by
  have returned : (perform oneSignal 1 reinserted).returns.map (fun rx =>
      (rx.result, decide (0 ∈ rx.data.activeSet), decide (0 ∈ rx.data.transferredSet),
        rx.data.signalPosition 0, rx.data.pdoSize)) = [(true, true, false, 4294967295, 0)] := by
    decide
  obtain ⟨rx, once, same⟩ := List.map_eq_singleton_iff.mp returned
  simp only [Prod.mk.injEq, decide_eq_true_eq, decide_eq_false_iff_not] at same
  obtain ⟨result, active, absent, position, size⟩ := same
  refine ⟨perform oneSignal 1 reinserted, rx, .of_isSome (by decide), ?_, result,
    active, absent, position, size, ?_⟩
  · rw [once]
    exact List.mem_singleton_self rx
  · intro contained
    exact absent ((contained result).2 0 active).1

end Stream

end PdServ
