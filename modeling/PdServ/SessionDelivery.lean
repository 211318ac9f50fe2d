import PdServ.SessionReceives

/-!
What a session receives once its constructor has returned, as long as the writer
does not overwrite what the session has not left yet: every Data PDO, once and
in order, with the bytes the real-time process copied.
-/

namespace PdServ

namespace Stream

variable {S : Setup} {own : Nat} {stream after : Stream}
  {left front rest : List Published} {first here : Published} {list : List Nat}

theorem Standing.here_data (standing : Standing stream left here rest)
    (type : Pdo.type stream.memory stream.data.pdo = Pdo.Data) : ∃ pdo, here = .data pdo := by
  cases here with
  | data pdo => exact ⟨pdo, rfl⟩
  | signals pdo =>
      have header := (standing.readable.first _ rfl).1
      have address : pdo.address = stream.data.pdo := standing.address
      rw [← address, header.1] at type
      cases type

theorem Later.nodup {id : Nat} (run : TaskRun S stream.task stream.events)
    (later : Later S stream id list) : list.Nodup := by
  obtain ⟨part, early, -, -, rfl⟩ := later
  exact (run.follows.log.part early).listsFit.all_nodup

/-- The session has loaded the list that belongs to the PDO it stands on. -/
theorem Standing.receives {pdo : DataPdo} {subscriptionId : Nat → Nat}
    {before : SessionTaskData} {told : List Nat} {id : Nat}
    (standing : Standing stream left (.data pdo) rest)
    (run : TaskRun S stream.task stream.events)
    (constructing : stream.Constructing)
    (laters : ∀ pdo ∈ rest, Later S stream pdo.signalListId pdo.list)
    (later : Later S stream id list) (same : pdo.signalListId = id)
    (few : (Task.published stream.events).length < stream.since + 2 ^ 32)
    (loads : SessionTaskData.LoadsList S subscriptionId before list id after.data told)
    (place : before.pdo = pdo.address)
    (number : before.seqNo = Pdo.seqNo stream.memory pdo.address)
    (events : after.events = stream.events) (task : after.task = stream.task)
    (returns : after.returns = stream.returns) (phase : after.phase = .ready none) :
    Receives S left (.data pdo) after [] (.data pdo) rest list := by
  subst same
  have ordered := run.ordered
  have seqNo : after.data.seqNo = pdo.seqNo := by
    have header := (standing.readable.first _ rfl).1
    rw [loads.seqNo, number]
    exact header.2.2.2.1
  have counted := ordered.numbered left pdo rest standing.split
  have none_returned : after.returns = [] := returns.trans constructing.returns
  constructor
  case standing =>
    rw [List.append_nil]
    exact standing.stay events task (loads.pdo.trans (place.trans standing.address))
  case starts =>
    rfl
  case phase =>
    exact .inl ⟨_, phase⟩
  case agrees =>
    constructor
    · exact loads.loaded
    · intro next member isData
      have chain := ordered.continues
      rw [standing.split] at chain
      have continues := chain.right_of_append.rel_head? member isData
      have id : next.signalListId = pdo.signalListId := continues.1
      have same := laters next (List.mem_of_mem_head? member)
      rw [id] at same
      rw [loads.signalListId]
      exact ⟨id, same.unique few later⟩
    · intro last calm
      subst last
      rw [task] at calm ⊢
      obtain ⟨id, -⟩ := ordered.current calm (.data pdo) (by simp [standing.split])
      have id : pdo.signalListId = stream.task.rt.signalListId := id
      have same := later_of_rt run constructing.since
      rw [← id] at same
      rw [loads.signalListId]
      exact ⟨id.symm, same.unique few later⟩
  case seqNo_lt =>
    rw [seqNo, counted]
    exact Nat.mod_lt _ (by decide)
  case seqNo =>
    rw [List.nil_append, Task.dataCount_append, Task.dataCount_data, seqNo, counted]
    omega
  case delivered =>
    rw [none_returned]
    exact .nil
  case exhausts =>
    intro earlier rx later split
    rw [none_returned] at split
    simp at split

/-- At the end of its constructor a session stands on a Data PDO and has loaded
the list of the next one. -/
theorem Tracks.receives (tracks : Tracks S stream) (run : TaskRun S stream.task stream.events)
    (few : (Task.published stream.events).length < stream.since + 2 ^ 32)
    (done : stream.turn S = some after) (ready : after.phase = .ready none) :
    ∃ left first rest list, first.isData = true ∧
      Receives S left first after [] first rest list := by
  have steps : Steps S 0 stream .turn after := steps_of_turn done
  cases steps with
  | catchUp phase =>
      dsimp only at ready
      split at ready <;> cases ready
  | @found caller signals phase type id =>
      cases caller with
      | rxPdo => cases ready
      | constructor =>
          obtain ⟨constructing, caught, later⟩ := tracks.checking signals (.inl phase)
          rcases caught with ⟨none_there, -⟩ | ⟨left, here, rest, standing, laters⟩
          · rw [(clear_of_none run none_there _).2] at type
            cases type
          · obtain ⟨pdo, rfl⟩ := standing.here_data type
            refine ⟨left, .data pdo, rest, signals, rfl, ?_⟩
            have header := (standing.readable.first _ rfl).1
            have address : pdo.address = stream.data.pdo := standing.address
            rw [← address] at id
            have same : pdo.signalListId = stream.data.signalListId := header.2.1.symm.trans id
            have loads := synchronised_loads S stream (later.nodup run)
            apply standing.receives run constructing laters later same few loads
            · exact address.symm
            · rw [address]
            · rfl
            · rfl
            · rfl
            · rfl
  | list | other | older | next | ended | data | outOfSync => cases ready
  | signals phase =>
      have receiving := phase.symm.trans ready
      cases receiving

/-! ### Whole runs -/

theorem Receives.goes_on (receives : Receives S left first stream front here rest list)
    (run : Transition.Reaches (Stream.step S own) (NoOverwrite S own) stream after)
    (task : TaskRun S stream.task stream.events) :
    TaskRun S after.task after.events ∧
      ∃ front here rest list, Receives S left first after front here rest list := by
  induction run with
  | start => exact ⟨task, front, here, rest, list, receives⟩
  | step action _ safe done ih =>
      obtain ⟨task, front, here, rest, list, receives⟩ := ih
      exact ⟨(steps done).taskRun task, receives.step task safe done⟩

theorem turn_of_ended {data : SessionTaskData} {told : List Nat}
    (phase : stream.phase = .receiving)
    (read : stream.data.receive S stream.subscriptionId stream.memory = (.ended, data, told)) :
    stream.turn S = some (({ stream with data := data }.inform told).report.return_ false) := by
  simp only [turn, phase, read]

theorem turn_of_data {data : SessionTaskData} {told : List Nat}
    (phase : stream.phase = .receiving)
    (read : stream.data.receive S stream.subscriptionId stream.memory = (.data, data, told)) :
    stream.turn S = some (({ stream with data := data }.inform told).report.return_ true) := by
  simp only [turn, phase, read]

theorem turn_of_signals {data : SessionTaskData} {told : List Nat}
    (phase : stream.phase = .receiving)
    (read : stream.data.receive S stream.subscriptionId stream.memory = (.list, data, told)) :
    stream.turn S = some ({ stream with data := data }.inform told) := by
  simp only [turn, phase, read]

/-- A call of `rxPdo` returns, and it returns true where a Data PDO comes next. -/
theorem Receives.returns (run : TaskRun S stream.task stream.events)
    (phase : stream.phase = .receiving)
    (receives : Receives S left first stream front here rest list) :
    ∃ count after, Transition.turns (turn S) count stream = some after ∧
      after.phase = .ready (some (rest.any Published.isData)) := by
  induction rest generalizing stream front here list with
  | nil =>
      have turn := turn_of_ended phase (receives.receive_ended stream.subscriptionId)
      exact ⟨1, _, Transition.turns_one turn, rfl⟩
  | cons next rest ih =>
      cases next with
      | data pdo =>
          have turn := turn_of_data phase (receive_data run receives)
          exact ⟨1, _, Transition.turns_one turn, rfl⟩
      | signals pdo =>
          obtain ⟨data, told, read, loads⟩ := receive_signals run receives
          obtain ⟨middle, same⟩ : ∃ middle, middle = { stream with data := data }.inform told :=
            ⟨_, rfl⟩
          have turn : stream.turn S = some middle := by
            rw [same]
            exact turn_of_signals phase read
          have task : middle.task = stream.task := by rw [same]; rfl
          have events : middle.events = stream.events := by rw [same]; rfl
          have phase : middle.phase = .receiving := by rw [same]; exact phase
          have next : Receives S left first middle (front ++ [here]) (.signals pdo) rest
              pdo.signals := by
            rw [same] at task events phase ⊢
            apply receives.next_signals run loads
            · rfl
            · rfl
            · exact events
            · exact task
            · rfl
            · exact phase
          have run' : TaskRun S middle.task middle.events := by
            rw [task, events]
            exact run
          obtain ⟨count, after, later, result⟩ := ih run' phase next
          exact ⟨1 + count, after,
            Transition.turns_add (Transition.turns_one turn) later, result⟩

theorem Tracks.of_run (run : StreamRun S own (NoOverwrite S own) stream) : Tracks S stream := by
  induction run with
  | start =>
      constructor
      case absent =>
        intro _
        exact ⟨rfl, rfl⟩
      case catchingUp =>
        intro phase
        cases phase
      case listing =>
        intro phase
        cases phase
      case checking =>
        intro signals phase
        rcases phase with phase | phase <;> cases phase
  | step action before safe done ih => exact ih.step (StreamRun.taskRun before) safe done

/-- A session whose constructor has returned gets every Data PDO behind the one
`init` stopped at. `passed` are the PDOs it has gone past since. -/
theorem run_delivers {before start stream : Stream}
    (constructing : StreamRun S own (NoOverwrite S own) before)
    (few : (Task.published before.events).length < before.since + 2 ^ 32)
    (ended : before.turn S = some start) (ready : start.phase = .ready none)
    (run : Transition.Reaches (Stream.step S own) (NoOverwrite S own) start stream) :
    ((∃ result, stream.phase = .ready result) ∨ stream.phase = .receiving) ∧
    ∃ left first passed rest,
      first.isData = true ∧ first.address = start.data.pdo ∧
      (∃ more, Task.pdos start.events = left ++ first :: more) ∧
      Task.pdos stream.events = left ++ first :: (passed ++ rest) ∧
      (first :: passed).getLast?.map Published.address = some stream.data.pdo ∧
      (∀ front pdo back, Task.pdos stream.events = front ++ .data pdo :: back →
        pdo.seqNo = Task.dataCount front % 2 ^ 32) ∧
      List.Forall₂ (Delivers S) (stream.returns.filter RxPdo.result)
        (passed.filter Published.isData) ∧
      Exhausts S left first stream.returns ∧
      (stream.phase = .receiving → ∃ count after,
        Transition.turns (turn S) count stream = some after ∧
        after.phase = .ready (some (rest.any Published.isData))) := by
  have task := constructing.taskRun
  obtain ⟨left, first, later, list, isData, born⟩ :=
    (Tracks.of_run constructing).receives task few ended ready
  have steps : Steps S own before .turn start := steps_of_turn ended
  obtain ⟨task', front, here, rest, list', receives⟩ :=
    born.goes_on run (steps.taskRun task)
  refine ⟨receives.phase, left, first, (front ++ [here]).tail, rest, isData, ?_, ?_, ?_, ?_,
    task'.ordered.numbered, receives.delivered, receives.exhausts, ?_⟩
  · exact born.standing.address
  · exact ⟨later, by simpa using born.standing.split⟩
  · rw [← List.cons_append, ← Receives.starts_cons receives.starts, receives.standing.split]
    simp
  · rw [← Receives.starts_cons receives.starts, List.getLast?_concat]
    exact congrArg some receives.standing.address
  · intro phase
    exact receives.returns task' phase

/-- `NoOverwrite` as a check. -/
def keepsApart (S : Setup) (own : Nat) (stream : Stream) (action : StreamAction) : Bool :=
  (stream.step S own action).all fun after =>
    ((Task.pdos after.events).drop (Task.pdos stream.events).length).all fun new =>
      (notLeft stream.data.pdo (Task.pdos stream.events)).all fun old =>
        old.address + old.size ≤ new.address ∨ new.address + new.size ≤ old.address

theorem noOverwrite_of_keepsApart (stream : Stream) (action : StreamAction)
    (check : keepsApart S own stream action = true) : NoOverwrite S own stream action := by
  intro after done new fresh old member
  rw [keepsApart, done, Option.all_some, List.all_eq_true] at check
  have apart := List.all_eq_true.mp (check new fresh) old member
  rwa [decide_eq_true_eq] at apart

/-- A session of a task with one signal that has caught up to the first Data PDO. -/
def firstData : List StreamAction :=
  [.task (.rt_update none), .task (.copyData fun _ _ => 9), .construct, .turn, .turn]

/-- It subscribes the signal and receives the next Data PDO. -/
def nextData : List StreamAction :=
  [.turn, .subscribe 0, .task (.rt_update (some ⟨5, 7⟩)), .task .processSignalList,
    .task .calculateCopyList, .task (.copyData fun _ _ => 9), .rxPdo, .turn, .turn]

theorem run_delivers_nextData :
    ∃ pdo, pdo.isData = true ∧ List.Forall₂ (Delivers oneSignal)
      ((perform oneSignal 1 (firstData ++ nextData)).returns.filter RxPdo.result) [pdo] := by
  have done : Transition.perform (Stream.step oneSignal 1) (keepsApart oneSignal 1) firstData
      (init oneSignal) = some (perform oneSignal 1 firstData) := by rfl
  have before : StreamRun oneSignal 1 (NoOverwrite oneSignal 1)
      (perform oneSignal 1 firstData) :=
    Transition.Reaches.perform noOverwrite_of_keepsApart .start done
  have later : Transition.perform (Stream.step oneSignal 1) (keepsApart oneSignal 1)
      nextData.tail (perform oneSignal 1 (firstData ++ [.turn])) =
      some (perform oneSignal 1 (firstData ++ nextData)) := by rfl
  have run := Transition.Reaches.perform noOverwrite_of_keepsApart .start later
  obtain ⟨-, left, first, passed, rest, -, -, -, -, -, -, delivered, -⟩ :=
    run_delivers before (by decide) (by rfl) (by rfl) run
  have once : (passed.filter Published.isData).length = 1 := by
    rw [← delivered.length_eq]
    rfl
  obtain ⟨pdo, same⟩ := List.length_eq_one_iff.mp once
  have member : pdo ∈ passed.filter Published.isData := by simp [same]
  rw [same] at delivered
  exact ⟨pdo, (List.mem_filter.mp member).2, delivered⟩

/-! ### A number of a list that comes again

The number of a list has 32 bits. So many changes while a session is in its
constructor let it take the list of the end for the one of the PDO it stands on. -/

def byteSignal : Signal := ⟨1, by decide, 1, by decide⟩

/-- One signal of the type double and one byte. -/
def twoSignals : Setup where
  signals := oneSignal.signals ++ [byteSignal]
  shmem := 4096
  bufferCount := 0
  aligned := oneSignal.aligned
  notNull := oneSignal.notNull
  countable := by decide
  inside := by decide

/-- A session stands on a Data PDO without signals, a further one is published,
and another session makes a change and takes it back while the real-time
process looks for changes. -/
def secondData : List StreamAction :=
  [.task (.rt_update none), .task (.copyData fun _ _ => 9), .construct, .turn,
    .task (.rt_update none), .task (.copyData fun _ _ => 9),
    .task (.subscribe 0 2 true), .task (.rt_update none), .task .processSignalList,
    .task (.subscribe 0 2 false), .task .processSignalList]

/-- What a change of the list leaves as it is. -/
theorem change_made {task : Task} (cs st : Nat) (insert : Bool)
    (known : cs < S.signals.length)
    (free : Ring.next S.ringSize task.shmem.signalListWp ≠ task.shmem.signalListRp)
    (changes : Task.unchanged task.nrt cs st insert = false) :
    ∃ after entry lists,
      task.step S (.subscribe cs st insert) = some (after, [.changed entry lists]) ∧
      after.phase = task.phase ∧
      after.shmem.signalListRp = task.shmem.signalListRp ∧
      after.shmem.signalListWp = Ring.next S.ringSize task.shmem.signalListWp ∧
      after.shmem.memory = task.shmem.memory ∧
      after.nrt.sessions = (Task.changeSessions task.nrt cs st insert).sessions := by
  have done : ∃ after entry lists,
      task.subscribe S cs st insert = some (false, after, [.changed entry lists]) := by
    simp only [Task.subscribe, if_neg free, changes]
    exact ⟨_, _, _, rfl⟩
  obtain ⟨after, entry, lists, done⟩ := done
  have step : task.step S (.subscribe cs st insert) = some (after, [.changed entry lists]) := by
    simp only [Task.step, if_pos known, done]
    rfl
  obtain ⟨-, ⟨same, -⟩ | ⟨changed, entry', made, -, -, -, rfl⟩⟩ := Task.subscribe_cases done
  · rw [changes] at same
    cases same
  · refine ⟨_, entry, lists, step, rfl, rfl, rfl, rfl, ?_⟩
    have same : changed = _ := congrArg Prod.fst made
    rw [same]
    cases insert <;> rfl

theorem change_taken {task : Task} {t : Option Timespec} (draining : task.phase = .draining t)
    (some_change : task.shmem.signalListRp ≠ task.shmem.signalListWp) :
    ∃ after entry, task.step S .processSignalList = some (after, [.processed entry]) ∧
      after.phase = .draining t ∧
      after.shmem.signalListRp = Ring.next S.ringSize task.shmem.signalListRp ∧
      after.shmem.signalListWp = task.shmem.signalListWp ∧
      after.shmem.memory = task.shmem.memory ∧ after.nrt = task.nrt := by
  refine ⟨(task.processSignalList S).1,
    task.shmem.signalList (Ring.next S.ringSize task.shmem.signalListRp), ?_, draining,
    rfl, rfl, rfl, rfl⟩
  simp only [Task.step, draining, if_neg some_change]
  rfl

/-- A step of the task that publishes nothing. -/
theorem run_task {action : Task.Action} {task : Task} {new : List TaskEvent}
    (run : StreamRun S own (NoOverwrite S own) stream) (other : foreign own action = true)
    (taken : stream.task.step S action = some (task, new)) (none_new : Task.pdos new = []) :
    StreamRun S own (NoOverwrite S own)
      { stream with task := task, events := stream.events ++ new } := by
  have done : stream.step S own (.task action) =
      some { stream with task := task, events := stream.events ++ new } := by
    simp only [Stream.step, other, taken]
    rfl
  refine .step (.task action) run ?_ done
  intro after same pdo fresh
  rw [done, Option.some.injEq] at same
  rw [← same, Task.pdos_append, none_new, List.append_nil, List.drop_length] at fresh
  cases fresh

/-- Other sessions have made so many changes, and the real-time process has taken
over all of them in one turn. -/
structure Drained (base stream : Stream) (sessions : Nat → Finset Nat) (count : Nat) :
    Prop where
  run : StreamRun twoSignals 1 (NoOverwrite twoSignals 1) stream
  same : stream = { base with task := stream.task, events := stream.events }
  draining : stream.task.phase = .draining none
  drained : stream.task.shmem.signalListRp = stream.task.shmem.signalListWp
  memory : stream.memory = base.memory
  pdos : Task.pdos stream.events = Task.pdos base.events
  sessions : stream.task.nrt.sessions = sessions
  counted : (Task.published stream.events).length = count

theorem Drained.change {base : Stream} {sessions : Nat → Finset Nat} {count : Nat}
    (drained : Drained base stream sessions count) (insert : Bool)
    (changes : Task.unchanged { sessions := sessions } 0 2 insert = false) :
    ∃ after, Drained base after
      (Task.changeSessions { sessions := sessions } 0 2 insert).sessions (count + 1) := by
  have size : twoSignals.ringSize = 4 := rfl
  have free : Ring.next twoSignals.ringSize stream.task.shmem.signalListWp ≠
      stream.task.shmem.signalListRp := by
    rw [drained.drained, size]
    unfold Ring.next
    split <;> omega
  rw [← drained.sessions] at changes
  obtain ⟨changed, entry, lists, step, phase, rp, wp, memory, sessions'⟩ :=
    change_made 0 2 insert (by decide) free changes
  have run := run_task drained.run rfl step rfl
  obtain ⟨taken, entry', step', phase', rp', wp', memory', nrt⟩ :=
    change_taken (S := twoSignals) (phase.trans drained.draining)
      (by rw [rp, wp]; exact free.symm)
  have run' := run_task run rfl step' rfl
  refine ⟨_, run', ?_, phase', ?_, ?_, ?_, ?_, ?_⟩
  · rw [drained.same]
  · rw [rp', wp', rp, wp, drained.drained]
  · exact (memory'.trans memory).trans drained.memory
  · rw [List.append_assoc, Task.pdos_append]
    exact (List.append_nil _).trans drained.pdos
  · rw [← drained.sessions]
    exact (congrArg _ nrt).trans sessions'
  · rw [Task.published_append, Task.published_append, List.length_append, List.length_append,
      drained.counted]
    rfl

/-- A change and its reverse. -/
theorem Drained.again {base : Stream} {count : Nat}
    (drained : Drained base stream (fun _ => ∅) count) :
    ∃ after, Drained base after (fun _ => ∅) (count + 2) := by
  obtain ⟨middle, inserted⟩ := drained.change true rfl
  obtain ⟨after, removed⟩ := inserted.change false (by decide)
  refine ⟨after, ?_⟩
  have back : (Task.changeSessions { sessions :=
      (Task.changeSessions { sessions := fun _ => ∅ } 0 2 true).sessions } 0 2 false).sessions =
      fun _ => ∅ := by
    funext s
    by_cases here : s = 0
    · subst here
      rfl
    · simp [Task.changeSessions]
  rw [back] at removed
  exact removed

theorem Drained.often {base : Stream} (drained : Drained base stream (fun _ => ∅) 2)
    (count : Nat) : ∃ after, Drained base after (fun _ => ∅) (2 + 2 * count) := by
  induction count with
  | zero => exact ⟨stream, drained⟩
  | succ count ih =>
      obtain ⟨after, drained⟩ := ih
      exact drained.again

theorem eq_singleton {s : Nat} {list : List Nat} (nodup : list.Nodup)
    (only : ∀ t ∈ list, t = s) (member : s ∈ list) : list = [s] := by
  cases list with
  | nil => cases member
  | cons first rest =>
      obtain rfl := only first List.mem_cons_self
      cases rest with
      | nil => rfl
      | cons second rest =>
          obtain rfl := only second (by simp)
          simp at nodup

/-- The list, once both signals are needed. -/
theorem signals_of_sessions {task : Task} {events : List TaskEvent}
    (run : TaskRun twoSignals task events) (first : task.nrt.sessions 0 ≠ ∅)
    (second : task.nrt.sessions 1 ≠ ∅) :
    (List.range 4).flatMap (Task.NrtLists task.nrt) = [0, 1] := by
  have holds := run.follows.nrt
  have fit := run.follows.log.listsFit
  rw [holds.lists_eq]
  generalize listsAfter twoSignals (Task.published events) = lists at holds fit
  have bins : ∀ w, ∀ s ∈ lists w, (s = 0 ∧ w = 0) ∨ (s = 1 ∧ w = 3) := by
    intro w s member
    obtain ⟨bin, known⟩ := fit.bins w s member
    have small : s < 2 := known
    have cases : s = 0 ∨ s = 1 := by omega
    rcases cases with rfl | rfl
    · exact .inl ⟨rfl, bin.symm⟩
    · exact .inr ⟨rfl, bin.symm⟩
  have zero : lists 0 = [0] := by
    apply eq_singleton (fit.nodup 0)
    · intro s member
      have := bins 0 s member
      omega
    · exact (holds.listed 0 (by decide)).mpr first
  have three : lists 3 = [1] := by
    apply eq_singleton (fit.nodup 3)
    · intro s member
      have := bins 3 s member
      omega
    · exact (holds.listed 1 (by decide)).mpr second
  have none_there : ∀ w, w ≠ 0 → w ≠ 3 → lists w = [] := by
    intro w zero three
    apply List.eq_nil_iff_forall_not_mem.mpr
    intro s member
    have := bins w s member
    omega
  have bins : List.range 4 = [0, 1, 2, 3] := rfl
  simp [bins, zero, three, none_there]

/-- A step of the session alone. -/
theorem noOverwrite_alone {action : StreamAction} (done : stream.step S own action = some after)
    (events : after.events = stream.events) : NoOverwrite S own stream action := by
  intro after' done' pdo fresh
  rw [done, Option.some.injEq] at done'
  rw [← done', events, List.drop_length] at fresh
  cases fresh

theorem drained_secondData :
    Drained (perform twoSignals 1 secondData) (perform twoSignals 1 secondData)
      (fun _ => ∅) 2 := by
  have done : Transition.perform (Stream.step twoSignals 1) (keepsApart twoSignals 1)
      secondData (init twoSignals) = some (perform twoSignals 1 secondData) := by rfl
  constructor
  case run =>
    exact Transition.Reaches.perform noOverwrite_of_keepsApart .start done
  case same =>
    rfl
  case draining =>
    rfl
  case drained =>
    rfl
  case memory =>
    rfl
  case pdos =>
    rfl
  case sessions =>
    funext s
    cases s <;> rfl
  case counted =>
    rfl

/-- After `2 ^ 32` changes the list has the number of the empty one again. -/
theorem wrapped : ∃ stream, StreamRun twoSignals 1 (NoOverwrite twoSignals 1) stream ∧
    stream = { perform twoSignals 1 secondData with
      task := stream.task
      events := stream.events } ∧
    stream.memory = (perform twoSignals 1 secondData).memory ∧
    Task.pdos stream.events = Task.pdos (perform twoSignals 1 secondData).events ∧
    stream.task.getSignalList = ([0, 1], 0) := by
  obtain ⟨stream, drained⟩ := drained_secondData.often (2 ^ 31 - 2)
  have size : twoSignals.ringSize = 4 := rfl
  have free : Ring.next twoSignals.ringSize stream.task.shmem.signalListWp ≠
      stream.task.shmem.signalListRp := by
    rw [drained.drained, size]
    unfold Ring.next
    split <;> omega
  obtain ⟨one, entry, lists, step, -, rp, wp, memory, sessions⟩ :=
    change_made 0 2 true (by decide) free
      (by rw [Task.unchanged, drained.sessions]; rfl)
  have run := run_task drained.run rfl step rfl
  have free' : Ring.next twoSignals.ringSize one.shmem.signalListWp ≠ one.shmem.signalListRp := by
    rw [rp, wp, drained.drained, size]
    unfold Ring.next
    split <;> split <;> omega
  have sessions_one : one.nrt.sessions = Function.update (fun _ => ∅) 0 {2} := by
    rw [sessions, Task.changeSessions, drained.sessions]
    rfl
  obtain ⟨two, entry', lists', step', -, -, -, memory', sessions'⟩ :=
    change_made 1 2 true (by decide) free'
      (by rw [Task.unchanged, sessions_one]; rfl)
  have run' := run_task run rfl step' rfl
  refine ⟨_, run', ?_, ?_, ?_, ?_⟩
  · rw [drained.same]
  · exact (memory'.trans memory).trans drained.memory
  · rw [List.append_assoc, Task.pdos_append]
    exact (List.append_nil _).trans drained.pdos
  · have task := StreamRun.taskRun run'
    rw [Task.changeSessions, sessions_one] at sessions'
    have first : two.nrt.sessions 0 ≠ ∅ := by
      rw [sessions']
      exact Finset.singleton_ne_empty 2
    have second : two.nrt.sessions 1 ≠ ∅ := by
      rw [sessions']
      exact Finset.insert_ne_empty 2 _
    have list := signals_of_sessions task first second
    have id := task.follows.last
    have counted : (Task.published (stream.events ++ [.changed entry lists] ++
        [.changed entry' lists'])).length = 2 ^ 32 := by
      have single : ∀ {entry lists}, (Task.published [.changed entry lists]).length = 1 := rfl
      rw [Task.published_append, Task.published_append, List.length_append,
        List.length_append, drained.counted, single, single]
      omega
    rw [counted, Nat.mod_self] at id
    exact Prod.ext list id

theorem turn_of_found {caller : InitCaller} {signals : List Nat}
    (phase : stream.phase = .checking caller signals)
    (type : Pdo.type stream.memory stream.data.pdo = Pdo.Data)
    (id : Pdo.signalListId stream.memory stream.data.pdo = stream.data.signalListId) :
    stream.turn S = some (stream.synchronised S caller signals) := by
  simp only [turn, phase]
  rw [if_neg (not_not.mpr type), if_neg (not_not.mpr id)]

/-- The constructor ends at a Data PDO with that number, and the one behind it passes all
checks of a session that has loaded both signals. -/
theorem wrapped_begins : ∃ before start second,
    StreamRun twoSignals 1 (NoOverwrite twoSignals 1) before ∧
    before.turn twoSignals = some start ∧ start.phase = .ready none ∧
    start.memory = (perform twoSignals 1 secondData).memory ∧
    start.data.Loaded twoSignals [0, 1] ∧ .data second ∈ Task.pdos start.events ∧
    second.address = 4280 ∧ second.values = (fun _ _ => 9) ∧
    start.data.receive twoSignals start.subscriptionId start.memory =
      (.data, { start.data with pdo := 4280, seqNo := 1, signalBuffer := some 4352 }, []) := by
  obtain ⟨stream, run, same, memory, pdos, list⟩ := wrapped
  have phase : stream.phase = .listing .constructor := by
    rw [same]
    rfl
  have place : stream.data.pdo = 4208 := by
    rw [same]
    rfl
  obtain ⟨left, second, there, address, bytes, id, seqNo, values, meets⟩ :
      ∃ left second, Task.pdos stream.events = [left, .data second] ∧
        second.address = 4280 ∧ second.bytes = [] ∧ second.signalListId = 0 ∧
        second.seqNo = 1 ∧ second.values = (fun _ _ => 9) ∧
        SessionTaskData.Meets (perform twoSignals 1 secondData).memory
          (perform twoSignals 1 secondData).data (.data second) := by
    rw [pdos]
    exact ⟨_, _, rfl, rfl, rfl, rfl, rfl, rfl,
      rfl, ⟨rfl, rfl, rfl, rfl, rfl, rfl, rfl, rfl, rfl⟩, rfl⟩
  -- `getSignalList` tells of both signals, with the number of the empty list.
  obtain ⟨before, listed⟩ : ∃ before, before = { stream with
      data := { stream.data with signalListId := 0 }
      phase := .checking .constructor [0, 1] } := ⟨_, rfl⟩
  have list_turn : stream.turn twoSignals = some before := by
    simp only [turn, phase, list, listed]
  have memory' : before.memory = (perform twoSignals 1 secondData).memory := by
    rw [listed]
    exact memory
  have place' : before.data.pdo = 4208 := by
    rw [listed]
    exact place
  have found : before.turn twoSignals =
      some (before.synchronised twoSignals .constructor [0, 1]) := by
    apply turn_of_found
    · rw [listed]
    · rw [memory', place']
      rfl
    · rw [memory', place', listed]
      rfl
  have loads := synchronised_loads twoSignals before (show [0, 1].Nodup by decide)
  obtain ⟨start, born⟩ : ∃ start, start = before.synchronised twoSignals .constructor [0, 1] :=
    ⟨_, rfl⟩
  rw [← born] at found loads
  have start_memory : start.memory = (perform twoSignals 1 secondData).memory := by
    rw [born]
    exact memory'
  have start_events : start.events = stream.events := by
    rw [born, listed]
    rfl
  have start_pdo : start.data.pdo = (perform twoSignals 1 secondData).data.pdo := by
    rw [loads.pdo]
    exact place'
  have start_seqNo : start.data.seqNo = 0 := by
    rw [loads.seqNo, memory', place']
    rfl
  have start_id : start.data.signalListId = 0 := by
    rw [loads.signalListId, listed]
  have start_size : start.data.pdoSize = 9 := loads.loaded.pdoSize
  have here : SessionTaskData.Meets start.memory start.data (.data second) := by
    rw [start_memory]
    obtain ⟨link, header, body⟩ := meets
    rw [← start_pdo] at link
    exact ⟨link, header, body⟩
  have placed : Published.Placed twoSignals (.data second) := by
    rw [Published.Placed, Published.address, Published.size, address, bytes]
    decide
  have received : start.data.receive twoSignals start.subscriptionId start.memory = _ :=
    SessionTaskData.receive_data here placed
  rw [address, id, seqNo, start_size, start_id, start_seqNo, if_neg (by decide)] at received
  refine ⟨before, start, second,
    .step .turn run (noOverwrite_alone list_turn (by rw [listed])) list_turn, found, ?_,
    start_memory, loads.loaded, ?_, address, values, ?_⟩
  · rw [born]
    rfl
  · rw [start_events, there]
    simp
  · simp only [received, start_size, start_id]

/-- With that list the session reads values that were never copied. -/
theorem run_misses_wrapped :
    ∃ before start stream rx pdo s p,
      StreamRun twoSignals 1 (NoOverwrite twoSignals 1) before ∧
      before.turn twoSignals = some start ∧ start.phase = .ready none ∧
      Transition.Reaches (Stream.step twoSignals 1) (NoOverwrite twoSignals 1) start stream ∧
      rx ∈ stream.returns ∧ rx.result = true ∧
      .data pdo ∈ Task.pdos rx.events ∧ rx.time = some (pdo.address + 24) ∧
      s ∈ rx.data.transferredSet ∧ rx.data.getValue s = some p ∧
      rx.memory.read p (twoSignals.sizeOf s) ≠
        (List.range (twoSignals.sizeOf s)).map (pdo.values s) := by
  obtain ⟨before, start, second, run, found, phase, memory, loaded, there, address, values,
    received⟩ := wrapped_begins
  obtain ⟨called, receiving⟩ : ∃ called, called = { start with phase := .receiving } := ⟨_, rfl⟩
  have call : start.step twoSignals 1 .rxPdo = some called := by
    simp only [Stream.step, phase, receiving]
  have last := turn_of_data (S := twoSignals) (show called.phase = .receiving by rw [receiving])
    (by rw [receiving]; exact received)
  have reached : Transition.Reaches (Stream.step twoSignals 1) (NoOverwrite twoSignals 1)
      start _ :=
    .step .turn (.step .rxPdo .start (noOverwrite_alone call (by rw [receiving])) call)
      (noOverwrite_alone last rfl) last
  refine ⟨before, start, _, _, second, 0, 4352, run, found, phase, reached,
    List.mem_append_right _ (List.mem_singleton_self _), rfl, ?_, ?_, ?_, ?_, ?_⟩
  · have events : called.events = start.events := by rw [receiving]
    change .data second ∈ Task.pdos called.events
    rw [events]
    exact there
  · rw [address]
    rfl
  · have transferred : start.data.transferredSet = [0, 1].toFinset := loaded.transferred
    change 0 ∈ start.data.transferredSet
    rw [transferred]
    decide
  · have position : start.data.signalPosition 0 = 0 := loaded.position [] 0 [1] rfl
    change some (4352 + start.data.signalPosition 0) = some 4352
    rw [position]
  · -- nothing was written where the values should be
    have memory' : called.memory = (perform twoSignals 1 secondData).memory := by
      rw [receiving]
      exact memory
    have clear : (perform twoSignals 1 secondData).memory.read 4352 8 = List.replicate 8 0 := by
      rfl
    rw [values]
    change called.memory.read 4352 8 ≠ List.replicate 8 9
    rw [memory', clear]
    decide

end Stream

end PdServ
