import PdServ.SessionStanding

/-!
What a session has received so far, as long as the writer does not overwrite
what the session has not left yet, and what one step adds.
-/

namespace PdServ

/-- The PDO was published by an `rt_update` at this time. -/
def Task.PublishedAt (S : Setup) (events : List TaskEvent) (pdo : DataPdo)
    (t : Option Timespec) : Prop :=
  ∃ task before after, TaskRun S task before ∧ before ++ [.data pdo] <+: events ∧
    task.phase = .copying t ∧
    task.step S (.copyData pdo.values) = some (after, [.data pdo])

theorem Task.PublishedAt.mono {S : Setup} {events : List TaskEvent} {pdo : DataPdo}
    {t : Option Timespec} (published : PublishedAt S events pdo t) (new : List TaskEvent) :
    PublishedAt S (events ++ new) pdo t := by
  obtain ⟨task, before, after, run, early, step⟩ := published
  exact ⟨task, before, after, run, early.trans (List.prefix_append _ _), step⟩

theorem TaskRun.publishedAt {S : Setup} {task : Task} {events : List TaskEvent}
    (run : TaskRun S task events) {pdo : DataPdo} (member : .data pdo ∈ Task.pdos events) :
    ∃ t, Task.PublishedAt S events pdo t ∧ pdo.time = t.getD ⟨0, 0⟩ := by
  induction run with
  | start => cases member
  | @step task before action after new run done ih =>
      rw [Task.pdos_append] at member
      rcases List.mem_append.mp member with old | fresh
      · obtain ⟨t, published, time⟩ := ih old
        exact ⟨t, published.mono new, time⟩
      · obtain ⟨told, rfl, t, copying, time⟩ := Task.step_data done fresh
        subst told
        exact ⟨t, ⟨task, before, after, run, List.prefix_refl _, copying, done⟩, time⟩

/-- `rxPdo` returned with what this Data PDO carries: its number, its time, and
for every signal of the loaded list the bytes that were copied from its address. -/
def Delivers (S : Setup) (rx : RxPdo) (pdo : Published) : Prop :=
  ∃ data, pdo = .data data ∧ rx.data.seqNo = data.seqNo ∧
    (∃ p t, rx.time = some p ∧ Task.PublishedAt S rx.events data t ∧
      rx.memory.word p 8 = (t.getD ⟨0, 0⟩).tv_sec.toNat ∧
      rx.memory.word (p + 8) 8 = (t.getD ⟨0, 0⟩).tv_nsec.toNat) ∧
    rx.data.transferredSet = pdo.list.toFinset ∧
    ∀ s ∈ rx.data.transferredSet, ∃ p, rx.data.getValue s = some p ∧
      rx.memory.read p (S.sizeOf s) = (List.range (S.sizeOf s)).map (data.values s)

/-- The bytes of a signal in a Data PDO whose list is loaded. -/
theorem SessionTaskData.Loaded.reads {S : Setup} {data : SessionTaskData} {m : Memory}
    {pdo : DataPdo} {s : Nat} (loaded : data.Loaded S (Published.list (.data pdo)))
    (bytes : pdo.bytes = Task.sampled S pdo.values pdo.copied)
    (body : Published.Body m (.data pdo))
    (buffer : data.signalBuffer = some (pdo.address + 72))
    (member : s ∈ Published.list (.data pdo)) :
    ∃ p, data.getValue s = some p ∧
      m.read p (S.sizeOf s) = (List.range (S.sizeOf s)).map (pdo.values s) := by
  obtain ⟨front, back, split⟩ := List.append_of_mem member
  have position := loaded.position front s back split
  refine ⟨pdo.address + 72 + (front.map S.sizeOf).sum, ?_, ?_⟩
  · rw [SessionTaskData.getValue, buffer, position]
    rfl
  · have parts : pdo.bytes =
        (front.flatMap fun s => (List.range (S.sizeOf s)).map (pdo.values s)) ++
        ((List.range (S.sizeOf s)).map (pdo.values s) ++
          back.flatMap fun s => (List.range (S.sizeOf s)).map (pdo.values s)) := by
      rw [bytes, Task.sampled]
      have list : (List.range 4).flatMap pdo.copied = front ++ s :: back := split
      rw [list, List.flatMap_append, List.flatMap_cons]
    have length : (front.flatMap fun s =>
        (List.range (S.sizeOf s)).map (pdo.values s)).length = (front.map S.sizeOf).sum := by
      rw [List.length_flatMap]
      simp
    have inside : (front.map S.sizeOf).sum + S.sizeOf s ≤ pdo.bytes.length := by
      rw [parts, List.length_append, length, List.length_append, List.length_map,
        List.length_range]
      omega
    have all : m.read (pdo.address + 72) pdo.bytes.length = pdo.bytes := body
    rw [Memory.read_part _ _ inside, all, parts, List.drop_left' length]
    exact List.take_left' (by simp)

/-- A session that has loaded the list of a Data PDO reads its values. -/
theorem Delivers.of_data {S : Setup} {rx : RxPdo} {pdo : DataPdo} {task : Task}
    (run : TaskRun S task rx.events) (member : .data pdo ∈ Task.pdos rx.events)
    (header : Published.Header rx.memory (.data pdo))
    (body : Published.Body rx.memory (.data pdo))
    (loaded : rx.data.Loaded S (Published.list (.data pdo)))
    (seqNo : rx.data.seqNo = pdo.seqNo)
    (buffer : rx.data.signalBuffer = some (pdo.address + 72))
    (time : rx.time = some (pdo.address + 24)) : Delivers S rx (.data pdo) := by
  have bytes := run.follows.bytes_eq member
  obtain ⟨t, published, same⟩ := run.publishedAt member
  obtain ⟨-, -, -, -, sec, nsec, -⟩ := header
  rw [same] at sec nsec
  refine ⟨pdo, rfl, seqNo, ⟨_, t, time, published, sec, nsec⟩, loaded.transferred, ?_⟩
  intro s member
  rw [loaded.transferred, List.mem_toFinset] at member
  exact loaded.reads bytes body buffer member

namespace Stream

variable {S : Setup} {own : Nat} {stream after : Stream}
  {left front rest : List Published} {first here : Published} {list : List Nat}

/-- The session has loaded the list of the next Data PDO. -/
structure Agrees (S : Setup) (stream : Stream) (rest : List Published)
    (list : List Nat) : Prop where
  loaded : stream.data.Loaded S list
  next : ∀ pdo ∈ rest.head?, pdo.isData = true →
    pdo.signalListId = stream.data.signalListId ∧ pdo.list = list
  calm : rest = [] → (∀ t, stream.task.phase ≠ .draining t) →
    stream.task.rt.signalListId = stream.data.signalListId ∧
      (List.range 4).flatMap (Task.copied S stream.task.rt) = list

/-- With the list of the PDO it stands on, it has the one of the next Data PDO. -/
theorem Agrees.of_here (standing : Standing stream left here rest)
    (run : TaskRun S stream.task stream.events)
    (loaded : stream.data.Loaded S here.list)
    (id : here.signalListId = stream.data.signalListId) :
    Agrees S stream rest here.list := by
  have ordered := run.ordered
  constructor
  · exact loaded
  · intro pdo member isData
    have chain := ordered.continues
    rw [standing.split] at chain
    have continues := chain.right_of_append.rel_head? member isData
    exact ⟨continues.1.trans id, continues.2⟩
  · intro last calm
    subst last
    obtain ⟨number, lists⟩ := ordered.current calm here (by simp [standing.split])
    exact ⟨number.symm.trans id, lists.symm⟩

theorem Agrees.task_step {taken : Task.Action} {new : List TaskEvent}
    (agrees : Agrees S stream rest list) (run : TaskRun S stream.task stream.events)
    (done : stream.task.step S taken = some (after.task, new))
    (loaded : after.data.Loaded S list)
    (id : after.data.signalListId = stream.data.signalListId) :
    Agrees S after (rest ++ Task.pdos new) list := by
  have cases := Task.step_cases run.follows run.streams.seqNo done
  refine ⟨loaded, ?_, ?_⟩
  · intro pdo member isData
    rw [id]
    by_cases none_left : rest = []
    · subst none_left
      rw [List.nil_append] at member
      rcases cases with quiet | ⟨pdo', signals⟩ | ⟨pdo', data⟩
      · rw [quiet.none_new] at member
        cases member
      · rw [signals.told] at member
        cases member
        cases isData
      · rw [data.told] at member
        cases member
        obtain ⟨t, copying, -, -⟩ := data.turn
        obtain ⟨number, lists⟩ := agrees.calm rfl (by simp [copying])
        refine ⟨data.signalListId.trans number, ?_⟩
        rw [← lists, ← data.copied]
        rfl
    · rw [List.head?_append_of_ne_nil _ none_left] at member
      exact agrees.next pdo member isData
  · intro none_left calm
    rw [List.append_eq_nil_iff] at none_left
    rw [id]
    rcases cases with quiet | ⟨pdo', signals⟩ | ⟨pdo', data⟩
    · obtain ⟨number, lists⟩ := quiet.lists calm
      rw [number, lists]
      exact agrees.calm none_left.1 (quiet.draining calm)
    · rw [signals.told] at none_left
      cases none_left.2
    · rw [data.told] at none_left
      cases none_left.2

/-- Wherever `rxPdo` returned false, the Data PDOs published by then behind
`first` had been returned. -/
def Exhausts (S : Setup) (left : List Published) (first : Published)
    (returns : List RxPdo) : Prop :=
  ∀ earlier rx later, returns = earlier ++ rx :: later → rx.result = false →
    ∃ more, Task.pdos rx.events = left ++ first :: more ∧
      List.Forall₂ (Delivers S) (earlier.filter RxPdo.result)
        (more.filter Published.isData)

theorem Exhausts.concat {returns : List RxPdo} {last : RxPdo}
    (exhausts : Exhausts S left first returns)
    (at_end : last.result = false → ∃ more, Task.pdos last.events = left ++ first :: more ∧
      List.Forall₂ (Delivers S) (returns.filter RxPdo.result)
        (more.filter Published.isData)) :
    Exhausts S left first (returns ++ [last]) := by
  intro earlier rx later split untrue
  rcases List.eq_nil_or_concat later with rfl | ⟨before, final, rfl⟩
  · obtain ⟨rfl, single⟩ := List.append_inj' split rfl
    obtain rfl := (List.cons.inj single).1
    exact at_end untrue
  · have split' : returns ++ [last] = (earlier ++ rx :: before) ++ [final] := by
      simpa using split
    exact exhausts earlier rx before (List.append_inj' split' rfl).1 untrue

/-- A session that has been constructed on the PDO `first` and stands on `here` now. -/
structure Receives (S : Setup) (left : List Published) (first : Published) (stream : Stream)
    (front : List Published) (here : Published) (rest : List Published)
    (list : List Nat) : Prop where
  standing : Standing stream (left ++ front) here rest
  starts : (front ++ [here]).head? = some first
  phase : (∃ result, stream.phase = .ready result) ∨ stream.phase = .receiving
  agrees : Agrees S stream rest list
  seqNo_lt : stream.data.seqNo < 2 ^ 32
  seqNo : (stream.data.seqNo + 1) % 2 ^ 32 =
    Task.dataCount (left ++ (front ++ [here])) % 2 ^ 32
  delivered : List.Forall₂ (Delivers S) (stream.returns.filter RxPdo.result)
    ((front ++ [here]).tail.filter Published.isData)
  exhausts : Exhausts S left first stream.returns

namespace Receives

variable {subscriptionId : Nat → Nat}

/-- All PDOs but the first, and the number of Data PDOs, when one more is passed. -/
theorem tail_concat (front : List Published) (here next : Published) :
    (front ++ [here] ++ [next]).tail = (front ++ [here]).tail ++ [next] :=
  List.tail_append_of_ne_nil (by simp)

theorem head_concat (starts : (front ++ [here]).head? = some first) (next : Published) :
    (front ++ [here] ++ [next]).head? = some first := by
  rw [List.head?_append_of_ne_nil _ (by simp)]
  exact starts

theorem starts_cons (starts : (front ++ [here]).head? = some first) :
    front ++ [here] = first :: (front ++ [here]).tail := by
  obtain ⟨tail, same⟩ := List.head?_eq_some_iff.mp starts
  rw [same]
  rfl

theorem stay (receives : Receives S left first stream front here rest list)
    (events : after.events = stream.events) (task : after.task = stream.task)
    (returns : after.returns = stream.returns)
    (phase : (∃ result, after.phase = .ready result) ∨ after.phase = .receiving)
    (pdo : after.data.pdo = stream.data.pdo) (seqNo : after.data.seqNo = stream.data.seqNo)
    (id : after.data.signalListId = stream.data.signalListId)
    (loaded : after.data.Loaded S list) :
    Receives S left first after front here rest list where
  standing := receives.standing.stay events task pdo
  starts := receives.starts
  phase := phase
  agrees := by
    refine ⟨loaded, ?_, ?_⟩
    · rw [id]
      exact receives.agrees.next
    · rw [id, task]
      exact receives.agrees.calm
  seqNo_lt := by
    rw [seqNo]
    exact receives.seqNo_lt
  seqNo := by
    rw [seqNo]
    exact receives.seqNo
  delivered := by
    rw [returns]
    exact receives.delivered
  exhausts := by
    rw [returns]
    exact receives.exhausts

theorem task_step {action : StreamAction} {taken : Task.Action} {new : List TaskEvent}
    (receives : Receives S left first stream front here rest list)
    (run : TaskRun S stream.task stream.events) (safe : NoOverwrite S own stream action)
    (done : stream.step S own action = some after)
    (step : stream.task.step S taken = some (after.task, new))
    (events : after.events = stream.events ++ new) (returns : after.returns = stream.returns)
    (phase : after.phase = stream.phase)
    (pdo : after.data.pdo = stream.data.pdo) (seqNo : after.data.seqNo = stream.data.seqNo)
    (id : after.data.signalListId = stream.data.signalListId)
    (loaded : after.data.Loaded S list) :
    Receives S left first after front here (rest ++ Task.pdos new) list where
  standing := by
    apply receives.standing.task_step run step events pdo
    rw [← receives.standing.notLeft_eq]
    exact noOverwrite_apart safe done events
  starts := receives.starts
  phase := by
    rw [phase]
    exact receives.phase
  agrees := receives.agrees.task_step run step loaded id
  seqNo_lt := by
    rw [seqNo]
    exact receives.seqNo_lt
  seqNo := by
    rw [seqNo]
    exact receives.seqNo
  delivered := by
    rw [returns]
    exact receives.delivered
  exhausts := by
    rw [returns]
    exact receives.exhausts

/-! ### A turn of `rxPdo` -/

theorem seqNo_next {pdo : DataPdo} (run : TaskRun S stream.task stream.events)
    (receives : Receives S left first stream front here (.data pdo :: rest) list) :
    (pdo.seqNo + 2 ^ 32 - stream.data.seqNo) % 2 ^ 32 = 1 ∧
      pdo.seqNo = (stream.data.seqNo + 1) % 2 ^ 32 := by
  have split : Task.pdos stream.events =
      (left ++ (front ++ [here])) ++ .data pdo :: rest := by
    rw [receives.standing.split]
    simp
  have number := run.ordered.numbered _ _ _ split
  have before := receives.seqNo
  have small := receives.seqNo_lt
  omega

/-- The next Data PDO passes all checks. -/
theorem receive_data {pdo : DataPdo} (run : TaskRun S stream.task stream.events)
    (receives : Receives S left first stream front here (.data pdo :: rest) list) :
    stream.data.receive S subscriptionId stream.memory =
      (.data, { stream.data with
        pdo := pdo.address
        seqNo := pdo.seqNo
        signalBuffer := some (pdo.address + 72) }, []) := by
  have standing := receives.standing
  obtain ⟨id, lists⟩ := receives.agrees.next _ rfl rfl
  obtain ⟨distance, -⟩ := seqNo_next run receives
  have member : .data pdo ∈ Task.pdos stream.events := by simp [standing.split]
  apply SessionTaskData.receive_loaded standing.meets
  · exact standing.placed run (.data pdo) (by simp)
  · rw [run.follows.length_data member, lists, receives.agrees.loaded.pdoSize]
  · exact id
  · exact distance

theorem receive_signals {pdo : SignalsPdo} (run : TaskRun S stream.task stream.events)
    (receives : Receives S left first stream front here (.signals pdo :: rest) list) :
    ∃ data told, stream.data.receive S subscriptionId stream.memory = (.list, data, told) ∧
      SessionTaskData.LoadsList S subscriptionId { stream.data with pdo := pdo.address }
        pdo.signals pdo.signalListId data told := by
  have standing := receives.standing
  have placed := standing.placed run (.signals pdo) (by simp)
  have member : .signals pdo ∈ Task.pdos stream.events := by simp [standing.split]
  obtain ⟨nodup, known⟩ := run.follows.list_fit _ member
  exact ⟨_, _, SessionTaskData.receive_signals standing.meets placed known,
    SessionTaskData.loadSignalList_spec nodup _ _⟩

theorem receive_ended (subscriptionId : Nat → Nat)
    (receives : Receives S left first stream front here [] list) :
    stream.data.receive S subscriptionId stream.memory = (.ended, stream.data, []) :=
  SessionTaskData.receive_ended receives.standing.next_nil

/-- What a turn reads is what comes next. -/
theorem reading {outcome : SessionTaskData.Received × SessionTaskData × List Nat}
    (run : TaskRun S stream.task stream.events)
    (receives : Receives S left first stream front here rest list)
    (result : stream.data.receive S subscriptionId stream.memory = outcome) :
    SessionTaskData.Reading S subscriptionId stream.data (rest = [])
      (fun pdo => ∃ later, rest = .data pdo :: later)
      (fun pdo => ∃ later, rest = .signals pdo :: later) outcome := by
  rw [← result]
  cases rest with
  | nil =>
      rw [receives.receive_ended subscriptionId]
      exact .ended rfl
  | cons next later =>
      cases next with
      | data pdo =>
          rw [receive_data run receives]
          exact .data pdo ⟨later, rfl⟩
      | signals pdo =>
          obtain ⟨data, told, read, loads⟩ := receive_signals run receives
          rw [read]
          exact .signals pdo ⟨later, rfl⟩ loads

/-- `rxPdo` returns at the end of the chain. -/
theorem return_false {rx : RxPdo}
    (receives : Receives S left first stream front here [] list)
    (events : after.events = stream.events) (task : after.task = stream.task)
    (phase : ∃ result, after.phase = .ready result) (data : after.data = stream.data)
    (returns : after.returns = stream.returns ++ [rx]) (result : rx.result = false)
    (noted : rx.events = stream.events) :
    Receives S left first after front here [] list where
  standing := receives.standing.stay events task (by rw [data])
  starts := receives.starts
  phase := .inl phase
  agrees := by
    refine ⟨?_, ?_, ?_⟩
    · rw [data]
      exact receives.agrees.loaded
    · rw [data]
      exact receives.agrees.next
    · rw [data, task]
      exact receives.agrees.calm
  seqNo_lt := by
    rw [data]
    exact receives.seqNo_lt
  seqNo := by
    rw [data]
    exact receives.seqNo
  delivered := by
    rw [returns, List.filter_append, List.filter_cons_of_neg (by simp [result]),
      List.filter_nil, List.append_nil]
    exact receives.delivered
  exhausts := by
    rw [returns]
    apply receives.exhausts.concat
    intro _
    refine ⟨(front ++ [here]).tail, ?_, receives.delivered⟩
    rw [← starts_cons receives.starts, ← List.append_assoc, noted]
    exact receives.standing.split

/-- The loop goes on behind a SignalList PDO. -/
theorem next_signals {pdo : SignalsPdo} {before : SessionTaskData} {told : List Nat}
    (run : TaskRun S stream.task stream.events)
    (receives : Receives S left first stream front here (.signals pdo :: rest) list)
    (loads : SessionTaskData.LoadsList S subscriptionId before
      pdo.signals pdo.signalListId after.data told)
    (place : before.pdo = pdo.address) (number : before.seqNo = stream.data.seqNo)
    (events : after.events = stream.events) (task : after.task = stream.task)
    (returns : after.returns = stream.returns) (phase : after.phase = .receiving) :
    Receives S left first after (front ++ [here]) (.signals pdo) rest pdo.signals := by
  have standing : Standing after (left ++ (front ++ [here])) (.signals pdo) rest := by
    have moved := receives.standing.move events task (loads.pdo.trans place)
    rwa [List.append_assoc] at moved
  have seqNo : after.data.seqNo = stream.data.seqNo := loads.seqNo.trans number
  constructor
  case standing =>
    exact standing
  case starts =>
    exact head_concat receives.starts _
  case phase =>
    exact .inr phase
  case agrees =>
    apply Agrees.of_here standing
    · rw [task, events]
      exact run
    · exact loads.loaded
    · exact loads.signalListId.symm
  case seqNo_lt =>
    rw [seqNo]
    exact receives.seqNo_lt
  case seqNo =>
    rw [← List.append_assoc left, Task.dataCount_append, Task.dataCount_signals, seqNo]
    exact receives.seqNo
  case delivered =>
    rw [returns, tail_concat, List.filter_append]
    exact (List.append_nil _).symm ▸ receives.delivered
  case exhausts =>
    rw [returns]
    exact receives.exhausts

/-- `rxPdo` returns with the next Data PDO. -/
theorem return_true {pdo : DataPdo} {rx : RxPdo} (run : TaskRun S stream.task stream.events)
    (receives : Receives S left first stream front here (.data pdo :: rest) list)
    (data : after.data = { stream.data with
      pdo := pdo.address
      seqNo := pdo.seqNo
      signalBuffer := some (pdo.address + 72) })
    (events : after.events = stream.events) (task : after.task = stream.task)
    (phase : ∃ result, after.phase = .ready result)
    (returns : after.returns = stream.returns ++ [rx]) (result : rx.result = true)
    (noted : rx.data = after.data) (memory : rx.memory = stream.memory)
    (happened : rx.events = stream.events) (time : rx.time = some (pdo.address + 24)) :
    Receives S left first after (front ++ [here]) (.data pdo) rest list := by
  obtain ⟨id, lists⟩ := receives.agrees.next _ rfl rfl
  obtain ⟨-, number⟩ := seqNo_next run receives
  have standing : Standing after (left ++ (front ++ [here])) (.data pdo) rest := by
    have moved := receives.standing.move events task (by rw [data]; rfl)
    rwa [List.append_assoc] at moved
  have loaded : after.data.Loaded S (Published.list (.data pdo)) := by
    rw [lists, data]
    have before := receives.agrees.loaded
    exact ⟨before.transferred, before.pdoSize, before.position⟩
  have seqNo : after.data.seqNo = pdo.seqNo := by rw [data]
  have before := receives.seqNo
  constructor
  case standing =>
    exact standing
  case starts =>
    exact head_concat receives.starts _
  case phase =>
    exact .inl phase
  case agrees =>
    rw [← lists]
    apply Agrees.of_here standing
    · rw [task, events]
      exact run
    · exact loaded
    · rw [data]
      exact id
  case seqNo_lt =>
    rw [seqNo, number]
    omega
  case seqNo =>
    rw [← List.append_assoc left, Task.dataCount_append, Task.dataCount_data, seqNo, number]
    omega
  case delivered =>
    rw [returns, tail_concat, List.filter_append, List.filter_append]
    apply List.rel_append receives.delivered
    have same : rx.memory = after.memory := by
      rw [memory, Stream.memory, ← task, Stream.memory]
    have held := standing.readable.first _ rfl
    have member : .data pdo ∈ Task.pdos stream.events := by
      simp [receives.standing.split]
    rw [List.filter_cons_of_pos result, List.filter_cons_of_pos rfl]
    refine .cons ?_ .nil
    rw [← happened] at run member
    apply Delivers.of_data run member
    · rw [same]
      exact held.1
    · rw [same]
      exact held.2 rfl
    · rw [noted]
      exact loaded
    · rw [noted]
      exact seqNo
    · rw [noted, data]
    · exact time
  case exhausts =>
    rw [returns]
    apply receives.exhausts.concat
    rw [result]
    intro untrue
    cases untrue

/-- What holds of a session in `rxPdo` or outside of it, wherever it stands. -/
theorem step {action : StreamAction} (run : TaskRun S stream.task stream.events)
    (receives : Receives S left first stream front here rest list)
    (safe : NoOverwrite S own stream action)
    (done : stream.step S own action = some after) :
    ∃ front here rest list, Receives S left first after front here rest list := by
  have loaded := receives.agrees.loaded
  have phases : ∀ {phase : SessionPhase}, stream.phase = phase →
      (∃ result, phase = .ready result) ∨ phase = .receiving := by
    intro phase same
    rw [← same]
    exact receives.phase
  cases steps done with
  | task other taken =>
      exact ⟨front, here, _, list,
        receives.task_step run safe done taken rfl rfl rfl rfl rfl rfl loaded⟩
  | construct phase => simpa using phases phase
  | rxPdo phase =>
      exact ⟨front, here, rest, list,
        receives.stay rfl rfl rfl (.inr rfl) rfl rfl rfl loaded⟩
  | catchUp phase => simpa using phases phase
  | list phase => simpa using phases phase
  | other phase => simpa using phases phase
  | older phase => simpa using phases phase
  | found phase => simpa using phases phase
  | next phase => simpa using phases phase
  | ended phase result =>
      cases reading run receives result with
      | ended last =>
          subst last
          refine ⟨front, here, [], list, ?_⟩
          apply receives.return_false
          · rfl
          · rfl
          · exact ⟨_, rfl⟩
          · rfl
          · rfl
          · rfl
          · rfl
  | data phase result =>
      cases reading run receives result with
      | data pdo follows =>
          obtain ⟨later, rfl⟩ := follows
          refine ⟨front ++ [here], .data pdo, later, list, ?_⟩
          apply receives.return_true run
          · rfl
          · rfl
          · rfl
          · exact ⟨_, rfl⟩
          · rfl
          · rfl
          · rfl
          · rfl
          · rfl
          · rfl
  | signals phase result =>
      cases reading run receives result with
      | signals pdo follows loads =>
          obtain ⟨later, rfl⟩ := follows
          refine ⟨front ++ [here], .signals pdo, later, pdo.signals, ?_⟩
          apply receives.next_signals run loads
          · rfl
          · rfl
          · rfl
          · rfl
          · rfl
          · exact phase
  | outOfSync phase result => cases reading run receives result
  | active phase active =>
      exact ⟨front, here, rest, list,
        receives.stay rfl rfl rfl (.inl ⟨_, phase⟩) rfl rfl rfl loaded⟩
  | subscribed phase subscribed => exact ⟨front, here, rest, list, receives⟩
  | activate phase fresh taken result transferred =>
      exact ⟨front, here, _, list,
        receives.task_step run safe done taken rfl rfl rfl rfl rfl rfl
          ⟨loaded.transferred, loaded.pdoSize, loaded.position⟩⟩
  | subscribe phase inactive fresh taken =>
      exact ⟨front, here, _, list,
        receives.task_step run safe done taken rfl rfl rfl rfl rfl rfl
          ⟨loaded.transferred, loaded.pdoSize, loaded.position⟩⟩
  | unsubscribe phase subscribed taken =>
      exact ⟨front, here, _, list,
        receives.task_step run safe done taken rfl rfl rfl rfl rfl rfl
          ⟨loaded.transferred, loaded.pdoSize, loaded.position⟩⟩
  | unknown phase fresh => exact ⟨front, here, rest, list, receives⟩

end Receives

end Stream

end PdServ
