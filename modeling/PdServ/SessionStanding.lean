import PdServ.SessionTurns

/-!
Where a session stands among the PDOs of its task, as long as the writer does
not overwrite what the session has not left yet.
-/

namespace PdServ

/-- The PDOs from the last one at this address on. -/
def notLeft (p : Nat) : List Published → List Published
  | [] => []
  | pdo :: rest =>
      if pdo.address = p ∧ ∀ other ∈ rest, other.address ≠ p then pdo :: rest
      else notLeft p rest

theorem notLeft_append {p : Nat} {here : Published} (left rest : List Published)
    (address : here.address = p) (apart : ∀ other ∈ rest, other.address ≠ p) :
    notLeft p (left ++ here :: rest) = here :: rest := by
  induction left with
  | nil => exact if_pos ⟨address, apart⟩
  | cons pdo left ih =>
      refine (if_neg ?_).trans ih
      rintro ⟨-, others⟩
      exact others here (by simp) address

/-- Nothing is published over a PDO that the session has not left yet. -/
def NoOverwrite (S : Setup) (own : Nat) (stream : Stream) (action : StreamAction) : Prop :=
  ∀ after, stream.step S own action = some after →
    ∀ new ∈ (Task.pdos after.events).drop (Task.pdos stream.events).length,
      ∀ old ∈ notLeft stream.data.pdo (Task.pdos stream.events),
        Areas.Apart (old.address, old.size) (new.address, new.size)

namespace Stream

variable {S : Setup} {own : Nat} {stream after : Stream}
  {left rest : List Published} {here : Published}

theorem noOverwrite_apart {action : StreamAction} {new : List TaskEvent}
    (safe : NoOverwrite S own stream action) (done : stream.step S own action = some after)
    (events : after.events = stream.events ++ new) :
    ∀ pdo ∈ Task.pdos new, ∀ old ∈ notLeft stream.data.pdo (Task.pdos stream.events),
      Areas.Apart (old.address, old.size) (pdo.address, pdo.size) := by
  intro pdo member
  apply safe after done
  rw [events, Task.pdos_append, List.drop_left]
  exact member

/-- The session stands on a PDO and can read it and all later ones. -/
structure Standing (stream : Stream) (left : List Published) (here : Published)
    (rest : List Published) : Prop where
  split : Task.pdos stream.events = left ++ here :: rest
  address : here.address = stream.data.pdo
  readable : Readable stream.memory (here :: rest)

namespace Standing

theorem notLeft_eq (standing : Standing stream left here rest) :
    notLeft stream.data.pdo (Task.pdos stream.events) = here :: rest := by
  rw [standing.split]
  apply notLeft_append left rest standing.address
  intro other member same
  have apart := (List.pairwise_cons.mp standing.readable.apart).1 other member
  have sized := here.size_ge
  have sized' := other.size_ge
  have address := standing.address
  dsimp only [Areas.Apart] at apart
  omega

/-- A step of the task goes on behind the PDOs the session has before it. -/
theorem task_step {taken : Task.Action} {new : List TaskEvent}
    (standing : Standing stream left here rest) (run : TaskRun S stream.task stream.events)
    (done : stream.task.step S taken = some (after.task, new))
    (events : after.events = stream.events ++ new) (pdo : after.data.pdo = stream.data.pdo)
    (apart : ∀ pdo ∈ Task.pdos new, ∀ old ∈ here :: rest,
      Areas.Apart (old.address, old.size) (pdo.address, pdo.size)) :
    Standing after left here (rest ++ Task.pdos new) := by
  have follows := run.follows
  have streams := run.streams
  have later := (follows.step done).sized
  have publish : ∀ {new' : Published} {stores : List (Nat × List UInt8)},
      Task.pdos new = [new'] → Task.Publishes S stream.task after.task new' stores →
      Readable after.memory (here :: rest ++ [new']) := by
    intro new' stores only publishes
    have some_pdos : Task.pdos stream.events ≠ [] := by
      rw [standing.split]
      simp
    obtain ⟨earlier, front, last, split, lap⟩ := streams.lap some_pdos
    obtain ⟨front', same⟩ : ∃ front', here :: rest = front' ++ [last] := by
      rcases List.eq_nil_or_concat rest with rfl | ⟨init, final, rfl⟩
      · refine ⟨[], ?_⟩
        have both := standing.split.symm.trans (split.trans (List.append_assoc ..).symm)
        rw [(List.append_inj' both rfl).2]
        rfl
      · refine ⟨here :: init, ?_⟩
        have both : left ++ here :: init ++ [final] = earlier ++ front ++ [last] := by
          have := standing.split.symm.trans split
          simpa using this
        rw [List.concat_eq_append, ← (List.append_inj' both rfl).2]
        rfl
    have readable := standing.readable
    rw [same] at readable ⊢
    rw [List.append_assoc]
    apply readable.publish publishes
    · apply Published.Sized.small (S := S)
      apply later
      rw [Task.pdos_append, only]
      exact List.mem_append_right _ (List.mem_singleton_self _)
    · exact lap.nextTxPdo
    · rw [← same]
      apply apart
      rw [only]
      exact List.mem_singleton_self _
  constructor
  · rw [events, Task.pdos_append, standing.split]
    simp
  · rw [pdo]
    exact standing.address
  · rcases Task.step_cases follows streams.seqNo done with quiet | ⟨pdo, signals⟩ | ⟨pdo, data⟩
    · rw [quiet.none_new, List.append_nil]
      have memory : after.memory = stream.memory := quiet.memory
      rw [memory]
      exact standing.readable
    · have told := signals.told
      subst told
      exact publish rfl signals.publishes
    · obtain ⟨stores, publishes⟩ := data.publishes
      have told := data.told
      subst told
      exact publish rfl publishes

/-- A step of the session that stays on its PDO. -/
theorem stay (standing : Standing stream left here rest) (events : after.events = stream.events)
    (task : after.task = stream.task) (pdo : after.data.pdo = stream.data.pdo) :
    Standing after left here rest := by
  have memory : after.memory = stream.memory := by rw [Stream.memory, task, Stream.memory]
  constructor
  · rw [events]
    exact standing.split
  · rw [pdo]
    exact standing.address
  · rw [memory]
    exact standing.readable

/-- The session goes on to the next PDO. -/
theorem move {next : Published} (standing : Standing stream left here (next :: rest))
    (events : after.events = stream.events) (task : after.task = stream.task)
    (pdo : after.data.pdo = next.address) : Standing after (left ++ [here]) next rest := by
  have memory : after.memory = stream.memory := by rw [Stream.memory, task, Stream.memory]
  constructor
  · rw [events, standing.split]
    simp
  · exact pdo.symm
  · rw [memory]
    exact standing.readable.tail

theorem next_nil (standing : Standing stream left here []) :
    Pdo.next stream.memory stream.data.pdo = 0 := by
  rw [← standing.address]
  exact standing.readable.linked

theorem next_cons {next : Published} (standing : Standing stream left here (next :: rest)) :
    Pdo.next stream.memory stream.data.pdo = next.address := by
  rw [← standing.address]
  exact standing.readable.linked.1

theorem meets {next : Published} (standing : Standing stream left here (next :: rest)) :
    SessionTaskData.Meets stream.memory stream.data next := by
  have held := standing.readable.rest next List.mem_cons_self
  exact ⟨standing.next_cons, held.1, held.2⟩

theorem placed (standing : Standing stream left here rest)
    (run : TaskRun S stream.task stream.events) :
    ∀ pdo ∈ here :: rest, pdo.Placed S := by
  intro pdo member
  apply run.ordered.placed
  rw [standing.split]
  exact List.mem_append_right _ member

end Standing

/-! ### Until the session is constructed -/

/-- The list after a part of the changes, with its number; the part is not
shorter than what was applied when the session was constructed. -/
def Later (S : Setup) (stream : Stream) (id : Nat) (list : List Nat) : Prop :=
  ∃ part, part <+: Task.published stream.events ∧ stream.since ≤ part.length ∧
    id = part.length % 2 ^ 32 ∧ list = (List.range 4).flatMap (listsAfter S part)

theorem Later.mono {id : Nat} {list : List Nat} {new : List TaskEvent}
    (later : Later S stream id list) (events : after.events = stream.events ++ new)
    (since : after.since = stream.since) : Later S after id list := by
  obtain ⟨part, early, long, number, same⟩ := later
  refine ⟨part, ?_, ?_, number, same⟩
  · rw [events, Task.published_append]
    exact early.trans (List.prefix_append _ _)
  · rw [since]
    exact long

theorem Later.same {id : Nat} {list : List Nat} (later : Later S stream id list)
    (events : after.events = stream.events) (since : after.since = stream.since) :
    Later S after id list :=
  later.mono (by rw [events, List.append_nil]) since

/-- With few changes since the session was constructed, the number says which
list it is. -/
theorem Later.unique {id : Nat} {list list' : List Nat}
    (few : (Task.published stream.events).length < stream.since + 2 ^ 32)
    (one : Later S stream id list) (other : Later S stream id list') : list = list' := by
  obtain ⟨part, early, long, number, rfl⟩ := one
  obtain ⟨part', early', long', number', rfl⟩ := other
  have bound := early.length_le
  have bound' := early'.length_le
  have length : part.length = part'.length := by omega
  rw [(List.prefix_of_prefix_length_le early early' length.le).eq_of_length length]

/-- The session has caught up: it stands on a PDO, or no PDO is there yet. -/
def Caught (S : Setup) (stream : Stream) : Prop :=
  (Task.pdos stream.events = [] ∧ stream.data.pdo = S.txMemBegin) ∨
    ∃ left here rest, Standing stream left here rest ∧
      ∀ pdo ∈ rest, Later S stream pdo.signalListId pdo.list

structure Constructing (stream : Stream) : Prop where
  returns : stream.returns = []
  since : stream.since ≤ (Task.processed stream.events).length

/-- A session in its constructor. -/
structure Tracks (S : Setup) (stream : Stream) : Prop where
  absent : stream.phase = .absent → stream.returns = [] ∧ stream.data.pdo = 0
  catchingUp : stream.phase = .catchingUp .constructor → stream.Constructing ∧
    (stream.data.pdo = 0 ∨
      ∃ left here next rest, Standing stream left here (next :: rest))
  listing : stream.phase = .listing .constructor → stream.Constructing ∧ Caught S stream
  checking : ∀ signals, stream.phase = .checking .constructor signals ∨
      stream.phase = .awaiting .constructor signals →
    stream.Constructing ∧ Caught S stream ∧ Later S stream stream.data.signalListId signals

/-- Before the end of the constructor. -/
def unborn : SessionPhase → Bool
  | .absent => true
  | .catchingUp caller => caller = .constructor
  | .listing caller => caller = .constructor
  | .checking caller _ => caller = .constructor
  | .awaiting caller _ => caller = .constructor
  | _ => false

theorem Tracks.born (born : unborn after.phase = false) : Tracks S after := by
  constructor
  case absent =>
    intro phase
    rw [phase] at born
    cases born
  case catchingUp =>
    intro phase
    rw [phase] at born
    cases born
  case listing =>
    intro phase
    rw [phase] at born
    cases born
  case checking =>
    intro signals phase
    rcases phase with phase | phase <;>
      · rw [phase] at born
        cases born

/-- In the catch-up loop. -/
theorem Tracks.atCatchingUp (phase : after.phase = .catchingUp .constructor)
    (constructing : after.Constructing)
    (place : after.data.pdo = 0 ∨
      ∃ left here next rest, Standing after left here (next :: rest)) : Tracks S after where
  absent := by
    intro other
    cases phase.symm.trans other
  catchingUp := fun _ => ⟨constructing, place⟩
  listing := by
    intro other
    cases phase.symm.trans other
  checking := by
    rintro signals (other | other) <;> cases phase.symm.trans other

/-- In front of the call for the list. -/
theorem Tracks.atListing (phase : after.phase = .listing .constructor)
    (constructing : after.Constructing) (caught : Caught S after) : Tracks S after where
  absent := by
    intro other
    cases phase.symm.trans other
  catchingUp := by
    intro other
    cases phase.symm.trans other
  listing := fun _ => ⟨constructing, caught⟩
  checking := by
    rintro signals (other | other) <;> cases phase.symm.trans other

/-- With a list, on the way to the next PDO. -/
theorem Tracks.atChecking {signals : List Nat}
    (phase : after.phase = .checking .constructor signals ∨
      after.phase = .awaiting .constructor signals)
    (constructing : after.Constructing) (caught : Caught S after)
    (later : Later S after after.data.signalListId signals) : Tracks S after where
  absent := by
    intro other
    rcases phase with phase | phase <;> cases phase.symm.trans other
  catchingUp := by
    intro other
    rcases phase with phase | phase <;> cases phase.symm.trans other
  listing := by
    intro other
    rcases phase with phase | phase <;> cases phase.symm.trans other
  checking := by
    rintro signals' (other | other) <;> rcases phase with phase | phase <;>
      cases phase.symm.trans other
    · exact ⟨constructing, caught, later⟩
    · exact ⟨constructing, caught, later⟩

theorem Constructing.task {new : List TaskEvent} (constructing : stream.Constructing)
    (returns : after.returns = stream.returns) (since : after.since = stream.since)
    (events : after.events = stream.events ++ new) : after.Constructing := by
  constructor
  · rw [returns]
    exact constructing.returns
  · have before := constructing.since
    rw [since, events, Task.processed_append, List.length_append]
    omega

/-- The list of the real-time process is a later one. -/
theorem later_of_rt (run : TaskRun S stream.task stream.events)
    (since : stream.since ≤ (Task.processed stream.events).length) :
    Later S stream stream.task.rt.signalListId
      ((List.range 4).flatMap (Task.copied S stream.task.rt)) := by
  have follows := run.follows
  refine ⟨Task.processed stream.events, follows.behind, since, follows.applied, ?_⟩
  rw [follows.copied_eq]

/-- A PDO published after the session was constructed has a later list. -/
theorem later_of_publish {pdo : Published} {new : List TaskEvent}
    (run : TaskRun S stream.task stream.events)
    (since : stream.since ≤ (Task.processed stream.events).length)
    (events : after.events = stream.events ++ new) (same : after.since = stream.since)
    (id : pdo.signalListId = stream.task.rt.signalListId)
    (list : pdo.list = (List.range 4).flatMap (Task.copied S stream.task.rt)) :
    Later S after pdo.signalListId pdo.list := by
  rw [id, list]
  exact (later_of_rt run since).mono events same

theorem Caught.task {taken : Task.Action} {new : List TaskEvent}
    (caught : Caught S stream) (run : TaskRun S stream.task stream.events)
    (constructing : stream.Constructing)
    (done : stream.task.step S taken = some (after.task, new))
    (events : after.events = stream.events ++ new) (pdo : after.data.pdo = stream.data.pdo)
    (since : after.since = stream.since)
    (apart : ∀ pdo ∈ Task.pdos new,
      ∀ old ∈ notLeft stream.data.pdo (Task.pdos stream.events),
        Areas.Apart (old.address, old.size) (pdo.address, pdo.size)) :
    Caught S after := by
  have follows := run.follows
  have streams := run.streams
  have told : ∀ pdo ∈ Task.pdos new, Later S after pdo.signalListId pdo.list := by
    intro pdo member
    rcases Task.step_cases follows streams.seqNo done with quiet | ⟨pdo', signals⟩ | ⟨pdo', data⟩
    · rw [quiet.none_new] at member
      cases member
    · rw [signals.told] at member
      obtain rfl := List.mem_singleton.mp member
      exact later_of_publish run constructing.since events since signals.signalListId
        signals.signals
    · rw [data.told] at member
      obtain rfl := List.mem_singleton.mp member
      refine later_of_publish run constructing.since events since ?_ ?_
      · exact data.signalListId
      · rw [← data.copied]
        rfl
  rcases caught with ⟨none_there, begins⟩ | ⟨left, here, rest, standing, later⟩
  · have after_run : TaskRun S after.task (stream.events ++ new) := .step taken run done
    have longer : Task.pdos (stream.events ++ new) = Task.pdos new := by
      rw [Task.pdos_append, none_there, List.nil_append]
    -- The first PDO of all lies where the session waits for it.
    have first : ∀ new', Task.pdos new = [new'] → Caught S after := by
      intro new' only
      rw [only] at longer
      obtain ⟨earlier, front, last, split, lap⟩ := after_run.streams.lap (by simp [longer])
      rw [longer] at split
      have short := congrArg List.length split
      simp only [List.length_append, List.length_cons, List.length_nil] at short
      obtain rfl : earlier = [] := List.eq_nil_of_length_eq_zero (by omega)
      obtain rfl : front = [] := List.eq_nil_of_length_eq_zero (by omega)
      obtain rfl : new' = last := by simpa using split
      refine .inr ⟨[], new', [], ⟨?_, ?_, lap.readable⟩, by simp⟩
      · rw [events, longer]
        rfl
      · rw [pdo, begins]
        exact lap.begins new' rfl
    rcases Task.step_cases follows streams.seqNo done with quiet | ⟨pdo', signals⟩ | ⟨pdo', data⟩
    · left
      rw [events, longer, quiet.none_new, pdo]
      exact ⟨rfl, begins⟩
    · rw [signals.told] at first
      exact first _ rfl
    · rw [data.told] at first
      exact first _ rfl
  · right
    refine ⟨left, here, rest ++ Task.pdos new, ?_, ?_⟩
    · apply standing.task_step run done events pdo
      rw [← standing.notLeft_eq]
      exact apart
    · intro pdo member
      rcases List.mem_append.mp member with old | fresh
      · exact (later pdo old).mono events since
      · exact told pdo fresh

theorem Caught.quiet (caught : Caught S stream) (events : after.events = stream.events)
    (task : after.task = stream.task) (pdo : after.data.pdo = stream.data.pdo)
    (since : after.since = stream.since) : Caught S after := by
  rcases caught with ⟨none_there, begins⟩ | ⟨left, here, rest, standing, later⟩
  · left
    rw [events, pdo]
    exact ⟨none_there, begins⟩
  · refine .inr ⟨left, here, rest, standing.stay events task pdo, ?_⟩
    intro other member
    exact (later other member).same events since

theorem clear_of_none (run : TaskRun S stream.task stream.events)
    (none_there : Task.pdos stream.events = []) (p : Nat) :
    Pdo.next stream.memory p = 0 ∧ Pdo.type stream.memory p = 0 := by
  have clear : stream.memory = fun _ => 0 := run.memory_clear none_there
  rw [clear]
  exact ⟨Memory.word_clear _ _, Memory.word_clear _ _⟩

/-- The catch-up loop goes to the first PDO of the lap, and then to the next one. -/
theorem catchUp_stands (run : TaskRun S stream.task stream.events)
    (before : stream.data.pdo = 0 ∨
      ∃ left here next rest, Standing stream left here (next :: rest))
    (events : after.events = stream.events) (task : after.task = stream.task)
    (data : after.data = stream.data.catchUp S stream.memory) :
    (Task.pdos stream.events = [] ∧ after.data.pdo = S.txMemBegin) ∨
      ∃ left here rest, Standing after left here rest := by
  have bottom := S.txMemBegin_pos
  rw [data]
  rcases before with none_yet | ⟨left, here, next, rest, standing⟩
  · have begins : (stream.data.catchUp S stream.memory).pdo = S.txMemBegin := by
      simp only [SessionTaskData.catchUp]
      rw [if_pos (by omega)]
    rw [begins]
    by_cases none_there : Task.pdos stream.events = []
    · exact .inl ⟨none_there, rfl⟩
    · right
      obtain ⟨earlier, front, last, split, lap⟩ := run.streams.lap none_there
      obtain ⟨first, rest, same⟩ : ∃ first rest, front ++ [last] = first :: rest := by
        cases front with
        | nil => exact ⟨last, [], rfl⟩
        | cons first front => exact ⟨first, front ++ [last], rfl⟩
      rw [same] at split
      have readable := lap.readable
      have address := lap.begins first (by rw [same]; rfl)
      rw [same] at readable
      refine ⟨earlier, first, rest, ?_, ?_, ?_⟩
      · rw [events]
        exact split
      · rw [data, begins]
        exact address
      · rw [Stream.memory, task]
        exact readable
  · right
    have placed := standing.placed run here List.mem_cons_self
    have address := standing.address
    have sized := here.size_ge
    obtain ⟨low, high⟩ := placed
    have moved : (stream.data.catchUp S stream.memory).pdo = next.address := by
      simp only [SessionTaskData.catchUp]
      rw [if_neg (by omega)]
      exact standing.next_cons
    exact ⟨left ++ [here], next, rest, standing.move events task (by rw [data, moved])⟩

/-- The catch-up loop ends at the last PDO. -/
theorem Tracks.catchUp (run : TaskRun S stream.task stream.events)
    (constructing : stream.Constructing)
    (before : stream.data.pdo = 0 ∨
      ∃ left here next rest, Standing stream left here (next :: rest))
    (events : after.events = stream.events) (task : after.task = stream.task)
    (since : after.since = stream.since) (returns : after.returns = stream.returns)
    (data : after.data = stream.data.catchUp S stream.memory)
    (phase : after.phase =
      if Pdo.next stream.memory (stream.data.catchUp S stream.memory).pdo = 0
      then .listing .constructor else .catchingUp .constructor) : Tracks S after := by
  have memory : after.memory = stream.memory := by rw [Stream.memory, task, Stream.memory]
  rw [← data, ← memory] at phase
  have constructing' : after.Constructing :=
    constructing.task returns since (by rw [events, List.append_nil])
  have run' : TaskRun S after.task after.events := by
    rw [task, events]
    exact run
  have listing : Pdo.next after.memory after.data.pdo = 0 → Caught S after → Tracks S after := by
    intro last caught
    rw [if_pos last] at phase
    exact .atListing phase constructing' caught
  rcases catchUp_stands run before events task data with
    ⟨none_there, begins⟩ | ⟨left, here, rest, standing⟩
  · rw [← events] at none_there
    exact listing (clear_of_none run' none_there _).1 (.inl ⟨none_there, begins⟩)
  · cases rest with
    | nil => exact listing standing.next_nil (.inr ⟨left, here, [], standing, by simp⟩)
    | cons next rest =>
        have placed := standing.placed run' next (by simp)
        have bottom := S.txMemBegin_pos
        have some_pdo : Pdo.next after.memory after.data.pdo ≠ 0 := by
          rw [standing.next_cons]
          have := placed.1
          omega
        rw [if_neg some_pdo] at phase
        exact .atCatchingUp phase constructing' (.inr ⟨left, here, next, rest, standing⟩)

theorem Tracks.step {action : StreamAction} (tracks : Tracks S stream)
    (run : TaskRun S stream.task stream.events) (safe : NoOverwrite S own stream action)
    (done : stream.step S own action = some after) : Tracks S after := by
  cases steps done with
  | @task action' task' new other taken =>
      have apart := noOverwrite_apart safe done rfl
      constructor
      case absent =>
        exact tracks.absent
      case catchingUp =>
        intro phase
        obtain ⟨constructing, place⟩ := tracks.catchingUp phase
        refine ⟨constructing.task rfl rfl rfl, ?_⟩
        rcases place with none_yet | ⟨left, here, next, rest, standing⟩
        · exact .inl none_yet
        · rw [standing.notLeft_eq] at apart
          exact .inr ⟨left, here, next, rest ++ Task.pdos new,
            standing.task_step run taken rfl rfl apart⟩
      case listing =>
        intro phase
        obtain ⟨constructing, caught⟩ := tracks.listing phase
        exact ⟨constructing.task rfl rfl rfl,
          caught.task run constructing taken rfl rfl rfl apart⟩
      case checking =>
        intro signals phase
        obtain ⟨constructing, caught, later⟩ := tracks.checking signals phase
        exact ⟨constructing.task rfl rfl rfl,
          caught.task run constructing taken rfl rfl rfl apart, later.mono rfl rfl⟩
  | construct absent =>
      obtain ⟨returns, pdo⟩ := tracks.absent absent
      exact .atCatchingUp rfl ⟨returns, Nat.le_refl _⟩ (.inl pdo)
  | @catchUp caller phase =>
      cases caller with
      | rxPdo =>
          apply Tracks.born
          dsimp only
          split <;> rfl
      | constructor =>
          obtain ⟨constructing, place⟩ := tracks.catchingUp phase
          apply Tracks.catchUp run constructing place
          · rfl
          · rfl
          · rfl
          · rfl
          · rfl
          · dsimp only
  | @list caller phase =>
      cases caller with
      | rxPdo => exact Tracks.born rfl
      | constructor =>
          obtain ⟨constructing, caught⟩ := tracks.listing phase
          -- the list of the last change, which the real-time process may not have made yet
          refine .atChecking (.inl rfl) ⟨constructing.returns, constructing.since⟩
            (caught.quiet rfl rfl rfl rfl)
            ⟨Task.published stream.events, List.prefix_refl _, ?_, ?_, ?_⟩
          · exact constructing.since.trans run.follows.behind.length_le
          · exact run.follows.last
          · exact congrArg (fun lists => (List.range 4).flatMap lists) run.follows.nrt.lists_eq
  | @other caller signals phase type =>
      cases caller with
      | rxPdo => exact Tracks.born rfl
      | constructor =>
          obtain ⟨constructing, caught, later⟩ := tracks.checking signals (.inl phase)
          exact .atChecking (.inr rfl) ⟨constructing.returns, constructing.since⟩
            (caught.quiet rfl rfl rfl rfl) (later.same rfl rfl)
  | @older caller signals phase type id =>
      cases caller with
      | rxPdo => exact Tracks.born rfl
      | constructor =>
          obtain ⟨constructing, caught, -⟩ := tracks.checking signals (.inl phase)
          exact .atListing rfl ⟨constructing.returns, constructing.since⟩
            (caught.quiet rfl rfl rfl rfl)
  | @next caller signals phase some_pdo =>
      cases caller with
      | rxPdo => exact Tracks.born rfl
      | constructor =>
          obtain ⟨constructing, caught, later⟩ := tracks.checking signals (.inr phase)
          refine .atChecking (.inl rfl) ⟨constructing.returns, constructing.since⟩ ?_
            (later.same rfl rfl)
          -- one PDO further
          rcases caught with ⟨none_there, begins⟩ | ⟨left, here, rest, standing, later⟩
          · exact absurd (clear_of_none run none_there _).1 some_pdo
          · cases rest with
            | nil => exact absurd standing.next_nil some_pdo
            | cons next rest =>
                refine .inr ⟨left ++ [here], next, rest, ?_, ?_⟩
                · apply standing.move
                  · rfl
                  · rfl
                  · exact standing.next_cons
                · intro pdo member
                  exact (later pdo (List.mem_cons_of_mem _ member)).same rfl rfl
  | @found caller signals phase type id =>
      apply Tracks.born
      cases caller <;> rfl
  | outOfSync phase result => exact Tracks.born rfl
  | rxPdo phase => exact Tracks.born rfl
  | ended phase result => exact Tracks.born rfl
  | data phase result => exact Tracks.born rfl
  | signals phase result | active phase active | subscribed phase subscribed
  | activate phase fresh taken result transferred | subscribe phase inactive fresh taken
  | unsubscribe phase subscribed taken | unknown phase fresh =>
      apply Tracks.born
      simp only [inform, phase]
      rfl

end Stream

end PdServ
