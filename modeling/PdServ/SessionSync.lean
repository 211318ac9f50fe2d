import PdServ.SessionTurns

/-!
What belongs together when `rxPdo` returns: the time and the statistics it
reports, the buffer of the values and the list of the session. The writer may
overwrite what the session stands on; as long as the session notices nothing of
it, everything is of one Data PDO.
-/

namespace PdServ

/-- What `rxPdo` reported is of one Data PDO, and so is what the session holds
when it returned true. -/
def RxPdo.Consistent (S : Setup) (rx : RxPdo) : Prop :=
  ∃ pdo, .data pdo ∈ Task.pdos rx.events ∧ Published.Header rx.memory (.data pdo) ∧
    rx.time = some (pdo.address + 24) ∧
    (rx.result = true →
      rx.statistics = some (pdo.address + 40) ∧
      rx.data.signalBuffer = some (pdo.address + 72) ∧
      Published.Body rx.memory (.data pdo) ∧
      rx.data.signalListId = pdo.signalListId ∧
      rx.data.Loaded S (Published.list (.data pdo)))

namespace Published

instance (m : Memory) : ∀ pdo : Published, Decidable (pdo.Header m)
  | .signals _ => inferInstanceAs (Decidable (_ ∧ _))
  | .data _ => inferInstanceAs (Decidable (_ ∧ _))

instance (m : Memory) : ∀ pdo : Published, Decidable (pdo.Body m)
  | .signals pdo => inferInstanceAs (Decidable (∀ i (_ : i < pdo.signals.length), _))
  | .data _ => inferInstanceAs (Decidable (_ = _))

end Published

/-! ### Inside and outside of `init` -/

namespace SessionPhase

variable {phase : SessionPhase} {caller : InitCaller} {signals : List Nat}
  {Known : List Nat → Prop}

theorem not_listed (outside : (∃ result, phase = .ready result) ∨ phase = .receiving) :
    ¬(phase = .checking caller signals ∨ phase = .awaiting caller signals) := by
  rcases outside with ⟨result, rfl⟩ | rfl <;> rintro (listed | listed) <;> cases listed

/-- In `init`, with a list that is known where one has been read. -/
def Searching (phase : SessionPhase) (Known : List Nat → Prop) : Prop :=
  (∃ caller, phase = .catchingUp caller) ∨ (∃ caller, phase = .listing caller) ∨
    ∃ caller signals, (phase = .checking caller signals ∨ phase = .awaiting caller signals) ∧
      Known signals

theorem Searching.known (searching : phase.Searching Known)
    (listed : phase = .checking caller signals ∨ phase = .awaiting caller signals) :
    Known signals := by
  rcases searching with ⟨_, rfl⟩ | ⟨_, rfl⟩ | ⟨_, _, rfl | rfl, known⟩ <;>
    rcases listed with listed | listed <;> cases listed
  · exact known
  · exact known

theorem Searching.inside (searching : phase.Searching Known) :
    ¬((∃ result, phase = .ready result) ∨ phase = .receiving) := by
  rcases searching with ⟨_, rfl⟩ | ⟨_, rfl⟩ | ⟨_, _, rfl | rfl, -⟩ <;>
    rintro (⟨result, outside⟩ | outside) <;> cases outside

end SessionPhase

/-! ### PDOs that are intact -/

namespace Stream

variable {S : Setup} {own : Nat} {stream after : Stream} {list : List Nat} {id : Nat}

/-- There is a PDO at this address, as it was published. -/
structure Intact (stream : Stream) (p : Nat) (pdo : Published) : Prop where
  published : pdo ∈ Task.pdos stream.events
  address : pdo.address = p
  header : pdo.Header stream.memory
  body : pdo.Body stream.memory

/-- In `rxPdo` the session goes on to an intact PDO that is a SignalList PDO or
the next Data PDO of its list, or it stands on an intact Data PDO at the end.
The number of its list stands for one list only. -/
def InSync (stream : Stream) : StreamAction → Prop
  | .turn => stream.phase = .receiving →
      (Task.published stream.events).length < 2 ^ 32 ∧
      (Pdo.next stream.memory stream.data.pdo = 0 →
        ∃ pdo, stream.Intact stream.data.pdo (.data pdo)) ∧
      (Pdo.next stream.memory stream.data.pdo ≠ 0 →
        (∃ pdo, stream.Intact (Pdo.next stream.memory stream.data.pdo) (.signals pdo)) ∨
        ∃ pdo, stream.Intact (Pdo.next stream.memory stream.data.pdo) (.data pdo) ∧
          pdo.signalListId = stream.data.signalListId ∧
          (pdo.seqNo + 2 ^ 32 - stream.data.seqNo) % 2 ^ 32 = 1)
  | _ => True

/-! ### Lists and their numbers -/

/-- The list after a part of the changes, with its number. -/
def Committed (S : Setup) (stream : Stream) (id : Nat) (list : List Nat) : Prop :=
  ∃ part, part <+: Task.published stream.events ∧
    id = part.length % 2 ^ 32 ∧ list = (List.range 4).flatMap (listsAfter S part)

theorem Committed.mono {new : List TaskEvent} (committed : Committed S stream id list)
    (events : after.events = stream.events ++ new) : Committed S after id list := by
  obtain ⟨part, early, number, same⟩ := committed
  refine ⟨part, ?_, number, same⟩
  rw [events, Task.published_append]
  exact early.trans (List.prefix_append _ _)

theorem Committed.same (committed : Committed S stream id list)
    (events : after.events = stream.events) : Committed S after id list :=
  committed.mono (by rw [events, List.append_nil])

/-- With few changes the number says which list it is. -/
theorem Committed.unique {list' : List Nat}
    (few : (Task.published stream.events).length < 2 ^ 32)
    (one : Committed S stream id list) (other : Committed S stream id list') :
    list = list' := by
  obtain ⟨part, early, number, rfl⟩ := one
  obtain ⟨part', early', number', rfl⟩ := other
  have bound := early.length_le
  have bound' := early'.length_le
  have length : part.length = part'.length := by omega
  rw [(List.prefix_of_prefix_length_le early early' length.le).eq_of_length length]

theorem Committed.nodup (run : TaskRun S stream.task stream.events)
    (committed : Committed S stream id list) : list.Nodup := by
  obtain ⟨part, early, -, rfl⟩ := committed
  exact (run.follows.log.part early).listsFit.all_nodup

theorem Intact.committed {p : Nat} {pdo : Published}
    (run : TaskRun S stream.task stream.events) (intact : stream.Intact p pdo) :
    Committed S stream pdo.signalListId pdo.list := by
  obtain ⟨part, early, number, same⟩ := run.follows.carries pdo intact.published
  exact ⟨part, early, number, same⟩

/-- What is loaded from an intact SignalList PDO. -/
theorem Intact.loads {subscriptionId : Nat → Nat} {data : SessionTaskData} {told : List Nat}
    {pdo : SignalsPdo} (run : TaskRun S stream.task stream.events)
    (intact : stream.Intact (Pdo.next stream.memory stream.data.pdo) (.signals pdo))
    (read : stream.data.receive S subscriptionId stream.memory = (.list, data, told)) :
    SessionTaskData.LoadsList S subscriptionId { stream.data with pdo := pdo.address }
      pdo.signals pdo.signalListId data told := by
  obtain ⟨nodup, fits⟩ := run.follows.list_fit _ intact.published
  rw [SessionTaskData.receive_signals ⟨intact.address.symm, intact.header, intact.body⟩
    (run.ordered.placed _ intact.published) fits] at read
  obtain ⟨-, same⟩ := Prod.mk.inj read
  have first : data = _ := (congrArg Prod.fst same).symm
  have second : told = _ := (congrArg Prod.snd same).symm
  rw [first, second]
  exact SessionTaskData.loadSignalList_spec nodup _ _

theorem getSignalList_committed (run : TaskRun S stream.task stream.events) :
    Committed S stream stream.task.getSignalList.2 stream.task.getSignalList.1 :=
  ⟨Task.published stream.events, List.prefix_refl _, run.follows.last,
    congrArg (fun lists => (List.range 4).flatMap lists) run.follows.nrt.lists_eq⟩

/-! ### A session that is in step -/

/-- `rxPdo` has called `init`. -/
def resynchronises : SessionPhase → Bool
  | .catchingUp caller => caller = .rxPdo
  | .listing caller => caller = .rxPdo
  | .checking caller _ => caller = .rxPdo
  | .awaiting caller _ => caller = .rxPdo
  | _ => false

structure InStep (S : Setup) (stream : Stream) : Prop where
  caller : resynchronises stream.phase = false
  listed : ∀ signals, stream.phase = .checking .constructor signals ∨
      stream.phase = .awaiting .constructor signals →
    Committed S stream stream.data.signalListId signals
  loaded : (∃ result, stream.phase = .ready result) ∨ stream.phase = .receiving →
    ∃ list, stream.data.Loaded S list ∧ Committed S stream stream.data.signalListId list
  returns : ∀ rx ∈ stream.returns, rx.Consistent S

namespace InStep

variable {subscriptionId : Nat → Nat}

/-- Only the constructor is in `init`. -/
theorem from_constructor (inStep : InStep S stream) {caller : InitCaller}
    (inside : stream.phase = .catchingUp caller ∨ stream.phase = .listing caller ∨
      ∃ signals, stream.phase = .checking caller signals ∨
        stream.phase = .awaiting caller signals) : caller = .constructor := by
  have outside := inStep.caller
  rcases inside with phase | phase | ⟨signals, phase | phase⟩ <;>
    rw [phase] at outside <;>
    cases caller <;> first | rfl | cases outside

/-- A step that leaves the session where it is. -/
theorem kept {new : List TaskEvent} (inStep : InStep S stream)
    (events : after.events = stream.events ++ new) (phase : after.phase = stream.phase)
    (id : after.data.signalListId = stream.data.signalListId)
    (loaded : ∀ list, stream.data.Loaded S list → after.data.Loaded S list)
    (returns : after.returns = stream.returns) : InStep S after where
  caller := by
    rw [phase]
    exact inStep.caller
  listed := by
    intro signals
    rw [phase, id]
    intro checking
    exact (inStep.listed signals checking).mono events
  loaded := by
    rw [phase, id]
    intro waiting
    obtain ⟨list, holds, committed⟩ := inStep.loaded waiting
    exact ⟨list, loaded list holds, committed.mono events⟩
  returns := by
    rw [returns]
    exact inStep.returns

/-- A step after which the session has a list and is outside of `init`. -/
theorem holding (phase : (∃ result, after.phase = .ready result) ∨ after.phase = .receiving)
    (loaded : after.data.Loaded S list)
    (committed : Committed S after after.data.signalListId list)
    (returns : ∀ rx ∈ after.returns, rx.Consistent S) : InStep S after where
  caller := by
    rcases phase with ⟨result, phase⟩ | phase <;> rw [phase] <;> rfl
  listed := fun _ checking => absurd checking (SessionPhase.not_listed phase)
  loaded := fun _ => ⟨list, loaded, committed⟩
  returns := returns

/-- A step of the constructor. -/
theorem constructing (inStep : InStep S stream) (returns : after.returns = stream.returns)
    (phase : after.phase = .catchingUp .constructor ∨ after.phase = .listing .constructor ∨
      ∃ signals, (after.phase = .checking .constructor signals ∨
          after.phase = .awaiting .constructor signals) ∧
        Committed S after after.data.signalListId signals) : InStep S after := by
  have searching : after.phase.Searching
      (Committed S after after.data.signalListId) := by
    rcases phase with phase | phase | ⟨signals, phase, committed⟩
    · exact .inl ⟨_, phase⟩
    · exact .inr (.inl ⟨_, phase⟩)
    · exact .inr (.inr ⟨_, signals, phase, committed⟩)
  constructor
  case caller =>
    rcases phase with phase | phase | ⟨signals, phase | phase, -⟩ <;> rw [phase] <;> rfl
  case listed =>
    exact fun _ checking => searching.known checking
  case loaded =>
    exact fun outside => absurd outside searching.inside
  case returns =>
    rw [returns]
    exact inStep.returns

end InStep

/-- A PDO with the number of the list the session has loaded carries that list. -/
theorem InStep.loaded_data {p : Nat} {pdo : DataPdo} (inStep : InStep S stream)
    (run : TaskRun S stream.task stream.events) (phase : stream.phase = .receiving)
    (inSync : InSync stream .turn) (intact : stream.Intact p (.data pdo))
    (number : pdo.signalListId = stream.data.signalListId) :
    SessionTaskData.Loaded S stream.data (Published.list (.data pdo)) := by
  obtain ⟨list, loaded, committed⟩ := inStep.loaded (.inr phase)
  obtain ⟨few, -⟩ := inSync phase
  have carried := intact.committed run
  have number' : (Published.data pdo).signalListId = stream.data.signalListId := number
  rw [number'] at carried
  rw [carried.unique few committed]
  exact loaded

/-- What a turn reads from an intact PDO. -/
theorem InStep.reading {subscriptionId : Nat → Nat}
    {outcome : SessionTaskData.Received × SessionTaskData × List Nat} (inStep : InStep S stream)
    (run : TaskRun S stream.task stream.events) (phase : stream.phase = .receiving)
    (inSync : InSync stream .turn)
    (result : stream.data.receive S subscriptionId stream.memory = outcome) :
    SessionTaskData.Reading S subscriptionId stream.data
      (∃ pdo, stream.Intact stream.data.pdo (.data pdo))
      (fun pdo => ∃ p, stream.Intact p (.data pdo) ∧
        pdo.signalListId = stream.data.signalListId)
      (fun pdo => ∃ p, stream.Intact p (.signals pdo)) outcome := by
  obtain ⟨-, last, further⟩ := inSync phase
  rw [← result]
  by_cases ended : Pdo.next stream.memory stream.data.pdo = 0
  · rw [SessionTaskData.receive_ended ended]
    exact .ended (last ended)
  · rcases further ended with ⟨pdo, intact⟩ | ⟨pdo, intact, number, next⟩
    · have placed := run.ordered.placed _ intact.published
      obtain ⟨nodup, known⟩ := run.follows.list_fit _ intact.published
      have meets : SessionTaskData.Meets stream.memory stream.data (.signals pdo) :=
        ⟨intact.address.symm, intact.header, intact.body⟩
      rw [SessionTaskData.receive_signals meets placed known]
      exact .signals pdo ⟨_, intact⟩ (SessionTaskData.loadSignalList_spec nodup _ _)
    · have placed := run.ordered.placed _ intact.published
      have meets : SessionTaskData.Meets stream.memory stream.data (.data pdo) :=
        ⟨intact.address.symm, intact.header, intact.body⟩
      have loaded := inStep.loaded_data run phase inSync intact number
      have size : pdo.bytes.length = stream.data.pdoSize := by
        rw [run.follows.length_data intact.published, loaded.pdoSize]
      rw [SessionTaskData.receive_loaded meets placed size number next]
      exact .data pdo ⟨_, intact, number⟩

theorem returns_concat {Holds : RxPdo → Prop} {rx : RxPdo}
    (before : ∀ rx ∈ stream.returns, Holds rx)
    (returns : after.returns = stream.returns ++ [rx]) (last : Holds rx) :
    ∀ rx ∈ after.returns, Holds rx := by
  rw [returns]
  intro other member
  rcases List.mem_append.mp member with old | fresh
  · exact before other old
  · obtain rfl := List.mem_singleton.mp fresh
    exact last

/-- `rxPdo` returns false on a Data PDO. -/
theorem Intact.consistent_ended {pdo : DataPdo} {rx : RxPdo}
    (intact : stream.Intact stream.data.pdo (.data pdo)) (result : rx.result = false)
    (events : rx.events = stream.events) (memory : rx.memory = stream.memory)
    (time : rx.time = some (stream.data.pdo + 24)) : rx.Consistent S := by
  refine ⟨pdo, ?_, ?_, ?_, ?_⟩
  · rw [events]
    exact intact.published
  · rw [memory]
    exact intact.header
  · rw [time, ← intact.address]
    rfl
  · rw [result]
    intro untrue
    cases untrue

/-- `rxPdo` returns true with the list of this Data PDO. -/
theorem Intact.consistent_data {p : Nat} {pdo : DataPdo} {rx : RxPdo}
    (intact : stream.Intact p (.data pdo))
    (events : rx.events = stream.events) (memory : rx.memory = stream.memory)
    (time : rx.time = some (pdo.address + 24))
    (statistics : rx.statistics = some (pdo.address + 40))
    (buffer : rx.data.signalBuffer = some (pdo.address + 72))
    (id : rx.data.signalListId = pdo.signalListId)
    (loaded : rx.data.Loaded S (Published.list (.data pdo))) : rx.Consistent S := by
  refine ⟨pdo, ?_, ?_, time, fun _ => ⟨statistics, buffer, ?_, id, loaded⟩⟩
  · rw [events]
    exact intact.published
  · rw [memory]
    exact intact.header
  · rw [memory]
    exact intact.body

theorem InStep.step {action : StreamAction} (inStep : InStep S stream)
    (run : TaskRun S stream.task stream.events) (inSync : InSync stream action)
    (done : stream.step S own action = some after) : InStep S after := by
  cases steps done with
  | task other taken =>
      apply inStep.kept <;> first | rfl | exact fun _ => id
  | construct phase => exact inStep.constructing rfl (.inl rfl)
  | rxPdo phase =>
      obtain ⟨list, loaded, committed⟩ := inStep.loaded (.inl ⟨_, phase⟩)
      exact .holding (.inr rfl) loaded (committed.same rfl) inStep.returns
  | catchUp phase =>
      obtain rfl := inStep.from_constructor (.inl phase)
      apply inStep.constructing
      · rfl
      · dsimp only
        split
        · exact .inr (.inl rfl)
        · exact .inl rfl
  | list phase =>
      obtain rfl := inStep.from_constructor (.inr (.inl phase))
      exact inStep.constructing rfl
        (.inr (.inr ⟨_, .inl rfl, (getSignalList_committed run).same rfl⟩))
  | @other _ signals phase type =>
      obtain rfl := inStep.from_constructor (.inr (.inr ⟨signals, .inl phase⟩))
      exact inStep.constructing rfl
        (.inr (.inr ⟨_, .inr rfl, (inStep.listed signals (.inl phase)).same rfl⟩))
  | @older _ signals phase type id =>
      obtain rfl := inStep.from_constructor (.inr (.inr ⟨signals, .inl phase⟩))
      exact inStep.constructing rfl (.inr (.inl rfl))
  | @found _ signals phase type id =>
      obtain rfl := inStep.from_constructor (.inr (.inr ⟨signals, .inl phase⟩))
      have committed := inStep.listed signals (.inl phase)
      have loads := synchronised_loads S stream (committed.nodup run)
      apply InStep.holding (.inl ⟨_, rfl⟩) loads.loaded
      · rw [loads.signalListId]
        exact committed.same rfl
      · exact inStep.returns
  | @next _ signals phase some_pdo =>
      obtain rfl := inStep.from_constructor (.inr (.inr ⟨signals, .inr phase⟩))
      exact inStep.constructing rfl
        (.inr (.inr ⟨_, .inl rfl, (inStep.listed signals (.inr phase)).same rfl⟩))
  | ended phase result =>
      cases inStep.reading run phase inSync result with
      | ended last =>
          obtain ⟨pdo, intact⟩ := last
          obtain ⟨list, loaded, committed⟩ := inStep.loaded (.inr phase)
          apply InStep.holding
          · exact .inl ⟨_, rfl⟩
          · exact loaded
          · exact committed.same rfl
          · apply returns_concat inStep.returns rfl
            apply intact.consistent_ended <;> rfl
  | data phase result =>
      cases inStep.reading run phase inSync result with
      | data pdo follows =>
          obtain ⟨p, intact, number⟩ := follows
          obtain ⟨list, loaded, committed⟩ := inStep.loaded (.inr phase)
          have loaded' := inStep.loaded_data run phase inSync intact number
          apply InStep.holding
          · exact .inl ⟨_, rfl⟩
          · exact ⟨loaded.transferred, loaded.pdoSize, loaded.position⟩
          · exact committed.same rfl
          · apply returns_concat inStep.returns rfl
            apply intact.consistent_data
            · rfl
            · rfl
            · rfl
            · rfl
            · rfl
            · exact number.symm
            · exact ⟨loaded'.transferred, loaded'.pdoSize, loaded'.position⟩
  | @signals data told phase result =>
      cases inStep.reading run phase inSync result with
      | signals pdo follows loads =>
          obtain ⟨p, intact⟩ := follows
          have committed := intact.committed run
          have number : (Published.signals pdo).signalListId = data.signalListId :=
            loads.signalListId.symm
          rw [number] at committed
          apply InStep.holding
          · exact .inr phase
          · exact loads.loaded
          · exact committed.same rfl
          · exact inStep.returns
  | outOfSync phase result =>
      -- what the session goes on to is intact
      cases inStep.reading run phase inSync result
  | active phase active =>
      apply inStep.kept
      · exact (List.append_nil _).symm
      · rfl
      · rfl
      · exact fun _ => id
      · rfl
  | subscribed phase subscribed => exact inStep
  | activate phase fresh taken result transferred =>
      apply inStep.kept <;> first
        | rfl
        | exact fun _ loaded => ⟨loaded.transferred, loaded.pdoSize, loaded.position⟩
  | subscribe phase inactive fresh taken =>
      apply inStep.kept <;> first
        | rfl
        | exact fun _ loaded => ⟨loaded.transferred, loaded.pdoSize, loaded.position⟩
  | unsubscribe phase subscribed taken =>
      apply inStep.kept <;> first
        | rfl
        | exact fun _ loaded => ⟨loaded.transferred, loaded.pdoSize, loaded.position⟩
  | unknown phase fresh => exact inStep

theorem InStep.of_run (run : StreamRun S own InSync stream) : InStep S stream := by
  induction run with
  | start =>
      constructor
      case caller =>
        rfl
      case listed =>
        intro signals phase
        rcases phase with phase | phase <;> cases phase
      case loaded =>
        rintro (⟨result, phase⟩ | phase) <;> cases phase
      case returns =>
        intro rx member
        cases member
  | step action before inSync done ih => exact ih.step (StreamRun.taskRun before) inSync done

/-- In a run that stays in step all that `rxPdo` reports is of one Data PDO. -/
theorem rxPdo_consistent (run : StreamRun S own InSync stream) :
    ∀ rx ∈ stream.returns, rx.Consistent S :=
  (InStep.of_run run).returns

/-! ### Runs that can be checked -/

/-- `InSync` as a check. -/
def staysInSync (stream : Stream) : StreamAction → Bool
  | .turn =>
      match stream.phase with
      | .receiving =>
          let p := Pdo.next stream.memory stream.data.pdo
          let intact (p : Nat) (pdo : Published) : Bool :=
            pdo.address = p ∧ pdo.Header stream.memory ∧ pdo.Body stream.memory
          (Task.published stream.events).length < 2 ^ 32 ∧
            (Task.pdos stream.events).any fun pdo =>
              if p = 0 then pdo.isData && intact stream.data.pdo pdo
              else intact p pdo && match pdo with
                | .signals _ => true
                | .data pdo => pdo.signalListId = stream.data.signalListId ∧
                    (pdo.seqNo + 2 ^ 32 - stream.data.seqNo) % 2 ^ 32 = 1
      | _ => true
  | _ => true

theorem inSync_of_check (stream : Stream) (action : StreamAction)
    (check : staysInSync stream action = true) : InSync stream action := by
  cases action with
  | turn =>
      intro receiving
      simp only [staysInSync, receiving, Bool.decide_and, Bool.and_eq_true, decide_eq_true_eq,
        List.any_eq_true] at check
      obtain ⟨few, pdo, published, check⟩ := check
      refine ⟨few, ?_, ?_⟩
      · intro ended
        simp only [if_pos ended, Bool.and_eq_true, decide_eq_true_eq] at check
        obtain ⟨isData, address, header, body⟩ := check
        cases pdo with
        | signals pdo => cases isData
        | data pdo => exact ⟨pdo, published, address, header, body⟩
      · intro further
        simp only [if_neg further, Bool.and_eq_true, decide_eq_true_eq] at check
        obtain ⟨⟨address, header, body⟩, next⟩ := check
        cases pdo with
        | signals pdo => exact .inl ⟨pdo, published, address, header, body⟩
        | data pdo =>
            simp only [Bool.and_eq_true, decide_eq_true_eq] at next
            exact .inr ⟨pdo, ⟨published, address, header, body⟩, next⟩
  | task action => trivial
  | construct => trivial
  | rxPdo => trivial
  | subscribe s => trivial
  | unsubscribe s => trivial

/-- A session receives the first Data PDO behind a change of the list, and is then
at the end. -/
def inStepActions : List StreamAction :=
  [.task (.rt_update none), .task (.copyData fun _ _ => 9), .construct, .turn, .turn, .turn,
    .subscribe 0, .task (.rt_update (some ⟨5, 7⟩)), .task .processSignalList,
    .task .calculateCopyList, .task (.copyData fun _ _ => 9), .rxPdo, .turn, .turn,
    .rxPdo, .turn]

theorem rxPdo_consistent_inStep :
    (perform oneSignal 1 inStepActions).returns.map RxPdo.result = [true, false] ∧
      ∀ rx ∈ (perform oneSignal 1 inStepActions).returns, rx.Consistent oneSignal := by
  have done : Transition.perform (Stream.step oneSignal 1) staysInSync inStepActions
      (init oneSignal) = some (perform oneSignal 1 inStepActions) := by rfl
  exact ⟨by rfl,
    rxPdo_consistent (Transition.Reaches.perform inSync_of_check .start done)⟩

/-- So many turns of the real-time process, each with a Data PDO. -/
def dataTurns (count : Nat) : List StreamAction :=
  (List.replicate count
    [StreamAction.task (.rt_update none), .task (.copyData fun _ _ => 9)]).flatten

/-- The writer goes once around before the session calls `rxPdo`. -/
def fullLap : List StreamAction :=
  dataTurns 1 ++ [.construct, .turn, .turn, .turn] ++ dataTurns 14 ++
    [.rxPdo, .turn, .turn, .turn, .turn, .turn, .turn]

/-- A session reads the SignalList PDO of a change before the Data PDO is there. -/
def behindList : List StreamAction :=
  dataTurns 1 ++ [.construct, .turn, .turn, .turn, .subscribe 0, .task (.rt_update none),
    .task .processSignalList, .task .calculateCopyList, .rxPdo, .turn, .turn]

/-- After it has called `init`, `rxPdo` returns true without a time and a buffer;
behind a SignalList PDO it returns false with what stands in its place. -/
theorem rxPdo_inconsistent :
    (∃ stream rx, StreamRun oneSignal 1 Transition.anyStep stream ∧ rx ∈ stream.returns ∧
      rx.result = true ∧ rx.time = none ∧ rx.data.signalBuffer = none) ∧
    (∃ stream rx, StreamRun oneSignal 1 Transition.anyStep stream ∧ rx ∈ stream.returns ∧
      rx.result = false ∧
      ∀ pdo, .data pdo ∈ Task.pdos rx.events → rx.time ≠ some (pdo.address + 24)) := by
  constructor
  · have returned : (perform oneSignal 1 fullLap).returns.map
        (fun rx => (rx.result, rx.time, rx.data.signalBuffer)) = [(true, none, none)] := by
      decide +kernel
    obtain ⟨rx, once, same⟩ := List.map_eq_singleton_iff.mp returned
    simp only [Prod.mk.injEq] at same
    refine ⟨perform oneSignal 1 fullLap, rx, .of_isSome (by decide +kernel), ?_, same⟩
    rw [once]
    exact List.mem_singleton_self rx
  · have returned : (perform oneSignal 1 behindList).returns.map (fun rx =>
        (rx.result, rx.time, (Task.pdos rx.events).all fun pdo =>
          !pdo.isData || pdo.address = 4160)) = [(false, some 4256, true)] := by
      decide
    obtain ⟨rx, once, same⟩ := List.map_eq_singleton_iff.mp returned
    simp only [Prod.mk.injEq] at same
    obtain ⟨result, time, addresses⟩ := same
    refine ⟨perform oneSignal 1 behindList, rx, .of_isSome (by decide), ?_, result, ?_⟩
    · rw [once]
      exact List.mem_singleton_self rx
    · intro pdo member same
      have address : pdo.address = 4160 :=
        of_decide_eq_true (List.all_eq_true.mp addresses _ member)
      rw [time, address] at same
      cases same

end Stream

end PdServ
