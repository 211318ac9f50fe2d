import PdServ.PdoSequence
import PdServ.SessionTaskData
import Mathlib.Data.Finset.Lattice.Lemmas
import Mathlib.Data.Finset.Dedup

/-!
What a step of a task and its session can do, and what a session holds after it
has loaded a list of signals.
-/

namespace PdServ

namespace Stream

/-- All that a step can do. -/
inductive Steps (S : Setup) (own : Nat) (stream : Stream) : StreamAction → Stream → Prop
  | task {action task new} : foreign own action = true →
      stream.task.step S action = some (task, new) →
      Steps S own stream (.task action)
        { stream with task := task, events := stream.events ++ new }
  | construct : stream.phase = .absent →
      Steps S own stream .construct
        { stream with
          phase := .catchingUp .constructor
          since := (Task.processed stream.events).length }
  | rxPdo {result} : stream.phase = .ready result →
      Steps S own stream .rxPdo { stream with phase := .receiving }
  | catchUp {caller} : stream.phase = .catchingUp caller →
      Steps S own stream .turn
        { stream with
          data := stream.data.catchUp S stream.memory
          phase := if Pdo.next stream.memory (stream.data.catchUp S stream.memory).pdo = 0
            then .listing caller else .catchingUp caller }
  | list {caller} : stream.phase = .listing caller →
      Steps S own stream .turn
        { stream with
          data := { stream.data with signalListId := stream.task.getSignalList.2 }
          phase := .checking caller stream.task.getSignalList.1 }
  | other {caller signals} : stream.phase = .checking caller signals →
      Pdo.type stream.memory stream.data.pdo ≠ Pdo.Data →
      Steps S own stream .turn { stream with phase := .awaiting caller signals }
  | older {caller signals} : stream.phase = .checking caller signals →
      Pdo.type stream.memory stream.data.pdo = Pdo.Data →
      Pdo.signalListId stream.memory stream.data.pdo ≠ stream.data.signalListId →
      Steps S own stream .turn { stream with phase := .listing caller }
  | found {caller signals} : stream.phase = .checking caller signals →
      Pdo.type stream.memory stream.data.pdo = Pdo.Data →
      Pdo.signalListId stream.memory stream.data.pdo = stream.data.signalListId →
      Steps S own stream .turn (stream.synchronised S caller signals)
  | next {caller signals} : stream.phase = .awaiting caller signals →
      Pdo.next stream.memory stream.data.pdo ≠ 0 →
      Steps S own stream .turn
        { stream with
          data := { stream.data with pdo := Pdo.next stream.memory stream.data.pdo }
          phase := .checking caller signals }
  | ended {data told} : stream.phase = .receiving →
      stream.data.receive S stream.subscriptionId stream.memory = (.ended, data, told) →
      Steps S own stream .turn (({ stream with data := data }.inform told).report.return_ false)
  | data {data told} : stream.phase = .receiving →
      stream.data.receive S stream.subscriptionId stream.memory = (.data, data, told) →
      Steps S own stream .turn (({ stream with data := data }.inform told).report.return_ true)
  | signals {data told} : stream.phase = .receiving →
      stream.data.receive S stream.subscriptionId stream.memory = (.list, data, told) →
      Steps S own stream .turn ({ stream with data := data }.inform told)
  | outOfSync {data told} : stream.phase = .receiving →
      stream.data.receive S stream.subscriptionId stream.memory = (.outOfSync, data, told) →
      Steps S own stream .turn
        { { stream with data := data }.inform told with
          data := { data with pdo := 0 }
          phase := .catchingUp .rxPdo }
  | active {s result} : stream.phase = .ready result → s ∈ stream.data.activeSet →
      Steps S own stream (.subscribe s) (stream.inform [s])
  | subscribed {s result} : stream.phase = .ready result →
      s ∈ stream.data.subscribedSet → Steps S own stream (.subscribe s) stream
  | activate {s result task new} : stream.phase = .ready result →
      s ∉ stream.data.subscribedSet →
      stream.task.step S (.subscribe s own true) = some (task, new) →
      stream.task.subscribe S s own true = some (true, task, new) →
      s ∈ stream.data.transferredSet →
      Steps S own stream (.subscribe s)
        ({ stream with
          task := task
          events := stream.events ++ new
          data := { stream.data with
            subscribedSet := insert s stream.data.subscribedSet
            activeSet := insert s stream.data.activeSet } }.inform [s])
  | subscribe {s result task new} : stream.phase = .ready result →
      s ∉ stream.data.activeSet → s ∉ stream.data.subscribedSet →
      stream.task.step S (.subscribe s own true) = some (task, new) →
      Steps S own stream (.subscribe s)
        { stream with
          task := task
          events := stream.events ++ new
          data := { stream.data with
            subscribedSet := insert s stream.data.subscribedSet } }
  | unsubscribe {s result task new} : stream.phase = .ready result →
      s ∈ stream.data.subscribedSet →
      stream.task.step S (.subscribe s own false) = some (task, new) →
      Steps S own stream (.unsubscribe s)
        { stream with
          task := task
          events := stream.events ++ new
          data := { stream.data with
            subscribedSet := stream.data.subscribedSet.erase s
            activeSet := stream.data.activeSet.erase s } }
  | unknown {s result} : stream.phase = .ready result →
      s ∉ stream.data.subscribedSet → Steps S own stream (.unsubscribe s) stream

variable {S : Setup} {own : Nat} {stream after : Stream} {action : StreamAction}

theorem steps_of_turn (done : stream.turn S = some after) :
    Steps S own stream .turn after := by
  unfold turn at done
  dsimp only at done
  split at done
  · cases done
  · cases done
  · next phase =>
    cases done
    exact .catchUp phase
  · next phase =>
    cases done
    exact .list phase
  · next phase =>
    split at done
    · next other =>
      cases done
      exact .other phase other
    · next data =>
      split at done
      · next older =>
        cases done
        exact .older phase (not_not.mp data) older
      · next found =>
        cases done
        exact .found phase (not_not.mp data) (not_not.mp found)
  · next phase =>
    split at done
    · cases done
    · next some_pdo =>
      cases done
      exact .next phase some_pdo
  · next phase =>
    rcases result : stream.data.receive S stream.subscriptionId stream.memory with
      ⟨received, data, told⟩
    rw [result] at done
    cases received with
    | ended =>
        cases done
        exact .ended phase result
    | data =>
        cases done
        exact .data phase result
    | list =>
        cases done
        exact .signals phase result
    | outOfSync =>
        cases done
        exact .outOfSync phase result

theorem steps (done : stream.step S own action = some after) :
    Steps S own stream action after := by
  cases action with
  | task action =>
      simp only [step] at done
      split at done
      · next other =>
        obtain ⟨⟨task, new⟩, here, same⟩ := Option.map_eq_some_iff.mp done
        cases same
        exact .task other here
      · cases done
  | construct =>
      simp only [step] at done
      split at done <;> cases done
      next absent => exact .construct absent
  | rxPdo =>
      simp only [step] at done
      split at done <;> cases done
      next ready => exact .rxPdo ready
  | turn => exact steps_of_turn done
  | subscribe s =>
      simp only [step] at done
      split at done
      · next ready =>
        split at done
        · next known =>
          unfold Stream.subscribe at done
          dsimp only at done
          split at done
          · next active =>
            cases done
            exact .active ready active
          · next inactive =>
            split at done
            · next already =>
              cases done
              exact .subscribed ready already
            · next fresh =>
              obtain ⟨⟨subscribed, task, new⟩, here, same⟩ := Option.map_eq_some_iff.mp done
              have step : stream.task.step S (.subscribe s own true) = some (task, new) := by
                simp only [Task.step, if_pos known, here]
                rfl
              dsimp only at same
              split at same
              · next both =>
                cases same
                have result : subscribed = true := both.1
                rw [result] at here
                exact .activate ready fresh step here both.2
              · cases same
                exact .subscribe ready inactive fresh step
        · cases done
      · cases done
  | unsubscribe s =>
      simp only [step] at done
      split at done
      · next ready =>
        split at done
        · next known =>
          unfold Stream.unsubscribe at done
          dsimp only at done
          split at done
          · next here =>
            obtain ⟨⟨subscribed, task, new⟩, taken, same⟩ := Option.map_eq_some_iff.mp done
            have step : stream.task.step S (.subscribe s own false) = some (task, new) := by
              simp only [Task.step, if_pos known, taken]
              rfl
            cases same
            exact .unsubscribe ready here step
          · next absent =>
            cases done
            exact .unknown ready absent
        · cases done
      · cases done

/-- A step of the task that may be part of a step of the session. -/
theorem Steps.task_step (steps : Steps S own stream action after) :
    (after.task = stream.task ∧ after.events = stream.events) ∨
      ∃ taken new, stream.task.step S taken = some (after.task, new) ∧
        after.events = stream.events ++ new := by
  cases steps with
  | task _ taken => exact .inr ⟨_, _, taken, rfl⟩
  | activate _ _ taken => exact .inr ⟨_, _, taken, rfl⟩
  | subscribe _ _ _ taken => exact .inr ⟨_, _, taken, rfl⟩
  | unsubscribe _ _ taken => exact .inr ⟨_, _, taken, rfl⟩
  | @found caller signals =>
      left
      cases caller <;> exact ⟨rfl, rfl⟩
  | construct | rxPdo | catchUp | list | other | older | next | ended | data | signals
  | outOfSync | active | subscribed | unknown => exact .inl ⟨rfl, rfl⟩

end Stream

/-! ### Loaded lists -/

namespace SessionTaskData

variable {S : Setup} {subscriptionId : Nat → Nat}

/-- The bytes of the signals of a list stand one behind the other. -/
structure Loaded (S : Setup) (data : SessionTaskData) (list : List Nat) : Prop where
  transferred : data.transferredSet = list.toFinset
  pdoSize : data.pdoSize = (list.map S.sizeOf).sum
  position : ∀ front s back, list = front ++ s :: back →
    data.signalPosition s = (front.map S.sizeOf).sum

/-- What the signals of a list change when they are loaded one after the other. -/
structure Loads (S : Setup) (subscriptionId : Nat → Nat)
    (before : SessionTaskData × List Nat) (list : List Nat)
    (after : SessionTaskData × List Nat) : Prop where
  pdo : after.1.pdo = before.1.pdo
  seqNo : after.1.seqNo = before.1.seqNo
  signalListId : after.1.signalListId = before.1.signalListId
  signalBuffer : after.1.signalBuffer = before.1.signalBuffer
  subscribed : after.1.subscribedSet = before.1.subscribedSet
  pdoSize : after.1.pdoSize = before.1.pdoSize + (list.map S.sizeOf).sum
  transferred : after.1.transferredSet = before.1.transferredSet ∪ list.toFinset
  active : ∀ s, s ∈ after.1.activeSet ↔ s ∈ before.1.activeSet ∨
    (s ∈ list ∧ s ∈ before.1.subscribedSet ∧
      notBefore before.1.signalListId (subscriptionId s) = true)
  told : ∀ s, s ∈ after.2 ↔
    s ∈ before.2 ∨ (s ∈ after.1.activeSet ∧ s ∉ before.1.activeSet)
  kept : ∀ s, s ∉ list → after.1.signalPosition s = before.1.signalPosition s
  position : list.Nodup → ∀ front s back, list = front ++ s :: back →
    after.1.signalPosition s = before.1.pdoSize + (front.map S.sizeOf).sum

theorem Loads.nil (before : SessionTaskData × List Nat) :
    Loads S subscriptionId before [] before where
  pdo := rfl
  seqNo := rfl
  signalListId := rfl
  signalBuffer := rfl
  subscribed := rfl
  pdoSize := rfl
  transferred := (Finset.union_empty _).symm
  active := by simp
  told := by simp
  kept := fun _ _ => rfl
  position := by simp

section

variable (S subscriptionId) (loading : SessionTaskData × List Nat) (s : Nat)

/-- Apart from `activeSet` a signal changes the same, told or not. -/
theorem loadSignal_eq : ∃ active told,
    loadSignal S subscriptionId loading s =
      ({ loading.1 with
        signalPosition := Function.update loading.1.signalPosition s loading.1.pdoSize
        pdoSize := loading.1.pdoSize + S.sizeOf s
        transferredSet := insert s loading.1.transferredSet
        activeSet := active }, told) ∧
    ((s ∈ loading.1.subscribedSet ∧
        notBefore loading.1.signalListId (subscriptionId s) = true ∧
        s ∉ loading.1.activeSet ∧ active = insert s loading.1.activeSet ∧
        told = loading.2 ++ [s]) ∨
      ((s ∈ loading.1.subscribedSet →
          notBefore loading.1.signalListId (subscriptionId s) = true →
          s ∈ loading.1.activeSet) ∧
        active = loading.1.activeSet ∧ told = loading.2)) := by
  unfold loadSignal
  dsimp only
  split
  · next fresh =>
    obtain ⟨subscribed, new, inactive⟩ := fresh
    exact ⟨_, _, rfl, .inl ⟨subscribed, new, inactive, rfl, rfl⟩⟩
  · next stale =>
    refine ⟨_, _, rfl, .inr ⟨?_, rfl, rfl⟩⟩
    intro subscribed new
    by_contra inactive
    exact stale ⟨subscribed, new, inactive⟩

end

/-- One signal alone. -/
theorem Loads.one (before : SessionTaskData × List Nat) (s : Nat) :
    Loads S subscriptionId before [s] (loadSignal S subscriptionId before s) := by
  obtain ⟨active, told, same, kind⟩ := loadSignal_eq S subscriptionId before s
  rw [same]
  constructor
  case pdo =>
    rfl
  case seqNo =>
    rfl
  case signalListId =>
    rfl
  case signalBuffer =>
    rfl
  case subscribed =>
    rfl
  case pdoSize =>
    rfl
  case transferred =>
    exact (Finset.union_comm {s} _)
  case active =>
    intro t
    rw [List.mem_singleton]
    dsimp only
    rcases kind with ⟨subscribed, new, -, rfl, -⟩ | ⟨stale, rfl, -⟩
    · rw [Finset.mem_insert]
      constructor
      · rintro (rfl | old)
        · exact .inr ⟨rfl, subscribed, new⟩
        · exact .inl old
      · rintro (old | ⟨rfl, -⟩)
        · exact .inr old
        · exact .inl rfl
    · constructor
      · exact .inl
      · rintro (old | ⟨rfl, subscribed, new⟩)
        · exact old
        · exact stale subscribed new
  case told =>
    intro t
    dsimp only
    rcases kind with ⟨-, -, inactive, rfl, rfl⟩ | ⟨-, rfl, rfl⟩
    · rw [List.mem_append, List.mem_singleton, Finset.mem_insert]
      constructor
      · rintro (old | rfl)
        · exact .inl old
        · exact .inr ⟨.inl rfl, inactive⟩
      · rintro (old | ⟨rfl | old, new⟩)
        · exact .inl old
        · exact .inr rfl
        · exact absurd old new
    · simp
  case kept =>
    intro t other
    rw [List.mem_singleton] at other
    exact Function.update_of_ne other _ _
  case position =>
    intro _ front t back split
    cases front with
    | nil =>
        cases split
        exact Function.update_self _ _ _
    | cons _ front => simp at split

/-- One list behind the other. -/
theorem Loads.trans {before middle after : SessionTaskData × List Nat} {s : Nat}
    {list : List Nat} (first : Loads S subscriptionId before [s] middle)
    (rest : Loads S subscriptionId middle list after) :
    Loads S subscriptionId before (s :: list) after := by
  constructor
  case pdo =>
    exact rest.pdo.trans first.pdo
  case seqNo =>
    exact rest.seqNo.trans first.seqNo
  case signalListId =>
    exact rest.signalListId.trans first.signalListId
  case signalBuffer =>
    exact rest.signalBuffer.trans first.signalBuffer
  case subscribed =>
    exact rest.subscribed.trans first.subscribed
  case pdoSize =>
    rw [rest.pdoSize, first.pdoSize, List.map_cons, List.sum_cons]
    simp [Nat.add_assoc]
  case transferred =>
    rw [rest.transferred, first.transferred, Finset.union_assoc, ← List.toFinset_append]
    rfl
  case active =>
    intro t
    rw [rest.active, first.active, first.subscribed, first.signalListId,
      List.mem_singleton, List.mem_cons]
    tauto
  case told =>
    intro t
    have grown : t ∈ middle.1.activeSet → t ∈ after.1.activeSet :=
      fun old => (rest.active t).mpr (.inl old)
    have old : t ∈ before.1.activeSet → t ∈ middle.1.activeSet :=
      fun old => (first.active t).mpr (.inl old)
    rw [rest.told, first.told]
    tauto
  case kept =>
    intro t other
    rw [List.mem_cons, not_or] at other
    rw [rest.kept t other.2]
    apply first.kept
    rw [List.mem_singleton]
    exact other.1
  case position =>
    intro nodup front t back split
    obtain ⟨fresh, apart⟩ := List.nodup_cons.mp nodup
    cases front with
    | nil =>
        cases split
        rw [rest.kept s fresh]
        exact first.position (List.nodup_singleton s) [] s [] rfl
    | cons passed front =>
        obtain ⟨rfl, later⟩ := List.cons.inj split
        rw [rest.position apart front t back later, first.pdoSize]
        simp [Nat.add_assoc]

theorem loads (list : List Nat) (before : SessionTaskData × List Nat) :
    Loads S subscriptionId before list (list.foldl (loadSignal S subscriptionId) before) := by
  induction list generalizing before with
  | nil => exact Loads.nil before
  | cons s list ih => exact (Loads.one before s).trans (ih _)

/-- All that `loadSignalList` does. -/
structure LoadsList (S : Setup) (subscriptionId : Nat → Nat) (data : SessionTaskData)
    (list : List Nat) (id : Nat) (after : SessionTaskData) (told : List Nat) : Prop where
  loaded : after.Loaded S list
  signalListId : after.signalListId = id
  pdo : after.pdo = data.pdo
  seqNo : after.seqNo = data.seqNo
  signalBuffer : after.signalBuffer = data.signalBuffer
  subscribed : after.subscribedSet = data.subscribedSet
  active : ∀ s, s ∈ after.activeSet ↔ s ∈ data.activeSet ∨
    (s ∈ list ∧ s ∈ data.subscribedSet ∧ notBefore id (subscriptionId s) = true)
  told : ∀ s, s ∈ told ↔ s ∈ after.activeSet ∧ s ∉ data.activeSet

theorem loadSignalList_spec {list : List Nat} (nodup : list.Nodup)
    (data : SessionTaskData) (id : Nat) :
    LoadsList S subscriptionId data list id
      (data.loadSignalList S subscriptionId list id).1
      (data.loadSignalList S subscriptionId list id).2 := by
  have spec : Loads S subscriptionId _ list (data.loadSignalList S subscriptionId list id) :=
    loads list _
  constructor
  case loaded =>
    constructor
    · exact spec.transferred.trans (Finset.empty_union _)
    · exact spec.pdoSize.trans (Nat.zero_add _)
    · intro front s back split
      exact (spec.position nodup front s back split).trans (Nat.zero_add _)
  case signalListId =>
    exact spec.signalListId
  case pdo =>
    exact spec.pdo
  case seqNo =>
    exact spec.seqNo
  case signalBuffer =>
    exact spec.signalBuffer
  case subscribed =>
    exact spec.subscribed
  case active =>
    exact spec.active
  case told =>
    intro s
    exact (spec.told s).trans (by simp only [List.not_mem_nil, false_or])

/-! ### PDOs as they were published -/

/-- The next PDO is this one, as it was published. -/
structure Meets (m : Memory) (data : SessionTaskData) (pdo : Published) : Prop where
  link : Pdo.next m data.pdo = pdo.address
  header : pdo.Header m
  body : pdo.Body m

variable {m : Memory} {data : SessionTaskData}

theorem receive_signals {pdo : SignalsPdo} (meets : Meets m data (.signals pdo))
    (placed : Published.Placed S (.signals pdo))
    (known : ∀ s ∈ pdo.signals, s < S.signals.length) :
    data.receive S subscriptionId m =
      (.list, loadSignalList S subscriptionId { data with pdo := pdo.address } pdo.signals
        pdo.signalListId) := by
  obtain ⟨type, id, count⟩ := meets.header
  have link : Pdo.next m data.pdo = pdo.address := meets.link
  obtain ⟨low, high⟩ := placed
  have top := S.txMemEnd_lt
  have bottom := S.txMemBegin_pos
  dsimp only [Published.address, Published.size] at low high
  have list : (List.range pdo.signals.length).map (Pdo.signalIdx m pdo.address) =
      pdo.signals := by
    apply List.ext_getElem
    · simp
    · intro i short long
      rw [List.getElem_map, List.getElem_range]
      exact meets.body i long
  unfold receive
  dsimp only
  rw [link, if_neg (by omega), if_neg (by omega), type, if_pos rfl, count, if_neg (by omega),
    list, if_pos known, id]

theorem receive_data {pdo : DataPdo} (meets : Meets m data (.data pdo))
    (placed : Published.Placed S (.data pdo)) :
    data.receive S subscriptionId m =
      if (pdo.address + 72 + data.pdoSize) % 2 ^ 64 ≥ S.txMemEnd ∨
          pdo.signalListId ≠ data.signalListId ∨
          (pdo.seqNo + 2 ^ 32 - data.seqNo) % 2 ^ 32 ≠ 1 then
        (.outOfSync, { data with pdo := pdo.address }, [])
      else
        (.data, { data with
          pdo := pdo.address
          seqNo := pdo.seqNo
          signalBuffer := some (pdo.address + 72) }, []) := by
  obtain ⟨type, id, -, seqNo, -⟩ := meets.header
  have link : Pdo.next m data.pdo = pdo.address := meets.link
  obtain ⟨low, high⟩ := placed
  have top := S.txMemEnd_lt
  have bottom := S.txMemBegin_pos
  dsimp only [Published.address, Published.size] at low high
  unfold receive
  dsimp only
  rw [link, if_neg (by omega), if_neg (by omega), type, if_neg (by decide), if_pos rfl, id,
    seqNo]

/-- A Data PDO that goes on with what the session has read passes all checks. -/
theorem receive_loaded {pdo : DataPdo} (meets : Meets m data (.data pdo))
    (placed : Published.Placed S (.data pdo)) (size : pdo.bytes.length = data.pdoSize)
    (id : pdo.signalListId = data.signalListId)
    (next : (pdo.seqNo + 2 ^ 32 - data.seqNo) % 2 ^ 32 = 1) :
    data.receive S subscriptionId m =
      (.data, { data with
        pdo := pdo.address
        seqNo := pdo.seqNo
        signalBuffer := some (pdo.address + 72) }, []) := by
  rw [receive_data meets placed, if_neg]
  obtain ⟨low, high⟩ := placed
  have top := S.txMemEnd_lt
  dsimp only [Published.address, Published.size] at low high
  rintro (behind | older | lost)
  · omega
  · exact older id
  · exact lost next

/-- At the end of the chain the session stays where it is. -/
theorem receive_ended (last : Pdo.next m data.pdo = 0) :
    data.receive S subscriptionId m = (.ended, data, []) := by
  unfold receive
  dsimp only
  rw [if_pos last]

theorem receive_of_ended {after : SessionTaskData} {told : List Nat}
    (read : data.receive S subscriptionId m = (.ended, after, told)) : after = data := by
  unfold receive at read
  dsimp only at read
  repeat' split at read
  all_goals cases read
  rfl

/-- What stays as long as no list is loaded. -/
structure KeepsList (S : Setup) (data after : SessionTaskData) : Prop where
  signalListId : after.signalListId = data.signalListId
  subscribed : after.subscribedSet = data.subscribedSet
  active : after.activeSet = data.activeSet
  loaded : ∀ list, data.Loaded S list → after.Loaded S list

/-- Only a SignalList PDO changes what the session knows of its list. -/
theorem receive_keeps {received : Received} {after : SessionTaskData} {told : List Nat}
    (read : data.receive S subscriptionId m = (received, after, told))
    (other : received ≠ .list) : KeepsList S data after := by
  have shape : ∃ pdo seqNo buffer, after =
      { data with pdo := pdo, seqNo := seqNo, signalBuffer := buffer } := by
    unfold receive at read
    dsimp only at read
    repeat' split at read
    all_goals first
      | exact absurd (congrArg Prod.fst read).symm other
      | exact ⟨_, _, _, (congrArg (fun r => r.2.1) read).symm⟩
  obtain ⟨pdo, seqNo, buffer, rfl⟩ := shape
  exact ⟨rfl, rfl, rfl,
    fun _ loaded => ⟨loaded.transferred, loaded.pdoSize, loaded.position⟩⟩

/-- What a turn of `rxPdo` can come to where it reads what was published: it is at the end
of the chain, or at a PDO, with something known in each case. -/
inductive Reading (S : Setup) (subscriptionId : Nat → Nat) (before : SessionTaskData)
    (last : Prop) (atData : DataPdo → Prop) (atSignals : SignalsPdo → Prop) :
    Received × SessionTaskData × List Nat → Prop
  | ended : last → Reading S subscriptionId before last atData atSignals (.ended, before, [])
  | data (pdo : DataPdo) : atData pdo →
      Reading S subscriptionId before last atData atSignals
        (.data, { before with
          pdo := pdo.address
          seqNo := pdo.seqNo
          signalBuffer := some (pdo.address + 72) }, [])
  | signals (pdo : SignalsPdo) {after : SessionTaskData} {told : List Nat} : atSignals pdo →
      LoadsList S subscriptionId { before with pdo := pdo.address } pdo.signals
        pdo.signalListId after told →
      Reading S subscriptionId before last atData atSignals (.list, after, told)

end SessionTaskData

/-- What a session holds at the end of its constructor. -/
theorem Stream.synchronised_loads {signals : List Nat} (S : Setup) (stream : Stream)
    (nodup : signals.Nodup) :
    SessionTaskData.LoadsList S stream.subscriptionId
      { stream.data with seqNo := Pdo.seqNo stream.memory stream.data.pdo } signals
      stream.data.signalListId (stream.synchronised S .constructor signals).data
      (stream.data.synchronise S stream.subscriptionId stream.memory signals).2 :=
  SessionTaskData.loadSignalList_spec nodup _ _

theorem Stream.Steps.taskRun {S : Setup} {own : Nat} {stream after : Stream}
    {action : StreamAction} (steps : Steps S own stream action after)
    (run : TaskRun S stream.task stream.events) : TaskRun S after.task after.events := by
  rcases steps.task_step with ⟨task, events⟩ | ⟨taken, new, here, events⟩
  · rw [task, events]
    exact run
  · rw [events]
    exact .step taken run here

/-- What the task does in a run with a session is a run of the task. -/
theorem StreamRun.taskRun {S : Setup} {own : Nat} {allowed : Stream → StreamAction → Prop}
    {stream : Stream} (run : StreamRun S own allowed stream) :
    TaskRun S stream.task stream.events := by
  induction run with
  | start => exact .start
  | step action _ _ done ih => exact (Stream.steps done).taskRun ih

end PdServ
