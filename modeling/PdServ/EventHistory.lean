import PdServ.EventRing

/-!
The history of events in the non-real-time process. `newEvent` records every
event in a ring of `eventhistory` entries that all sessions read, each from a
position of its own. A session does not know its position at first; a value
that lies outside the ring stands for that.
-/

namespace PdServ

/-- The history, the sessions with their `eventId`, and what was recorded, what
a session has received, and how much was recorded before a session began. -/
structure EventHistory where
  setTime : Nat → Nat → Timespec := fun _ _ => ⟨0, 0⟩
  resetTime : Nat → Nat → Timespec := fun _ _ => ⟨0, 0⟩
  eventList : Nat → EventData := fun _ => {}
  eventPtr : Nat := 0
  eventId : Nat → Option Nat := fun _ => none
  recorded : List EventData := []
  since : Nat → Nat := fun _ => 0
  received : Nat → List EventData := fun _ => []

namespace EventHistory

variable (size : Nat)

/-- `Main::newEvent` -/
def newEvent (history : EventHistory) (event index : Nat) (state : Bool)
    (time : Timespec) : EventHistory :=
  let data : EventData := ⟨some event, index, state, time⟩
  let history :=
    if state then
      { history with
        setTime := Function.update history.setTime event
          (Function.update (history.setTime event) index time)
        resetTime := Function.update history.resetTime event
          (Function.update (history.resetTime event) index ⟨0, 0⟩) }
    else
      { history with
        resetTime := Function.update history.resetTime event
          (Function.update (history.resetTime event) index time) }
  { history with
    eventList := Function.update history.eventList history.eventPtr data
    eventPtr := Ring.next size history.eventPtr
    recorded := history.recorded ++ [data] }

/-- `Main::getNextEvent`, with the position of the session afterwards. -/
def getNextEvent (history : EventHistory) (eventId : Nat) : EventData × Nat :=
  let eventId := if eventId ≥ size then history.eventPtr else eventId
  if eventId = history.eventPtr then ({}, eventId)
  else (history.eventList eventId, Ring.next size eventId)

inductive Action where
  | newEvent (event index : Nat) (state : Bool) (time : Timespec)
  /-- The constructor of a session, where `eventId` is `~0U` first. -/
  | connect (session : Nat)
  | getNextEvent (session : Nat)
  | disconnect (session : Nat)

def step (history : EventHistory) : Action → Option EventHistory
  | .newEvent event index state time =>
      some (history.newEvent size event index state time)
  | .connect session =>
      match history.eventId session with
      | some _ => none
      | none => some
          { history with
            eventId := Function.update history.eventId session
              (some (history.getNextEvent size 4294967295).2)
            since := Function.update history.since session history.recorded.length
            received := Function.update history.received session [] }
  | .getNextEvent session =>
      match history.eventId session with
      | none => none
      | some eventId =>
          let (data, eventId) := history.getNextEvent size eventId
          let received := history.received session
          some
            { history with
              eventId := Function.update history.eventId session (some eventId)
              received := Function.update history.received session
                (if data.event = none then received else received ++ [data]) }
  | .disconnect session => some
      { history with eventId := Function.update history.eventId session none }

/-- Number of events a session has still to receive. -/
def pending (history : EventHistory) (session : Nat) : Nat :=
  history.recorded.length - history.since session - (history.received session).length

/-- No session has as many events pending as the history has entries. -/
def KeepsRoom (history : EventHistory) : Action → Prop
  | .newEvent .. => ∀ session, history.eventId session ≠ none →
      history.pending session + 1 < size
  | _ => True

/-- A session has received the first of the events since it began, the others
are in the history. -/
structure Receives (history : EventHistory) (session eventId : Nat)
    (rest : List EventData) : Prop where
  since : history.recorded.drop (history.since session) =
    history.received session ++ rest
  queues : Ring.Queues size history.eventList eventId history.eventPtr rest

variable {size} {history after : EventHistory}

theorem Receives.pending_eq {session eventId : Nat} {rest : List EventData}
    (receives : Receives size history session eventId rest) :
    history.pending session = rest.length := by
  have lengths := congrArg List.length receives.since
  rw [List.length_drop, List.length_append] at lengths
  unfold EventHistory.pending
  omega

/-- What holds after every run that keeps room. -/
structure Faithful (size : Nat) (history : EventHistory) : Prop where
  inside : history.eventPtr < size
  known : ∀ data ∈ history.recorded, data.event ≠ none
  began : ∀ session, history.eventId session ≠ none →
    history.since session ≤ history.recorded.length
  receives : ∀ session eventId, history.eventId session = some eventId →
    ∃ rest, Receives size history session eventId rest

theorem Faithful.init (positive : 0 < size) : Faithful size {} where
  inside := positive
  known := by simp
  began := by simp
  receives := by simp

/-- A read gives the first of the pending events. -/
theorem Receives.getNextEvent {session eventId : Nat} {rest : List EventData}
    (receives : Receives size history session eventId rest) :
    history.getNextEvent size eventId =
      (rest.head?.getD {}, if rest = [] then eventId else Ring.next size eventId) := by
  have inside : ¬eventId ≥ size := Nat.not_le.mpr receives.queues.inside
  unfold EventHistory.getNextEvent
  simp only [if_neg inside]
  cases rest with
  | nil =>
      rw [if_pos (receives.queues.empty_iff.mpr rfl)]
      rfl
  | cons data later =>
      have apart : eventId ≠ history.eventPtr := by
        intro same
        cases receives.queues.empty_iff.mp same
      rw [if_neg apart, receives.queues.pop.1]
      rfl

section

variable (event index : Nat) (state : Bool) (time : Timespec)

@[simp] theorem newEvent_eventList :
    (history.newEvent size event index state time).eventList =
      Function.update history.eventList history.eventPtr
        ⟨some event, index, state, time⟩ := by
  cases state <;> rfl

@[simp] theorem newEvent_eventPtr :
    (history.newEvent size event index state time).eventPtr =
      Ring.next size history.eventPtr := by
  cases state <;> rfl

@[simp] theorem newEvent_eventId :
    (history.newEvent size event index state time).eventId = history.eventId := by
  cases state <;> rfl

@[simp] theorem newEvent_recorded :
    (history.newEvent size event index state time).recorded =
      history.recorded ++ [⟨some event, index, state, time⟩] := by
  cases state <;> rfl

@[simp] theorem newEvent_since :
    (history.newEvent size event index state time).since = history.since := by
  cases state <;> rfl

@[simp] theorem newEvent_received :
    (history.newEvent size event index state time).received = history.received := by
  cases state <;> rfl

theorem Faithful.newEvent (faithful : Faithful size history)
    (room : ∀ session, history.eventId session ≠ none →
      history.pending session + 1 < size) :
    Faithful size (history.newEvent size event index state time) := by
  constructor
  case inside =>
    have inside := faithful.inside
    rw [newEvent_eventPtr]
    unfold Ring.next
    split <;> omega
  case known =>
    intro data member
    rw [newEvent_recorded] at member
    rcases List.mem_append.mp member with old | fresh
    · exact faithful.known data old
    · rw [List.mem_singleton] at fresh
      subst fresh
      simp
  case began =>
    intro session connected
    rw [newEvent_eventId] at connected
    rw [newEvent_since, newEvent_recorded, List.length_append]
    exact Nat.le_add_right_of_le (faithful.began session connected)
  case receives =>
    intro session eventId found
    rw [newEvent_eventId] at found
    obtain ⟨rest, receives⟩ := faithful.receives session eventId found
    have connected : history.eventId session ≠ none := by simp [found]
    have fits := room session connected
    rw [receives.pending_eq] at fits
    have longer := receives.queues.push (receives.queues.free_iff.mpr fits)
      ⟨some event, index, state, time⟩
    refine ⟨rest ++ [⟨some event, index, state, time⟩], ?_, ?_⟩
    · rw [newEvent_recorded, newEvent_since, newEvent_received,
        List.drop_append_of_le_length (faithful.began session connected),
        receives.since, List.append_assoc]
    · rw [newEvent_eventList, newEvent_eventPtr]
      exact longer

end

/-- What changes one session leaves the ring and the other sessions alone. -/
structure OnlySession (session : Nat) (history after : EventHistory) : Prop where
  eventList : after.eventList = history.eventList
  eventPtr : after.eventPtr = history.eventPtr
  recorded : after.recorded = history.recorded
  eventId : ∀ other ≠ session, after.eventId other = history.eventId other
  since : ∀ other ≠ session, after.since other = history.since other
  received : ∀ other ≠ session, after.received other = history.received other

/-- So only that session has to be looked at. -/
theorem Faithful.onlySession (faithful : Faithful size history) (session : Nat)
    (only : OnlySession session history after)
    (began : after.eventId session ≠ none → after.since session ≤ history.recorded.length)
    (receives : ∀ eventId, after.eventId session = some eventId →
      ∃ rest, Receives size after session eventId rest) : Faithful size after where
  inside := by
    rw [only.eventPtr]
    exact faithful.inside
  known := by
    rw [only.recorded]
    exact faithful.known
  began := by
    intro other connected
    rw [only.recorded]
    by_cases same : other = session
    · subst same
      exact began connected
    · rw [only.eventId other same] at connected
      rw [only.since other same]
      exact faithful.began other connected
  receives := by
    intro other eventId found
    by_cases same : other = session
    · subst same
      exact receives eventId found
    · rw [only.eventId other same] at found
      obtain ⟨rest, since, queues⟩ := faithful.receives other eventId found
      refine ⟨rest, ?_, ?_⟩
      · rw [only.recorded, only.since other same, only.received other same]
        exact since
      · rw [only.eventList, only.eventPtr]
        exact queues

/-- The position of a new session is outside the ring, so it begins behind the last event. -/
theorem Faithful.connect (small : size < 2 ^ 32) (faithful : Faithful size history)
    {session : Nat} (done : history.step size (.connect session) = some after) :
    Faithful size after := by
  simp only [EventHistory.step] at done
  split at done
  · cases done
  · cases done
    have here : history.getNextEvent size 4294967295 = ({}, history.eventPtr) := by
      have outside : 4294967295 ≥ size := by omega
      simp [EventHistory.getNextEvent, outside]
    rw [here]
    apply faithful.onlySession session
    · refine ⟨rfl, rfl, rfl, ?_, ?_, ?_⟩
      all_goals
        intro other apart
        exact Function.update_of_ne apart _ _
    · simp
    · intro eventId found
      simp only [Function.update_self, Option.some.injEq] at found
      subst found
      refine ⟨[], ?_, .start _ faithful.inside⟩
      simp

theorem Faithful.getNextEvent (faithful : Faithful size history) {session : Nat}
    (done : history.step size (.getNextEvent session) = some after) : Faithful size after := by
  simp only [EventHistory.step] at done
  split at done
  · cases done
  · next eventId connected =>
    cases done
    obtain ⟨rest, receives⟩ := faithful.receives session eventId connected
    rw [receives.getNextEvent]
    apply faithful.onlySession session
    · refine ⟨rfl, rfl, rfl, ?_, fun _ _ => rfl, ?_⟩
      all_goals
        intro other apart
        exact Function.update_of_ne apart _ _
    · intro still
      exact faithful.began session (by simp [connected])
    · intro position found
      simp only [Function.update_self, Option.some.injEq] at found
      cases rest with
      | nil =>
          rw [if_pos rfl] at found
          subst found
          refine ⟨[], ?_, receives.queues⟩
          simp only [Function.update_self, List.head?_nil, Option.getD_none, if_true]
          exact receives.since
      | cons data later =>
          rw [if_neg (List.cons_ne_nil data later)] at found
          subst found
          have real : data.event ≠ none := by
            apply faithful.known
            apply List.mem_of_mem_drop (i := history.since session)
            rw [receives.since]
            simp
          refine ⟨later, ?_, receives.queues.pop.2⟩
          simp [receives.since, real]

theorem Faithful.disconnect (faithful : Faithful size history) (session : Nat) :
    Faithful size
      { history with eventId := Function.update history.eventId session none } := by
  apply faithful.onlySession session
  · refine ⟨rfl, rfl, rfl, ?_, fun _ _ => rfl, fun _ _ => rfl⟩
    intro other apart
    exact Function.update_of_ne apart _ _
  · simp
  · simp

theorem Faithful.step {action : Action} (small : size < 2 ^ 32)
    (faithful : Faithful size history) (room : KeepsRoom size history action)
    (done : history.step size action = some after) : Faithful size after := by
  cases action with
  | newEvent event index state time =>
      cases done
      exact faithful.newEvent event index state time room
  | connect session => exact faithful.connect small done
  | getNextEvent session => exact faithful.getNextEvent done
  | disconnect session =>
      cases done
      exact faithful.disconnect session

end EventHistory

/-- Runs in which no session falls behind as far as the history is long. -/
abbrev HistoryRun (size : Nat) : EventHistory → Prop :=
  Transition.Reaches (EventHistory.step size) (EventHistory.KeepsRoom size) {}

namespace HistoryRun

variable {size : Nat} {history : EventHistory}

theorem faithful (positive : 0 < size) (small : size < 2 ^ 32)
    (run : HistoryRun size history) : EventHistory.Faithful size history :=
  run.invariant (.init positive) fun _ _ _ before room done => before.step small room done

/-- A session receives the events recorded since it began, each of them once
and in order, and nothing exactly when none of them is left. -/
theorem receives_in_order (positive : 0 < size) (small : size < 2 ^ 32)
    (run : HistoryRun size history) {session eventId : Nat}
    (connected : history.eventId session = some eventId) :
    ∃ rest, history.recorded.drop (history.since session) =
        history.received session ++ rest ∧
      (history.getNextEvent size eventId).1 = rest.head?.getD {} ∧
      ((history.getNextEvent size eventId).1.event = none ↔ rest = []) := by
  have faithful := faithful positive small run
  obtain ⟨rest, receives⟩ := faithful.receives session eventId connected
  refine ⟨rest, receives.since, ?_⟩
  rw [receives.getNextEvent]
  cases rest with
  | nil => simp
  | cons data later =>
      have real : data.event ≠ none := by
        apply faithful.known
        apply List.mem_of_mem_drop (i := history.since session)
        rw [receives.since]
        simp
      simp [real]

/-- With one session there is room as long as there is for this one. -/
theorem room_alone {session : Nat} {action : EventHistory.Action}
    (alone : ∀ other, other ≠ session → history.eventId other = none)
    (room : history.pending session + 1 < size) :
    EventHistory.KeepsRoom size history action := by
  cases action with
  | newEvent event index state time =>
      intro other connected
      by_cases same : other = session
      · subst same
        exact room
      · exact absurd (alone other same) connected
  | connect | getNextEvent | disconnect => trivial

/-- A session that begins behind the first event. -/
def begun : EventHistory :=
  (Transition.perform (EventHistory.step 3) (fun _ _ => true)
    [.newEvent 4 0 true ⟨1, 0⟩, .connect 7] {}).getD {}

def late : EventHistory := begun.newEvent 3 4 1 true ⟨2, 0⟩

theorem late_run : HistoryRun 3 late := by
  have first : HistoryRun 3 _ := .step (.newEvent 4 0 true ⟨1, 0⟩) .start
    (fun session connected => absurd rfl connected) rfl
  have second : HistoryRun 3 begun := .step (.connect 7) first trivial rfl
  exact .step (.newEvent 4 1 true ⟨2, 0⟩) second
    (room_alone (fun _ away => Function.update_of_ne away _ _) (by decide)) rfl

/-- The session reads its event. -/
def read : EventHistory := (late.step 3 (.getNextEvent 7)).getD {}

theorem read_run : HistoryRun 3 read :=
  .step (.getNextEvent 7) late_run trivial rfl

/-- Nobody else has begun. -/
theorem read_alone (other : Nat) (away : other ≠ 7) : read.eventId other = none := by
  have begins : begun.eventId other = none := Function.update_of_ne away _ _
  exact (Function.update_of_ne away (some 2) late.eventId).trans begins

/-- Two more follow, the second of them at the begin of the ring again. -/
def around : EventHistory :=
  (Transition.perform (EventHistory.step 3) (fun _ _ => true)
    [.newEvent 4 1 false ⟨3, 0⟩, .newEvent 4 2 true ⟨4, 0⟩, .getNextEvent 7] read).getD {}

theorem around_run : HistoryRun 3 around := by
  have behind : HistoryRun 3 _ := .step (.newEvent 4 1 false ⟨3, 0⟩) read_run
    (room_alone read_alone (by decide)) rfl
  have written : HistoryRun 3 _ := .step (.newEvent 4 2 true ⟨4, 0⟩) behind
    (room_alone read_alone (by decide)) rfl
  exact .step (.getNextEvent 7) written trivial rfl

theorem receives_in_order_around :
    around.received 7 = [⟨some 4, 1, true, ⟨2, 0⟩⟩, ⟨some 4, 1, false, ⟨3, 0⟩⟩] ∧
      ∃ rest, around.recorded.drop 1 = around.received 7 ++ rest ∧
        rest.head? = some ⟨some 4, 2, true, ⟨4, 0⟩⟩ := by
  -- behind the last entry of the ring the first one comes
  have connected : around.eventId 7 = some 0 := rfl
  obtain ⟨rest, since, next, empty⟩ :=
    receives_in_order (by decide) (by decide) around_run connected
  refine ⟨rfl, rest, since, ?_⟩
  cases rest with
  | nil => cases empty.mpr rfl
  | cons data later =>
      have here : (around.getNextEvent 3 0).1 = ⟨some 4, 2, true, ⟨4, 0⟩⟩ := rfl
      rw [List.head?_cons, Option.getD_some, here] at next
      rw [List.head?_cons, next]

end HistoryRun

end PdServ
