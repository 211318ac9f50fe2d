import PdServ.EventHistory

/-!
The history a session asks for with `message_history`. `getEventHistory` splices
it from two segments of the ring, one from the write position on and one up to
the position of the session.
-/

namespace PdServ

namespace EventHistory

variable (size : Nat)

/-- `Main::getEventHistory` -/
def getEventHistory (history : EventHistory) (eventId : Nat) : List EventData :=
  let it := if (history.eventList history.eventPtr).event ≠ none then history.eventPtr else 0
  (if it ≥ history.eventPtr then (List.range' it (size - it)).map history.eventList else []) ++
    (List.range' 0 eventId).map history.eventList

/-- Number of events that a session has received or that were recorded before it
began. -/
def consumed (history : EventHistory) (session : Nat) : Nat :=
  history.since session + (history.received session).length

/-- The recorded events among them that the ring still holds, in order. -/
def stillRecorded (history : EventHistory) (session : Nat) : List EventData :=
  (history.recorded.take (history.consumed session)).drop (history.recorded.length - size)

/-- What an entry tells, empty ones apart. -/
def nonEmpty (list : List EventData) : List EventData :=
  list.filter fun data => data.event.isSome

variable {size} {history after : EventHistory}

/-- The ring holds the events recorded last. -/
abbrev Keeps (size : Nat) (history : EventHistory) : Prop :=
  Ring.Logs size history.eventList history.eventPtr {} history.recorded

theorem Keeps.step {action : Action} (keeps : Keeps size history) (positive : 0 < size)
    (done : history.step size action = some after) : Keeps size after := by
  cases action with
  | newEvent event index state time =>
      cases done
      have written := keeps.write positive ⟨some event, index, state, time⟩
      unfold Keeps
      rw [newEvent_eventList, newEvent_eventPtr, newEvent_recorded]
      exact written
  | connect session =>
      simp only [EventHistory.step] at done
      split at done <;> cases done
      exact keeps
  | getNextEvent session =>
      simp only [EventHistory.step] at done
      split at done <;> cases done
      exact keeps
  | disconnect session =>
      cases done
      exact keeps

/-! ### The two segments -/

theorem nonEmpty_known {list : List EventData} (known : ∀ data ∈ list, data.event ≠ none) :
    nonEmpty list = list := by
  apply List.filter_eq_self.mpr
  intro data member
  exact Option.isSome_iff_ne_none.mpr (known data member)

theorem nonEmpty_append (front back : List EventData) :
    nonEmpty (front ++ back) = nonEmpty front ++ nonEmpty back :=
  List.filter_append ..

/-- The ring has not been filled once: the events are at its begin. -/
theorem getEventHistory_first {eventId : Nat} (keeps : Keeps size history)
    (faithful : Faithful size history) (short : history.recorded.length < size)
    (reached : eventId ≤ history.recorded.length) :
    nonEmpty (history.getEventHistory size eventId) = history.recorded.take eventId := by
  have place : history.eventPtr = history.recorded.length := by
    rw [keeps.writer, Nat.mod_eq_of_lt short]
  have empty : history.eventList history.eventPtr = {} := by
    rw [place]
    exact keeps.unwritten _ (Nat.le_refl _) short
  have second : (List.range' 0 eventId).map history.eventList =
      history.recorded.take eventId := by
    have segment := keeps.segment 0 0 eventId (Nat.zero_mod size).symm (by omega) (by omega)
      (by omega)
    rwa [List.drop_zero] at segment
  have known : nonEmpty (history.recorded.take eventId) = history.recorded.take eventId :=
    nonEmpty_known fun data member => faithful.known data (List.mem_of_mem_take member)
  unfold EventHistory.getEventHistory
  rw [empty, if_neg (by simp), second, nonEmpty_append, known]
  split
  · next start =>
    have none_there : history.recorded.length = 0 := by omega
    have clear : nonEmpty ((List.range' 0 (size - 0)).map history.eventList) = [] := by
      apply List.filter_eq_nil_iff.mpr
      intro data member
      obtain ⟨i, inside, rfl⟩ := List.mem_map.mp member
      rw [List.mem_range'_1] at inside
      rw [keeps.unwritten i (by omega) (by omega)]
      simp
    rw [clear, List.nil_append]
  · rfl

/-- The ring has been filled: the oldest event is at the write position. -/
theorem getEventHistory_filled (eventId : Nat) (keeps : Keeps size history)
    (faithful : Faithful size history) (long : size ≤ history.recorded.length) :
    history.getEventHistory size eventId =
      (history.recorded.drop (history.recorded.length - size)).take (size - history.eventPtr) ++
        (List.range' 0 eventId).map history.eventList := by
  have inside := faithful.inside
  have place : history.eventPtr = (history.recorded.length - size) % size := by
    rw [keeps.writer, ← Nat.mod_eq_sub_mod long]
  obtain ⟨oldest, here⟩ : ∃ oldest,
      history.recorded[history.recorded.length - size]? = some oldest :=
    ⟨_, List.getElem?_eq_getElem (by omega)⟩
  have held := keeps.kept _ oldest here (by omega)
  rw [← place] at held
  have known := faithful.known oldest (List.mem_of_getElem? here)
  have first := keeps.segment (history.recorded.length - size) history.eventPtr
    (size - history.eventPtr) place (by omega) (by omega) (by omega)
  unfold EventHistory.getEventHistory
  rw [held, if_pos known]
  dsimp only
  rw [if_pos (Nat.le_refl _), first]

/-- Where the session stands, as it was told. -/
theorem Faithful.place {session eventId : Nat} (faithful : Faithful size history)
    (connected : history.eventId session = some eventId) :
    history.consumed session ≤ history.recorded.length ∧
      history.recorded.length < history.consumed session + size ∧
      history.eventPtr = Ring.index size eventId
        (history.recorded.length - history.consumed session) ∧ eventId < size := by
  obtain ⟨rest, receives⟩ := faithful.receives session eventId connected
  have began := faithful.began session (by simp [connected])
  have lengths := congrArg List.length receives.since
  rw [List.length_drop, List.length_append] at lengths
  have room := receives.queues.room
  have writer := receives.queues.writer
  have rest_length : history.recorded.length - history.consumed session = rest.length := by
    unfold EventHistory.consumed
    omega
  rw [rest_length]
  refine ⟨?_, ?_, writer, receives.queues.inside⟩ <;> unfold EventHistory.consumed <;> omega

end EventHistory

namespace HistoryRun

variable {size : Nat} {history : EventHistory}

theorem keeps (positive : 0 < size) (run : HistoryRun size history) :
    EventHistory.Keeps size history :=
  run.invariant (Ring.Logs.start size ({} : EventData)) fun _ _ _ before _ done =>
    before.step positive done

/-- A session gets the recorded events it has consumed already exactly where it does
not stand behind the write position. -/
theorem getEventHistory_iff (positive : 0 < size) (small : size < 2 ^ 32)
    (run : HistoryRun size history) {session eventId : Nat}
    (connected : history.eventId session = some eventId) :
    EventHistory.nonEmpty (history.getEventHistory size eventId) =
        history.stillRecorded size session ↔ eventId ≤ history.eventPtr := by
  have faithful := faithful positive small run
  have keeps := keeps positive run
  obtain ⟨some_left, lag, writer, inside⟩ := faithful.place connected
  have write := keeps.writer
  generalize count : history.consumed session = consumed at some_left lag writer
  unfold Ring.index at writer
  rcases Nat.lt_or_ge history.recorded.length size with short | long
  · rw [Nat.mod_eq_of_lt short] at write
    have place : eventId = consumed := by
      split at writer <;> omega
    subst place
    rw [EventHistory.getEventHistory_first keeps faithful short some_left,
      EventHistory.stillRecorded, count, Nat.sub_eq_zero_of_le (Nat.le_of_lt short),
      List.drop_zero]
    exact iff_of_true rfl (by omega)
  · have write_lt := Nat.mod_lt history.recorded.length positive
    have known : EventHistory.nonEmpty
        ((history.recorded.drop (history.recorded.length - size)).take
          (size - history.eventPtr)) = _ :=
      EventHistory.nonEmpty_known fun data member =>
        faithful.known data (List.mem_of_mem_drop (List.mem_of_mem_take member))
    rw [EventHistory.getEventHistory_filled eventId keeps faithful long,
      EventHistory.nonEmpty_append, known, EventHistory.stillRecorded, count]
    constructor
    · -- Behind the write position the oldest events alone are too many.
      intro same
      by_contra behind
      have lengths := congrArg List.length same
      simp only [List.length_append, List.length_take, List.length_drop] at lengths
      split at writer <;> omega
    · intro before
      have place : consumed = history.recorded.length - history.eventPtr + eventId := by
        split at writer <;> omega
      have start : 0 = (history.recorded.length - history.eventPtr) % size := by
        rw [write]
        exact (Nat.sub_mod_eq_zero_of_mod_eq (Nat.mod_mod _ _).symm).symm
      have second := keeps.segment (history.recorded.length - history.eventPtr) 0 eventId start
        (by omega) (by omega) (by omega)
      have known' : EventHistory.nonEmpty
          ((history.recorded.drop (history.recorded.length - history.eventPtr)).take eventId) =
            _ :=
        EventHistory.nonEmpty_known fun data member =>
          faithful.known data (List.mem_of_mem_drop (List.mem_of_mem_take member))
      have gap : history.recorded.length - history.eventPtr =
          history.recorded.length - size + (size - history.eventPtr) := by omega
      have total : consumed - (history.recorded.length - size) =
          size - history.eventPtr + eventId := by omega
      rw [second, known', List.drop_take, total, List.take_add, List.drop_drop, ← gap]

theorem getEventHistory_late :
    EventHistory.nonEmpty (late.getEventHistory 3 1) = late.stillRecorded 3 7 :=
  (getEventHistory_iff (by decide) (by decide) late_run rfl).mpr (by decide)

/-- The session that began with `late` receives the second event, and then the ring
is filled. -/
def wrapped : EventHistory :=
  (Transition.perform (EventHistory.step 3) (fun _ _ => true)
    [.getNextEvent 7, .newEvent 4 2 true ⟨3, 0⟩] late).getD {}

theorem wrapped_run : HistoryRun 3 wrapped :=
  .step (.newEvent 4 2 true ⟨3, 0⟩) read_run (room_alone read_alone (by decide)) rfl

/-- The history of a session behind the wrap has an event it still receives, and
those before it twice. -/
theorem getEventHistory_wrapped :
    HistoryRun 3 wrapped ∧ ∃ eventId, wrapped.eventId 7 = some eventId ∧
      wrapped.stillRecorded 3 7 =
        [⟨some 4, 0, true, ⟨1, 0⟩⟩, ⟨some 4, 1, true, ⟨2, 0⟩⟩] ∧
      EventHistory.nonEmpty (wrapped.getEventHistory 3 eventId) =
        [⟨some 4, 0, true, ⟨1, 0⟩⟩, ⟨some 4, 1, true, ⟨2, 0⟩⟩, ⟨some 4, 2, true, ⟨3, 0⟩⟩,
          ⟨some 4, 0, true, ⟨1, 0⟩⟩, ⟨some 4, 1, true, ⟨2, 0⟩⟩] ∧
      (wrapped.getNextEvent 3 eventId).1 = ⟨some 4, 2, true, ⟨3, 0⟩⟩ :=
  ⟨wrapped_run, 2, rfl, by decide, by decide, by decide⟩

end HistoryRun

end PdServ
