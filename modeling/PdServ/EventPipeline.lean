import PdServ.EventHistory
import PdServ.XmlDocument

/-!
Events on their whole way: from `Event::set` of the real-time process through the ring in
shared memory, the polling loop, the history and `getNextEvent` of each session to the
element that `Event::toXml` writes for the client.
-/

namespace PdServ

/-! ### Events of the application -/

inductive Priority where
  | Emergency
  | Alert
  | Critical
  | Error
  | Warning
  | Notice
  | Info
  | Debug

/-- The switch in `Main::addEvent`. -/
def Priority.ofInt (prio : Int) : Priority :=
  match prio with
  | 1 => .Alert
  | 2 => .Critical
  | 3 => .Error
  | 4 => .Warning
  | 5 => .Notice
  | 6 => .Info
  | _ => if prio ≤ 0 then .Emergency else .Debug

structure Event where
  path : List Byte
  priority : Priority
  nelem : Nat
  plain : ∀ c ∈ path, c ≠ Chr.nul

namespace Event
open XmlElement (TagForm Content Document Shown)

theorem isalpha_c : isalpha 99 = true := by decide
theorem isalpha_s : isalpha 115 = true := by decide
theorem isalpha_w : isalpha 119 = true := by decide

/-- `levelString` -/
def levelString (e : Event) : TagForm :=
  match e.priority with
  | .Emergency | .Alert | .Critical => ⟨⟨99, ascii "rit_error", isalpha_c, by decide⟩, by decide⟩
  | .Error => ⟨⟨101, ascii "rror", by decide, by decide⟩, by decide⟩
  | .Warning => ⟨⟨119, ascii "arn", isalpha_w, by decide⟩, by decide⟩
  | .Notice | .Info | .Debug => ⟨⟨105, ascii "nfo", Variable.isalpha_i, by decide⟩, by decide⟩

/-- The level of an event that was added with this number. -/
theorem levelString_ofInt {e : Event} {prio : Int} (added : e.priority = .ofInt prio) :
    e.levelString.bytes = if prio ≤ 2 then ascii "crit_error" else if prio = 3 then ascii "error"
      else if prio = 4 then ascii "warn" else ascii "info" := by
  unfold Priority.ofInt at added
  split at added
  case h_7 one two three four five six =>
    split at added
    · next low =>
      rw [levelString, added, if_pos (low.trans (by decide))]
      rfl
    · next high =>
      simp only [imp_false] at one two three four five six
      have beyond : 6 < prio := by omega
      rw [levelString, added, if_neg (by omega), if_neg (by omega), if_neg (by omega)]
      rfl
  all_goals
    rw [levelString, added]
    rfl

def stateName : NameForm := ⟨115, ascii "tate", isalpha_s, by decide⟩

theorem digits_plain (n : Nat) : ∀ c ∈ digits n, c ≠ Chr.nul := by
  rintro c member rfl
  exact absurd (isdigit_digits n _ member) (by decide)

def numberContent (name : NameForm) (n : Nat) : Content := ⟨name, digits n, digits_plain n⟩

/-- The attributes that `toXml` writes for a change of the event. -/
def contents (e : Event) (data : EventData) : List Content :=
  ⟨Variable.Key.name, e.path, e.plain⟩ ::
    ((if e.nelem > 1 then [numberContent Variable.Key.index data.index] else []) ++
      [numberContent stateName data.state.toNat, XmlElement.timeContent data.time])

/-- `Event::toXml`, where no command is being answered. -/
def document (e : Event) (data : EventData) : Document :=
  ⟨e.levelString, e.contents data, .none, [], XmlElement.noId_plain⟩

end Event

/-! ### Both processes -/

/-- What a session writes. -/
inductive EventMessage where
  | event (e : Event) (data : EventData)
  | other (d : XmlElement.Document)

def EventMessage.document : EventMessage → XmlElement.Document
  | .event e data => e.document data
  | .other d => d

def EventMessage.change : EventMessage → Option EventData
  | .event _ data => some data
  | .other _ => none

structure EventPipeline where
  ring : EventRing := {}
  history : EventHistory := {}
  output : Nat → List EventMessage := fun _ => []

namespace EventPipeline

variable (events : List Event) (size : Nat)

abbrev nelems : EventList := events.map Event.nelem

inductive Action where
  | set (event elem : Nat) (state : Bool) (t : Timespec)
  | poll
  | connect (session : Nat)
  /-- `getNextEvent`, and `toXml` of what it returns -/
  | next (session : Nat)
  | write (session : Nat) (d : XmlElement.Document)
  | disconnect (session : Nat)

/-- A turn of the polling loop. An entry without an event cannot be handed to `newEvent`. -/
def poll (p : EventPipeline) : Option EventPipeline := do
  let ring ← p.ring.poll (nelems events)
  let data := p.ring.slots p.ring.eventData
  let event ← data.event
  some { p with
    ring := ring
    history := p.history.newEvent size event data.index data.state data.time }

/-- `toXml`: nothing is written where there is no event. -/
def toXml (data : EventData) : List EventMessage :=
  match data.event.bind (events[·]?) with
  | some e => [.event e data]
  | none => []

def step (p : EventPipeline) : Action → Option EventPipeline
  | .set event elem state t =>
      (p.ring.step (nelems events) (.set event elem state t)).map fun ring => { p with ring := ring }
  | .poll => p.poll events size
  | .connect session =>
      (p.history.step size (.connect session)).map fun history =>
        { p with history := history, output := Function.update p.output session [] }
  | .next session => do
      let eventId ← p.history.eventId session
      let history ← p.history.step size (.getNextEvent session)
      let data := (p.history.getNextEvent size eventId).1
      some { p with
        history := history
        output := Function.update p.output session (p.output session ++ toXml events data) }
  | .write session d =>
      some { p with
        output := Function.update p.output session (p.output session ++ [.other d]) }
  | .disconnect session =>
      (p.history.step size (.disconnect session)).map fun history => { p with history := history }

/-- There is room in the ring for a change, and in the history for an event. -/
def KeepsRoom (p : EventPipeline) : Action → Prop
  | .set event elem state t => EventRing.KeepsRoom (nelems events) p.ring (.set event elem state t)
  | .poll => ∀ session, p.history.eventId session ≠ none → p.history.pending session + 1 < size
  | _ => True

abbrev Run : EventPipeline → Prop :=
  Transition.Reaches (step events size) (KeepsRoom events size) {}

/-! ### What is sent -/

/-- Each change is one of an element that the application has, and switches it. -/
def Switches (changes : List EventData) : Prop :=
  ∀ front data back, changes = front ++ data :: back →
    ∃ event e, data.event = some event ∧ events[event]? = some e ∧ data.index < e.nelem ∧
      data.state = !EventRing.lastState front event data.index

variable {events} {size}

theorem Switches.concat {changes : List EventData} (switches : Switches events changes)
    {data : EventData} {event : Nat} {e : Event} (known : data.event = some event)
    (there : events[event]? = some e) (inside : data.index < e.nelem)
    (switched : data.state = !EventRing.lastState changes event data.index) :
    Switches events (changes ++ [data]) := by
  intro front other back split
  rcases List.eq_nil_or_concat back with rfl | ⟨middle, last, rfl⟩
  · obtain ⟨rfl, same⟩ := List.append_inj' split rfl
    cases same
    exact ⟨event, e, known, there, inside, switched⟩
  · have shorter : changes ++ [data] = (front ++ other :: middle) ++ [last] := by
      rw [split]
      simp
    exact switches front other middle (List.append_inj' shorter rfl).1

theorem Switches.event {changes : List EventData} (switches : Switches events changes)
    {data : EventData} (member : data ∈ changes) :
    ∃ event e, data.event = some event ∧ events[event]? = some e := by
  obtain ⟨front, back, split⟩ := List.append_of_mem member
  obtain ⟨event, e, known, there, -⟩ := switches front data back split
  exact ⟨event, e, known, there⟩

theorem nelems_inside {event elem : Nat} (inside : elem < ((nelems events)[event]?).getD 0) :
    ∃ e, events[event]? = some e ∧ elem < e.nelem := by
  rw [List.getElem?_map] at inside
  cases there : events[event]? with
  | none =>
      rw [there] at inside
      exact absurd inside (Nat.not_lt_zero elem)
  | some e =>
      rw [there] at inside
      exact ⟨e, rfl, inside⟩

/-! ### Both parts of the way -/

/-- The two parts run as they do alone, what the polling loop takes from the one goes into
the other, and a session writes what it receives. -/
structure Joined (events : List Event) (size : Nat) (p : EventPipeline) : Prop where
  ring : EventRun (nelems events) (EventRing.KeepsRoom (nelems events)) p.ring
  history : HistoryRun size p.history
  recorded : p.history.recorded = p.ring.reported
  switches : Switches events p.ring.set
  output : ∀ session, p.history.eventId session ≠ none →
    (p.output session).filterMap EventMessage.change = p.history.received session

variable {p after : EventPipeline}

/-- What is recorded was sent. -/
theorem Joined.sent (joined : Joined events size p) :
    ∃ pending, p.ring.set = p.history.recorded ++ pending ∧ (p.ring.Drained → pending = []) := by
  have faithful := joined.ring.faithful
  rw [joined.recorded]
  by_cases slots : (nelems events).ringSize = 0
  · obtain ⟨set, reported, -⟩ := faithful.silent slots
    exact ⟨[], by rw [set, reported]; rfl, fun _ => rfl⟩
  · obtain ⟨pending, sends⟩ := faithful.sends slots
    exact ⟨pending, sends.set, fun drained => sends.queues.empty_iff.mp drained⟩

theorem Joined.set (joined : Joined events size p) {event elem : Nat} {state : Bool} {t : Timespec}
    (room : EventRing.KeepsRoom (nelems events) p.ring (.set event elem state t))
    {ring : EventRing}
    (done : p.ring.step (nelems events) (.set event elem state t) = some ring) :
    Joined events size { p with ring := ring } := by
  have states := joined.ring.faithful.state
  have further := Transition.Reaches.step (.set event elem state t) joined.ring room done
  simp only [EventRing.step] at done
  split at done
  · next inside =>
    cases done
    have kept : (p.ring.setState (nelems events) event elem state t).reported =
        p.ring.reported := by
      rw [EventRing.setState]
      split <;> rfl
    refine ⟨further, joined.history, joined.recorded.trans kept.symm, ?_, joined.output⟩
    dsimp only
    rw [EventRing.setState]
    split
    · exact joined.switches
    · next changed =>
      obtain ⟨e, there, short⟩ := nelems_inside inside
      refine joined.switches.concat rfl there short ?_
      dsimp only
      rw [← states]
      exact (Bool.eq_not_of_ne changed).symm ▸ (Bool.not_not state).symm
  · cases done

theorem Joined.poll (joined : Joined events size p)
    (room : ∀ session, p.history.eventId session ≠ none → p.history.pending session + 1 < size)
    (done : p.poll events size = some after) : Joined events size after := by
  obtain ⟨ring, polled, done⟩ := Option.bind_eq_some_iff.mp done
  obtain ⟨event, known, same⟩ := Option.bind_eq_some_iff.mp done
  cases same
  have further := Transition.Reaches.step EventRing.Action.poll joined.ring trivial polled
  simp only [EventRing.poll] at polled
  split at polled
  · cases polled
  · cases polled
    refine ⟨further, .step (.newEvent event _ _ _) joined.history room rfl, ?_, joined.switches, ?_⟩
    · dsimp only
      rw [EventHistory.newEvent_recorded, joined.recorded, ← known]
    · intro session connected
      dsimp only at connected ⊢
      rw [EventHistory.newEvent_eventId] at connected
      rw [EventHistory.newEvent_received]
      exact joined.output session connected

theorem Joined.connect (joined : Joined events size p) {session : Nat} {history : EventHistory}
    (done : p.history.step size (.connect session) = some history) :
    Joined events size
      { p with history := history, output := Function.update p.output session [] } := by
  have further := Transition.Reaches.step (EventHistory.Action.connect session) joined.history trivial done
  simp only [EventHistory.step] at done
  split at done
  · cases done
  · cases done
    refine ⟨joined.ring, further, joined.recorded, joined.switches, fun other connected => ?_⟩
    by_cases same : other = session
    · subst same
      simp
    · dsimp only at connected ⊢
      rw [Function.update_of_ne same] at connected ⊢
      rw [Function.update_of_ne same]
      exact joined.output other connected

/-- A session that is connected gets nothing, or the first change that waits, which it can
write. -/
theorem Joined.waiting (positive : 0 < size) (small : size < 2 ^ 32)
    (joined : Joined events size p) {session eventId : Nat}
    (connected : p.history.eventId session = some eventId) :
    ∃ rest, p.history.recorded.drop (p.history.since session) =
        p.history.received session ++ rest ∧
      ((rest = [] ∧ (p.history.getNextEvent size eventId).1.event = none) ∨
        (rest ≠ [] ∧ ∃ e, toXml events (p.history.getNextEvent size eventId).1 =
          [.event e (p.history.getNextEvent size eventId).1])) := by
  obtain ⟨rest, receives⟩ := (joined.history.faithful positive small).receives session eventId
    connected
  refine ⟨rest, receives.since, ?_⟩
  rw [receives.getNextEvent]
  cases rest with
  | nil => exact .inl ⟨rfl, rfl⟩
  | cons data later =>
      have recorded : data ∈ p.history.recorded := by
        apply List.mem_of_mem_drop (i := p.history.since session)
        rw [receives.since]
        simp
      obtain ⟨pending, sent, -⟩ := joined.sent
      have member : data ∈ p.ring.set := by
        rw [sent]
        exact List.mem_append_left _ recorded
      obtain ⟨event, e, known, there⟩ := joined.switches.event member
      exact .inr ⟨List.cons_ne_nil data later, e, by simp [toXml, known, there]⟩

theorem toXml_event {data : EventData} {e : Event} (written : toXml events data = [.event e data]) :
    data.event ≠ none := by
  intro none
  simp [toXml, none] at written

theorem Joined.next (positive : 0 < size) (small : size < 2 ^ 32)
    (joined : Joined events size p) {session : Nat}
    (done : p.step events size (.next session) = some after) : Joined events size after := by
  obtain ⟨eventId, connected, done⟩ := Option.bind_eq_some_iff.mp done
  obtain ⟨history, read, same⟩ := Option.bind_eq_some_iff.mp done
  cases same
  have further := Transition.Reaches.step (EventHistory.Action.getNextEvent session) joined.history trivial read
  obtain ⟨rest, -, shown⟩ := joined.waiting positive small connected
  simp only [EventHistory.step, connected] at read
  cases read
  refine ⟨joined.ring, further, joined.recorded, joined.switches, fun other there => ?_⟩
  by_cases same : other = session
  · subst same
    have before := joined.output other (by rw [connected]; exact Option.some_ne_none _)
    dsimp only
    rw [Function.update_self, Function.update_self, List.filterMap_append, before]
    rcases shown with ⟨-, none⟩ | ⟨-, e, written⟩
    · simp [none, toXml]
    · rw [if_neg (toXml_event written), written]
      rfl
  · dsimp only at there ⊢
    rw [Function.update_of_ne same] at there ⊢
    rw [Function.update_of_ne same]
    exact joined.output other there

theorem Joined.step (positive : 0 < size) (small : size < 2 ^ 32)
    (joined : Joined events size p) {action : Action} (room : KeepsRoom events size p action)
    (done : p.step events size action = some after) : Joined events size after := by
  cases action with
  | set event elem state t =>
      obtain ⟨ring, went, rfl⟩ := Option.map_eq_some_iff.mp done
      exact joined.set room went
  | poll => exact joined.poll room done
  | connect session =>
      obtain ⟨history, went, rfl⟩ := Option.map_eq_some_iff.mp done
      exact joined.connect went
  | next session => exact joined.next positive small done
  | write session d =>
      cases done
      refine ⟨joined.ring, joined.history, joined.recorded, joined.switches, fun other there => ?_⟩
      by_cases same : other = session
      · subst same
        have before := joined.output other there
        dsimp only
        rw [Function.update_self, List.filterMap_append, before]
        exact List.append_nil _
      · dsimp only
        rw [Function.update_of_ne same]
        exact joined.output other there
  | disconnect session =>
      cases done
      have further := Transition.Reaches.step (EventHistory.Action.disconnect session)
        joined.history trivial rfl
      refine ⟨joined.ring, further, joined.recorded, joined.switches, fun other there => ?_⟩
      by_cases same : other = session
      · subst same
        simp at there
      · dsimp only at there
        rw [Function.update_of_ne same] at there
        exact joined.output other there

theorem Run.joined (positive : 0 < size) (small : size < 2 ^ 32) (run : Run events size p) :
    Joined events size p :=
  run.invariant ⟨.start, .start, rfl, fun front data back split => by simp at split,
    fun session connected => absurd rfl connected⟩
    fun _ _ _ before room done => before.step positive small room done

open XmlParser

/-- In every run of both processes, with any number of sessions, in which the ring and the
history have room: of the changes since it connected, each session has written the first
ones, the next wait in the history and the last in the ring. The client reads each change
that was written once and in order, with its level, name, state and time, whatever else is
written in between; and each change switches its element. -/
theorem Run.events_arrive (positive : 0 < size) (small : size < 2 ^ 32) (run : Run events size p)
    {session eventId : Nat} (connected : p.history.eventId session = some eventId) (bufMax : Nat)
    (chunks : List (List Byte))
    (complete : chunks.flatten =
      XmlElement.writeAll ((p.output session).map EventMessage.document))
    (taken : EveryRead Taken (XmlParser.new bufMax) [] chunks) :
    ∃ elements waiting pending, feed (XmlParser.new bufMax) chunks = some elements ∧
      List.Forall₂ XmlElement.Shows elements
        (((p.output session).map EventMessage.document).flatMap XmlElement.Document.shown) ∧
      p.ring.set.drop (p.history.since session) =
        (p.output session).filterMap EventMessage.change ++ waiting ++ pending ∧
      ((p.history.getNextEvent size eventId).1.event = none ↔ waiting = []) ∧
      (p.ring.Drained → pending = []) ∧
      Switches events p.ring.set := by
  have joined := run.joined positive small
  have began := (joined.history.faithful positive small).began session
    (by rw [connected]; exact Option.some_ne_none _)
  obtain ⟨elements, fed, shows_⟩ := XmlElement.documents_read bufMax _ chunks complete taken
  obtain ⟨rest, since, next⟩ := joined.waiting positive small connected
  obtain ⟨pending, sent, drained⟩ := joined.sent
  refine ⟨elements, rest, pending, fed, shows_.imp fun _ _ => XmlElement.shows_of_reads, ?_, ?_,
    drained, joined.switches⟩
  · rw [joined.output session (by rw [connected]; exact Option.some_ne_none _), sent,
      List.drop_append_of_le_length began, since]
  · rcases next with ⟨none, read⟩ | ⟨some, e, written⟩
    · exact ⟨fun _ => none, fun _ => read⟩
    · exact ⟨fun read => absurd read (toXml_event written), fun none => absurd none some⟩

def sampleEvents : List Event := [⟨ascii "/door", .Warning, 2, by decide⟩]

/-- A session connects, both elements of an event are set, and the first change is on its way
to the client when the second is in the ring. -/
def sampleActions : List Action :=
  [.connect 7, .set 0 0 true ⟨5, 70000⟩, .poll, .set 0 1 true ⟨6, 0⟩, .next 7]

def sampleSet : EventPipeline :=
  (Transition.perform (step sampleEvents 4) (fun _ _ => true) (sampleActions.take 2) {}).getD {}

def samplePipeline : EventPipeline :=
  (Transition.perform (step sampleEvents 4) (fun _ _ => true) sampleActions {}).getD {}

def sampleMessages : List Byte :=
  XmlElement.writeAll ((samplePipeline.output 7).map EventMessage.document)

theorem Run.events_arrive_sample :
    ∃ elements waiting pending,
      feed (XmlParser.new 8192) [sampleMessages.take 20, sampleMessages.drop 20] = some elements ∧
      List.Forall₂ XmlElement.Shows elements
        (((samplePipeline.output 7).map EventMessage.document).flatMap
          XmlElement.Document.shown) ∧
      samplePipeline.ring.set.drop (samplePipeline.history.since 7) =
        (samplePipeline.output 7).filterMap EventMessage.change ++ waiting ++ pending ∧
      ((samplePipeline.history.getNextEvent 4 1).1.event = none ↔ waiting = []) ∧
      (samplePipeline.ring.Drained → pending = []) ∧
      Switches sampleEvents samplePipeline.ring.set := by
  have first : Run sampleEvents 4 _ := .step (.connect 7) .start trivial rfl
  have second : Run sampleEvents 4 sampleSet :=
    .step (.set 0 0 true ⟨5, 70000⟩) first (fun _ => by decide) rfl
  have room : KeepsRoom sampleEvents 4 sampleSet .poll := by
    intro session connected
    by_cases same : session = 7
    · subst same
      decide
    · exact absurd (Function.update_of_ne same _ _) connected
  have third : Run sampleEvents 4 _ := .step .poll second room rfl
  have fourth : Run sampleEvents 4 _ := .step (.set 0 1 true ⟨6, 0⟩) third (fun _ => by decide) rfl
  have run : Run sampleEvents 4 samplePipeline := .step (.next 7) fourth trivial rfl
  have connected : samplePipeline.history.eventId 7 = some 1 := rfl
  exact run.events_arrive (by decide) (by decide) connected 8192 _
    (by rw [List.flatten_cons, List.flatten_cons, List.flatten_nil, List.append_nil,
      List.take_append_drop]; rfl) (by decide +kernel)

end EventPipeline

end PdServ
