import PdServ.Ring
import PdServ.Task
import PdServ.Transition
import Mathlib.Algebra.Order.BigOperators.Group.List
import Mathlib.Algebra.Order.Group.Nat

/-!
Events between the two processes. `Event::set` of the real-time process sends
every change of an event element through a ring in shared memory; the polling
loop of the non-real-time process hands what it finds there to `newEvent`. The
writer takes no notice of the reader. One call of `set` is one step, and one
turn of the polling loop.
-/

namespace PdServ

/-- `EventData`; no event is the null pointer. -/
structure EventData where
  event : Option Nat := none
  index : Nat := 0
  state : Bool := false
  time : Timespec := ⟨0, 0⟩
deriving DecidableEq

/-- The events of the application are known by their number of elements. -/
abbrev EventList := List Nat

/-- Number of entries of the ring: `eventLen * eventCount`. -/
def EventList.ringSize (events : EventList) : Nat := 10 * events.sum

/-- The ring with its two users, and the calls they made of `setEvent` and
`newEvent`. -/
structure EventRing where
  rt_state : Nat → Nat → Bool := fun _ _ => false
  slots : Nat → EventData := fun _ => {}
  eventDataWp : Nat := 0
  /-- The position of the polling loop. -/
  eventData : Nat := 0
  set : List EventData := []
  reported : List EventData := []

namespace EventRing

variable (events : EventList)

/-- `Main::setEvent` -/
def setEvent (ring : EventRing) (data : EventData) : EventRing :=
  { ring with
    slots := Function.update ring.slots ring.eventDataWp data
    eventDataWp := Ring.next events.ringSize ring.eventDataWp
    set := ring.set ++ [data] }

/-- `Event::set` -/
def setState (ring : EventRing) (event elem : Nat) (state : Bool) (t : Timespec) :
    EventRing :=
  if ring.rt_state event elem = state then ring
  else
    { ring with
      rt_state := Function.update ring.rt_state event
        (Function.update (ring.rt_state event) elem state) }.setEvent events
      ⟨some event, elem, state, t⟩

/-- One turn of `while (eventData != *eventDataWp)`; none where it ends. -/
def poll (ring : EventRing) : Option EventRing :=
  if ring.eventData = ring.eventDataWp then none
  else some
    { ring with
      reported := ring.reported ++ [ring.slots ring.eventData]
      eventData := Ring.next events.ringSize ring.eventData }

inductive Action where
  | set (event elem : Nat) (state : Bool) (t : Timespec)
  | poll

def step (ring : EventRing) : Action → Option EventRing
  | .set event elem state t =>
      if elem < (events[event]?).getD 0 then some (ring.setState events event elem state t)
      else none
  | .poll => ring.poll events

/-- The ring is drained. -/
def Drained (ring : EventRing) : Prop := ring.eventData = ring.eventDataWp

/-- The state an event element has after these changes. -/
def lastState (changes : List EventData) (event elem : Nat) : Bool :=
  changes.foldl
    (fun old data => if data.event = some event ∧ data.index = elem then data.state else old)
    false

/-- A change does not fill the last free entry of the ring. -/
def KeepsRoom (ring : EventRing) : Action → Prop
  | .set event elem state _ => ring.rt_state event elem ≠ state →
      Ring.next events.ringSize ring.eventDataWp ≠ ring.eventData
  | .poll => True

/-- What has been sent is reported or waits in the ring. -/
structure Sends (ring : EventRing) (pending : List EventData) : Prop where
  set : ring.set = ring.reported ++ pending
  queues : Ring.Queues events.ringSize ring.slots ring.eventData ring.eventDataWp pending

variable {events} {ring after : EventRing} {pending : List EventData}

theorem Sends.poll (sends : Sends events ring pending)
    (done : ring.poll events = some after) : ∃ rest, Sends events after rest := by
  unfold EventRing.poll at done
  split at done
  · cases done
  · next waiting =>
    cases done
    cases pending with
    | nil => exact absurd (sends.queues.empty_iff.mpr rfl) waiting
    | cons first rest =>
        obtain ⟨here, later⟩ := sends.queues.pop
        refine ⟨rest, ?_, later⟩
        simp only [sends.set, here, List.append_assoc, List.singleton_append]

theorem lastState_concat (changes : List EventData) (data : EventData) (event elem : Nat) :
    lastState (changes ++ [data]) event elem =
      if data.event = some event ∧ data.index = elem then data.state
      else lastState changes event elem := by
  simp [lastState]

/-- What holds after every run that keeps room. -/
structure Faithful (events : EventList) (ring : EventRing) : Prop where
  sends : events.ringSize ≠ 0 → ∃ pending, Sends events ring pending
  silent : events.ringSize = 0 →
    ring.set = [] ∧ ring.reported = [] ∧ ring.eventData = ring.eventDataWp
  state : ∀ event elem, ring.rt_state event elem = lastState ring.set event elem

theorem Faithful.init (events : EventList) : Faithful events {} where
  sends := fun some_slots => ⟨[], rfl, Ring.Queues.start _ (Nat.pos_of_ne_zero some_slots)⟩
  silent := fun _ => ⟨rfl, rfl, rfl⟩
  state := fun _ _ => rfl

theorem ringSize_ne_zero {event elem : Nat} (known : elem < (events[event]?).getD 0) :
    events.ringSize ≠ 0 := by
  cases found : events[event]? with
  | none => simp [found] at known
  | some nelem =>
      have counted := List.le_sum_of_mem (List.mem_of_getElem? found)
      rw [found, Option.getD_some] at known
      unfold EventList.ringSize
      omega

theorem Faithful.step {action : Action} (faithful : Faithful events ring)
    (room : KeepsRoom events ring action)
    (done : ring.step events action = some after) : Faithful events after := by
  cases action with
  | set event elem state t =>
      simp only [EventRing.step] at done
      split at done
      · next known =>
        cases done
        unfold setState
        split
        · exact faithful
        · next changed =>
          have free := room changed
          have some_slots := ringSize_ne_zero known
          obtain ⟨pending, set, queues⟩ := faithful.sends some_slots
          constructor
          · intro _
            have longer := queues.push free ⟨some event, elem, state, t⟩
            refine ⟨_, ?_, longer⟩
            simp only [EventRing.setEvent, set, List.append_assoc]
          · intro no_slots
            exact absurd no_slots some_slots
          · intro other place
            simp only [EventRing.setEvent, lastState_concat, Option.some.injEq]
            by_cases same : event = other
            · subst same
              rw [Function.update_self]
              by_cases here : elem = place
              · subst here
                simp
              · rw [Function.update_of_ne (Ne.symm here)]
                simp [here, faithful.state]
            · rw [Function.update_of_ne (Ne.symm same)]
              simp [same, faithful.state]
      · cases done
  | poll =>
      have some_slots : events.ringSize ≠ 0 := by
        intro none_there
        simp [EventRing.step, EventRing.poll, (faithful.silent none_there).2.2] at done
      obtain ⟨pending, sends⟩ := faithful.sends some_slots
      obtain ⟨rest, later⟩ := sends.poll done
      refine ⟨fun _ => ⟨rest, later⟩, fun none_there => absurd none_there some_slots, ?_⟩
      simp only [EventRing.step, EventRing.poll] at done
      split at done
      · cases done
      · cases done
        exact faithful.state

end EventRing

/-- Runs of both processes whose steps are all allowed. -/
abbrev EventRun (events : EventList) (allowed : EventRing → EventRing.Action → Prop) :
    EventRing → Prop :=
  Transition.Reaches (EventRing.step events) allowed {}

namespace EventRun

open EventRing

variable {events : EventList} {ring : EventRing}

theorem faithful (run : EventRun events (KeepsRoom events) ring) : Faithful events ring :=
  run.invariant (Faithful.init events) fun _ _ _ before room done => before.step room done

/-- When the ring is drained, all changes are reported, and the last report of
every element is its state. -/
theorem drained_reports_all (run : EventRun events (KeepsRoom events) ring)
    (drained : ring.Drained) :
    ring.reported = ring.set ∧
      ∀ event elem, lastState ring.reported event elem = ring.rt_state event elem := by
  have faithful := run.faithful
  have all : ring.reported = ring.set := by
    by_cases some_slots : events.ringSize = 0
    · obtain ⟨set, reported, -⟩ := faithful.silent some_slots
      rw [set, reported]
    · obtain ⟨pending, sends⟩ := faithful.sends some_slots
      have none_left := sends.queues.empty_iff.mp drained
      rw [sends.set, none_left, List.append_nil]
  refine ⟨all, ?_⟩
  intro event elem
  rw [all, faithful.state]

/-- Three changes of one element, with the polling loop in between. -/
def polled : List EventRing.Action :=
  let change (state : Bool) := EventRing.Action.set 0 0 state ⟨1, 0⟩
  [change true, change false, .poll, .poll, change true, .poll]

/-- The check of the run below: there is room for one more change. -/
def free (ring : EventRing) (_ : EventRing.Action) : Bool :=
  Ring.next 10 ring.eventDataWp ≠ ring.eventData

def polledRing : EventRing :=
  (Transition.perform (EventRing.step [1]) free polled {}).getD {}

theorem drained_reports_all_polled :
    polledRing.reported = polledRing.set ∧ polledRing.reported.length = 3 := by
  have sound : ∀ ring action, free ring action = true → KeepsRoom [1] ring action := by
    intro ring action room
    cases action with
    | set event elem state t => exact fun _ => of_decide_eq_true room
    | poll => trivial
  have done : Transition.perform (EventRing.step [1]) free polled {} = some polledRing := rfl
  have run : EventRun [1] (KeepsRoom [1]) polledRing := .perform sound .start done
  exact ⟨(drained_reports_all run rfl).1, rfl⟩

/-- Ten changes of one element between two turns of the polling loop. -/
def burst : EventRing :=
  (Transition.perform (EventRing.step [1]) (fun _ _ => true)
    ((List.range 10).map fun i => .set 0 0 (i % 2 = 0) ⟨1, 0⟩) {}).getD {}

/-- None of them is reported. -/
theorem burst_lost :
    EventRun [1] Transition.anyStep burst ∧ burst.Drained ∧ burst.set.length = 10 ∧
      burst.reported = [] := by
  refine ⟨?_, rfl, rfl, rfl⟩
  have done : Transition.perform (EventRing.step [1]) (fun _ _ => true)
      ((List.range 10).map fun i => .set 0 0 (i % 2 = 0) ⟨1, 0⟩) {} = some burst := rfl
  exact .perform (fun _ _ _ => trivial) .start done

/-- The change that takes the last free entry loses all that wait. -/
theorem overrun_loses (run : EventRun events (KeepsRoom events) ring)
    {event elem : Nat} {state : Bool} {t : Timespec} {after : EventRing}
    (full : ¬KeepsRoom events ring (.set event elem state t))
    (done : ring.step events (.set event elem state t) = some after) :
    after.Drained ∧ after.reported ≠ after.set := by
  obtain ⟨changed, filled⟩ := Classical.not_imp.mp full
  simp only [EventRing.step] at done
  split at done
  · next known =>
    cases done
    unfold setState
    rw [if_neg changed]
    refine ⟨(not_not.mp filled).symm, ?_⟩
    obtain ⟨pending, sends⟩ := run.faithful.sends (ringSize_ne_zero known)
    simp only [setEvent, sends.set, List.append_assoc]
    intro same
    have lengths := congrArg List.length same
    simp at lengths
  · cases done

end EventRun

end PdServ
