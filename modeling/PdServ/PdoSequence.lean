import PdServ.PdoChain
import Mathlib.Data.List.Chain

/-!
The PDOs of a task in the order of their publication: where they lie, how the
Data PDOs are numbered, and which lists they carry. A Data PDO always carries
the list of the PDO before it.
-/

namespace PdServ

namespace Published

/-- The signals whose values or indexes the PDO carries, in order. -/
def list : Published → List Nat
  | .signals pdo => pdo.signals
  | .data pdo => (List.range 4).flatMap pdo.copied

/-- Inside the memory of the PDOs, a byte before its end at the latest. -/
def Placed (S : Setup) (pdo : Published) : Prop :=
  S.txMemBegin ≤ pdo.address ∧ pdo.address + pdo.size < S.txMemEnd

/-- What can come after a PDO. -/
def Continues (before next : Published) : Prop :=
  next.isData = true → next.signalListId = before.signalListId ∧ next.list = before.list

/-- The list of the PDO is the one after `part` of the changes. -/
def Carries (S : Setup) (part : List SignalList) (pdo : Published) : Prop :=
  pdo.signalListId = part.length % 2 ^ 32 ∧
    pdo.list = (List.range 4).flatMap (listsAfter S part)

end Published

namespace Task

variable {S : Setup} {task after : Task} {events new : List TaskEvent}

/-- Number of Data PDOs. -/
def dataCount (pdos : List Published) : Nat := pdos.countP Published.isData

@[simp] theorem dataCount_append (front back : List Published) :
    dataCount (front ++ back) = dataCount front + dataCount back :=
  List.countP_append ..

@[simp] theorem dataCount_nil : dataCount [] = 0 := rfl

theorem dataCount_data (pdo : DataPdo) : dataCount [.data pdo] = 1 := rfl

theorem dataCount_signals (pdo : SignalsPdo) : dataCount [.signals pdo] = 0 := rfl

structure Ordered (S : Setup) (task : Task) (events : List TaskEvent) : Prop where
  placed : ∀ pdo ∈ pdos events, pdo.Placed S
  numbered : ∀ front pdo back, pdos events = front ++ .data pdo :: back →
    pdo.seqNo = dataCount front % 2 ^ 32
  counted : task.rt.seqNo = dataCount (pdos events) % 2 ^ 32
  continues : (pdos events).IsChain Published.Continues
  current : (∀ t, task.phase ≠ .draining t) → ∀ last ∈ (pdos events).getLast?,
    last.signalListId = task.rt.signalListId ∧
      last.list = (List.range 4).flatMap (copied S task.rt)

namespace Ordered

theorem init : Ordered S (Task.init S) [] where
  placed := by
    intro pdo member
    cases member
  numbered := by
    intro front pdo back split
    simp [pdos] at split
  counted := rfl
  continues := List.isChain_nil
  current := by
    intro _ last member
    cases member

theorem quiet (ordered : Ordered S task events) (quiet : Quiet S task after new) :
    Ordered S after (events ++ new) := by
  have same : pdos (events ++ new) = pdos events := by
    rw [pdos_append, quiet.none_new, List.append_nil]
  constructor
  case placed =>
    rw [same]
    exact ordered.placed
  case numbered =>
    rw [same]
    exact ordered.numbered
  case counted =>
    rw [same, quiet.seqNo]
    exact ordered.counted
  case continues =>
    rw [same]
    exact ordered.continues
  case current =>
    rw [same]
    intro calm
    obtain ⟨id, lists⟩ := quiet.lists calm
    rw [id, lists]
    exact ordered.current (quiet.draining calm)

theorem placed_of_publishes {pdo : Published} {stores : List (Nat × List UInt8)}
    (publishes : Publishes S task after pdo stores) (low : S.txMemBegin ≤ task.rt.txPdo)
    (sized : pdo.Sized S) : pdo.Placed S := by
  have placed := publishes.placed
  have room := S.room
  have small := sized.small
  unfold Published.Placed
  split at placed <;> omega

/-- A further PDO, with what it has to say about numbers and lists. -/
theorem publish {pdo : Published} (ordered : Ordered S task events)
    (only : pdos new = [pdo]) (placed : pdo.Placed S)
    (numbered : ∀ data, pdo = .data data → data.seqNo = task.rt.seqNo)
    (counted : after.rt.seqNo = (task.rt.seqNo + dataCount [pdo]) % 2 ^ 32)
    (continues : ∀ last ∈ (pdos events).getLast?, last.Continues pdo)
    (current : pdo.signalListId = after.rt.signalListId ∧
      pdo.list = (List.range 4).flatMap (copied S after.rt)) :
    Ordered S after (events ++ new) := by
  have longer : pdos (events ++ new) = pdos events ++ [pdo] := by
    rw [pdos_append, only]
  constructor
  case placed =>
    rw [longer]
    intro other member
    rcases List.mem_append.mp member with old | fresh
    · exact ordered.placed other old
    · rw [List.mem_singleton] at fresh
      subst fresh
      exact placed
  case numbered =>
    rw [longer]
    intro front data back split
    rcases List.eq_nil_or_concat back with rfl | ⟨rest, last, rfl⟩
    · obtain ⟨same, single⟩ := List.append_inj' split rfl
      rw [numbered data (List.cons.inj single).1, ordered.counted, same]
    · apply ordered.numbered front data rest
      have split' : pdos events ++ [pdo] = (front ++ .data data :: rest) ++ [last] := by
        simpa using split
      exact (List.append_inj' split' rfl).1
  case counted =>
    rw [longer, dataCount_append, counted, ordered.counted]
    omega
  case continues =>
    rw [longer]
    apply List.isChain_append.mpr
    refine ⟨ordered.continues, List.isChain_singleton _, ?_⟩
    intro last member next single
    cases single
    exact continues last member
  case current =>
    rw [longer]
    intro _ last member
    rw [List.getLast?_concat] at member
    cases member
    exact current

theorem step {action : Action} (ordered : Ordered S task events)
    (follows : Follows S task events) (streams : Streams S task events)
    (done : task.step S action = some (after, new)) : Ordered S after (events ++ new) := by
  have later := (follows.step done).sized
  have low := streams.place_inside.1
  rw [pdos_append] at later
  rcases step_cases follows streams.seqNo done with quiet | ⟨pdo, signals⟩ | ⟨pdo, data⟩
  · exact ordered.quiet quiet
  · have told := signals.told
    subst told
    have sized := later (.signals pdo) (by simp [pdos, TaskEvent.pdo?])
    apply ordered.publish rfl (placed_of_publishes signals.publishes low sized)
    · intro data same
      cases same
    · rw [signals.seqNo, dataCount_signals]
      exact (Nat.mod_eq_of_lt streams.seqNo).symm
    · intro last _ isData
      cases isData
    · rw [signals.lists.1, signals.lists.2]
      exact ⟨signals.signalListId, signals.signals⟩
  · have told := data.told
    subst told
    have sized := later (.data pdo) (by simp [pdos, TaskEvent.pdo?])
    obtain ⟨stores, publishes⟩ := data.publishes
    obtain ⟨t, copying, -, -⟩ := data.turn
    have list : Published.list (.data pdo) =
        (List.range 4).flatMap (copied S task.rt) := by
      rw [← data.copied]
      rfl
    apply ordered.publish rfl (placed_of_publishes publishes low sized)
    · intro other same
      cases same
      exact data.number
    · exact data.seqNo
    · intro last member _
      obtain ⟨id, lists⟩ := ordered.current (by simp [copying]) last member
      exact ⟨data.signalListId.trans id.symm, list.trans lists.symm⟩
    · rw [data.lists.1, data.lists.2]
      exact ⟨data.signalListId, list⟩

end Ordered

/-- The list of a PDO is the one after a part of the changes. -/
theorem Follows.carries (follows : Follows S task events) :
    ∀ pdo ∈ pdos events, ∃ part, part <+: published events ∧ pdo.Carries S part := by
  intro pdo member
  obtain ⟨event, happened, same⟩ := List.mem_filterMap.mp member
  have told := follows.told event happened
  cases event with
  | changed entry lists => cases same
  | processed entry => cases same
  | signals pdo =>
      cases same
      obtain ⟨part, early, id, signals⟩ := told
      exact ⟨part, early, id, signals⟩
  | data pdo =>
      cases same
      obtain ⟨part, early, id, copied, -⟩ := told
      exact ⟨part, early, id, congrArg (fun lists => (List.range 4).flatMap lists) copied⟩

theorem Follows.list_fit (follows : Follows S task events) :
    ∀ pdo ∈ pdos events, pdo.list.Nodup ∧ ∀ s ∈ pdo.list, s < S.signals.length := by
  intro pdo member
  obtain ⟨part, early, -, list⟩ := follows.carries pdo member
  have fit := (follows.log.part early).listsFit
  rw [list]
  exact ⟨fit.all_nodup, fit.all_known⟩

theorem Follows.bytes_eq {pdo : DataPdo} (follows : Follows S task events)
    (member : .data pdo ∈ pdos events) : pdo.bytes = sampled S pdo.values pdo.copied := by
  obtain ⟨event, happened, same⟩ := List.mem_filterMap.mp member
  have told := follows.told event happened
  cases event with
  | changed entry lists => cases same
  | processed entry => cases same
  | signals pdo => cases same
  | data pdo =>
      cases same
      obtain ⟨_, _, _, _, bytes⟩ := told
      exact bytes

theorem Follows.length_data {pdo : DataPdo} (follows : Follows S task events)
    (member : .data pdo ∈ pdos events) :
    pdo.bytes.length = ((Published.list (.data pdo)).map S.sizeOf).sum := by
  rw [follows.bytes_eq member, length_sampled]
  rfl

end Task

theorem TaskRun.ordered {S : Setup} {task : Task} {events : List TaskEvent}
    (run : TaskRun S task events) : Task.Ordered S task events := by
  induction run with
  | start => exact Task.Ordered.init
  | step action run done ih => exact ih.step run.follows run.streams done

/-- The memory of the PDOs is clear until the first one is published. -/
theorem TaskRun.memory_clear {S : Setup} {task : Task} {events : List TaskEvent}
    (run : TaskRun S task events) (none_there : Task.pdos events = []) :
    task.shmem.memory = fun _ => 0 := by
  induction run with
  | start => rfl
  | step action run done ih =>
      rw [Task.pdos_append, List.append_eq_nil_iff] at none_there
      rcases Task.step_cases run.follows run.streams.seqNo done with
        quiet | ⟨pdo, signals⟩ | ⟨pdo, data⟩
      · exact quiet.memory.trans (ih none_there.1)
      · rw [signals.told] at none_there
        cases none_there.2
      · rw [data.told] at none_there
        cases none_there.2

end PdServ
