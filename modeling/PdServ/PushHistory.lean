import Mathlib.Data.List.Basic
import Mathlib.Tactic.Common

/-!
The history of a party that is told about changes of keys and passes them on in rounds:
a round takes keys that wait, sends them one by one and ends. Changes go on meanwhile.
A history begins with its last event. Nothing here names the server.
-/

namespace PushHistory

inductive Event (Key Topic : Type) where
  | changed (key : Key)
  | announced (topic : Topic)
  | took (keys : List Key)
  | sent (key : Key)
  | ended
deriving DecidableEq

variable {Key Topic : Type} [DecidableEq Key]

/-- The key was changed after the last round that took it. -/
def waiting (key : Key) : List (Event Key Topic) → Bool
  | [] => false
  | .changed other :: older => other = key || waiting key older
  | .took keys :: older => key ∉ keys && waiting key older
  | _ :: older => waiting key older

/-- The rounds that have left a waiting key behind. -/
def rounds (key : Key) : List (Event Key Topic) → Nat
  | [] => 0
  | .took keys :: older =>
      if key ∈ keys then 0 else if waiting key older then rounds key older + 1 else 0
  | _ :: older => rounds key older

def isTook : Event Key Topic → Bool
  | .took _ => true
  | _ => false

/-- What happened since a round took its keys. -/
def thisRound (history : List (Event Key Topic)) : List (Event Key Topic) :=
  history.takeWhile fun event => !isTook event

/-- What happened after the last change of a key. -/
def sinceChange (key : Key) (history : List (Event Key Topic)) : List (Event Key Topic) :=
  history.takeWhile fun event => match event with
    | .changed other => other ≠ key
    | _ => true

/-- What happened after the last time a key was sent. -/
def sinceSent (key : Key) (history : List (Event Key Topic)) : List (Event Key Topic) :=
  history.takeWhile fun event => match event with
    | .sent other => other ≠ key
    | _ => true

/-- What happened after the round that sent a key last had taken its keys. -/
def sinceTaken (key : Key) : List (Event Key Topic) → List (Event Key Topic)
  | [] => []
  | .sent other :: older =>
      .sent other :: if other = key then thisRound older else sinceTaken key older
  | event :: older => event :: sinceTaken key older

/-- Every key was changed before it was sent, after the round that sent it before had
taken its keys. -/
def Justified (history : List (Event Key Topic)) : Prop :=
  ∀ (newer older : List (Event Key Topic)) (key : Key), history = newer ++ .sent key :: older →
    .changed key ∈ sinceTaken key older

variable {key : Key} {history : List (Event Key Topic)}

omit [DecidableEq Key] in
@[simp] theorem thisRound_cons (event : Event Key Topic) (older : List (Event Key Topic)) :
    thisRound (event :: older) = if isTook event then [] else event :: thisRound older := by
  rw [thisRound, List.takeWhile_cons]
  cases event <;> rfl

/-- A key that waits was left behind by a round, or was changed during the last one. -/
theorem waiting_cases (waits : waiting key history = true) :
    0 < rounds key history ∨ .changed key ∈ thisRound history := by
  induction history with
  | nil => cases waits
  | cons event older ih =>
      cases event with
      | changed other =>
          by_cases same : other = key
          · subst same
            exact .inr (by simp [isTook])
          · simp only [waiting, same, decide_false, Bool.false_or] at waits
            exact (ih waits).imp id fun later => by simp [isTook, later]
      | took keys =>
          simp only [waiting, Bool.and_eq_true, decide_eq_true_eq] at waits
          refine .inl ?_
          simp only [rounds, waits.1, waits.2, ↓reduceIte]
          exact Nat.succ_pos _
      | announced topic => exact (ih waits).imp id fun later => by simp [isTook, later]
      | sent other => exact (ih waits).imp id fun later => by simp [isTook, later]
      | ended => exact (ih waits).imp id fun later => by simp [isTook, later]

theorem mem_sinceTaken_cons {wanted event : Event Key Topic} (other : event ≠ .sent key)
    (earlier : wanted ∈ sinceTaken key history) :
    wanted ∈ sinceTaken key (event :: history) := by
  cases event with
  | sent sent =>
      have apart : sent ≠ key := fun same => other (congrArg Event.sent same)
      rw [sinceTaken, if_neg apart]
      exact List.mem_cons_of_mem _ earlier
  | changed _ | announced _ | took _ | ended => exact List.mem_cons_of_mem _ earlier

theorem mem_sinceChange_cons {wanted event : Event Key Topic} (other : event ≠ .changed key)
    (earlier : wanted ∈ sinceChange key history) :
    wanted ∈ sinceChange key (event :: history) := by
  cases event with
  | changed changed =>
      have apart : changed ≠ key := fun same => other (congrArg Event.changed same)
      rw [sinceChange, List.takeWhile_cons_of_pos (by simpa using apart)]
      exact List.mem_cons_of_mem _ earlier
  | announced _ | took _ | sent _ | ended => exact List.mem_cons_of_mem _ earlier

theorem Justified.nil : Justified ([] : List (Event Key Topic)) := by
  intro newer older key shape
  simp at shape

theorem Justified.cons {event : Event Key Topic} (justified : Justified history)
    (here : ∀ key, event = .sent key → .changed key ∈ sinceTaken key history) :
    Justified (event :: history) := by
  intro newer older key shape
  cases newer with
  | nil =>
      obtain ⟨rfl, rfl⟩ := List.cons.inj shape
      exact here key rfl
  | cons first newer => exact justified newer older key (List.cons.inj shape).2

end PushHistory
