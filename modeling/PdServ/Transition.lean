import Mathlib.Tactic.Common

/-!
Runs of a system that takes step after step, each of them an action that may
be refused. `allowed` restricts a run to steps that meet a condition. Nothing
here names the server.
-/

namespace Transition

variable {State Action : Type}

/-- The states reached from `start` by allowed steps. -/
inductive Reaches (step : State → Action → Option State)
    (allowed : State → Action → Prop) (start : State) : State → Prop
  | start : Reaches step allowed start start
  | step {before after} (action : Action) : Reaches step allowed start before →
      allowed before action → step before action = some after →
      Reaches step allowed start after

/-- Every step is allowed. -/
def anyStep (_ : State) (_ : Action) : Prop := True

variable {step : State → Action → Option State} {allowed : State → Action → Prop}
  {start : State}

theorem Reaches.invariant {Holds : State → Prop} {reached : State}
    (run : Reaches step allowed start reached) (initial : Holds start)
    (preserved : ∀ before action after, Holds before → allowed before action →
      step before action = some after → Holds after) : Holds reached := by
  induction run with
  | start => exact initial
  | step action _ fine done ih => exact preserved _ action _ ih fine done

theorem Reaches.trans {middle reached : State} (first : Reaches step allowed start middle)
    (rest : Reaches step allowed middle reached) : Reaches step allowed start reached := by
  induction rest with
  | start => exact first
  | step action _ fine done ih => exact .step action ih fine done

/-- Take these actions one after the other, as long as they pass a check. -/
def perform (step : State → Action → Option State) (check : State → Action → Bool) :
    List Action → State → Option State
  | [], reached => some reached
  | action :: rest, state =>
      if check state action then (step state action).bind (perform step check rest)
      else none

theorem Reaches.perform {check : State → Action → Bool}
    (sound : ∀ state action, check state action = true → allowed state action)
    {actions : List Action} {before after : State}
    (run : Reaches step allowed start before)
    (done : Transition.perform step check actions before = some after) :
    Reaches step allowed start after := by
  induction actions generalizing before with
  | nil =>
      cases done
      exact run
  | cons action rest ih =>
      rw [Transition.perform] at done
      split at done
      · next fine =>
        obtain ⟨middle, here, later⟩ := Option.bind_eq_some_iff.mp done
        exact ih (.step action run (sound before action fine) here) later
      · cases done

/-! ### Coming to rest -/

/-- What falls with each of some steps and with no other rises bounds their number. -/
theorem perform_bounded {check : State → Action → Bool} (counted : Action → Bool)
    (measure : State → Nat) {actions : List Action} {before after : State}
    (falls : ∀ state action next, action ∈ actions → step state action = some next →
      measure next + (counted action).toNat ≤ measure state)
    (done : Transition.perform step check actions before = some after) :
    measure after + (actions.filter counted).length ≤ measure before := by
  induction actions generalizing before with
  | nil =>
      cases done
      exact Nat.le_refl _
  | cons action rest ih =>
      rw [Transition.perform] at done
      split at done
      · obtain ⟨middle, here, later⟩ := Option.bind_eq_some_iff.mp done
        have first := falls before action middle List.mem_cons_self here
        have others := ih (fun state action next member => falls state action next
          (List.mem_cons_of_mem _ member)) later
        cases counts : counted action <;> simp [counts] at first ⊢ <;> omega
      · cases done

/-- Where some party can go on as long as there is work, and this makes the work less, the
work gets done. -/
theorem comes_to_rest (Holds resting : State → Prop) (measure : State → Nat)
    (goes_on : ∀ before, Holds before → ¬ resting before → ∃ action after,
      allowed before action ∧ step before action = some after ∧ Holds after ∧
        measure after < measure before)
    {start : State} (holds : Holds start) :
    ∃ last, Reaches step allowed start last ∧ Holds last ∧ resting last := by
  induction size : measure start using Nat.strongRecOn generalizing start with
  | ind size ih =>
      subst size
      by_cases rests : resting start
      · exact ⟨start, .start, holds, rests⟩
      · obtain ⟨action, after, fine, done, still, less⟩ := goes_on start holds rests
        obtain ⟨last, run, kept, rest⟩ := ih _ less still rfl
        have first : Reaches step allowed start after := .step action .start fine done
        exact ⟨last, first.trans run, kept, rest⟩

/-! ### One party going on alone -/

/-- So many turns one after the other. -/
def turns (turn : State → Option State) : Nat → State → Option State
  | 0, state => some state
  | count + 1, state => (turn state).bind (turns turn count)

variable {turn : State → Option State}

theorem turns_add {first second : Nat} {before middle after : State}
    (left : turns turn first before = some middle)
    (right : turns turn second middle = some after) :
    turns turn (first + second) before = some after := by
  induction first generalizing before with
  | zero =>
      cases left
      rw [Nat.zero_add]
      exact right
  | succ first ih =>
      obtain ⟨next, here, later⟩ := Option.bind_eq_some_iff.mp left
      rw [Nat.succ_add, turns, here]
      exact ih later

theorem turns_one {before after : State} (here : turn before = some after) :
    turns turn 1 before = some after := by
  rw [turns, here]
  rfl

/-- Where a turn is possible and keeps what holds, it goes on for ever. -/
theorem turns_forever {Holds : State → Prop}
    (goes_on : ∀ before, Holds before → ∃ after, turn before = some after ∧ Holds after)
    (count : Nat) {start : State} (holds : Holds start) :
    ∃ after, turns turn count start = some after ∧ Holds after := by
  induction count generalizing start with
  | zero => exact ⟨start, rfl, holds⟩
  | succ count ih =>
      obtain ⟨next, here, later⟩ := goes_on start holds
      obtain ⟨after, there, still⟩ := ih later
      refine ⟨after, ?_, still⟩
      rw [turns, here]
      exact there

end Transition
