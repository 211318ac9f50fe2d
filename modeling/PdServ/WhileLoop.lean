import Mathlib.Tactic.Common

/-!
Loops whose body leaves, or goes round again and puts something out on the way. What
a loop comes to is a relation that knows no bound on the rounds; a run of it is given
a number of them. Where a measure of the state falls with every round, the loop ends,
and more rounds than the measure are enough. Nothing here names the server.
-/

namespace WhileLoop

variable {State Output Result : Type}

inductive Round (State Output Result : Type) where
  | again (output : Output) (next : State)
  | leave (result : Result)
deriving DecidableEq, Repr

/-- The loop comes to a result, and this is what its rounds put out. It comes to none
where the body has no round or never leaves. -/
inductive Ends (body : State → Option (Round State Output Result)) :
    State → List Output → Result → Prop
  | leave {state : State} {result : Result} : body state = some (.leave result) →
      Ends body state [] result
  | again {state next : State} {output : Output} {outputs : List Output} {result : Result} :
      body state = some (.again output next) → Ends body next outputs result →
      Ends body state (output :: outputs) result

/-- Go through the body this many times at most. -/
def run (body : State → Option (Round State Output Result)) :
    Nat → State → Option (List Output × Result)
  | 0, _ => none
  | rounds + 1, state =>
      match body state with
      | none => none
      | some (.leave result) => some ([], result)
      | some (.again output next) =>
          match run body rounds next with
          | none => none
          | some (outputs, result) => some (output :: outputs, result)

/-- Every round that is not the last one makes the measure smaller. -/
def Descends (body : State → Option (Round State Output Result)) (measure : State → Nat) : Prop :=
  ∀ state output next, body state = some (.again output next) → measure next < measure state

variable {body : State → Option (Round State Output Result)} {measure : State → Nat}
  {state : State} {outputs : List Output} {result : Result}

theorem Ends.run (ends : Ends body state outputs result) {rounds : Nat}
    (enough : outputs.length < rounds) :
    WhileLoop.run body rounds state = some (outputs, result) := by
  induction ends generalizing rounds with
  | leave leaves =>
      cases rounds with
      | zero => cases enough
      | succ rounds => rw [WhileLoop.run, leaves]
  | again goes _ ih =>
      cases rounds with
      | zero => cases enough
      | succ rounds =>
          have later := ih (Nat.lt_of_succ_lt_succ enough)
          rw [WhileLoop.run, goes]
          simp only [later]

theorem ends_of_run {rounds : Nat} (done : run body rounds state = some (outputs, result)) :
    Ends body state outputs result ∧ outputs.length < rounds := by
  induction rounds generalizing state outputs with
  | zero => cases done
  | succ rounds ih =>
      rw [run] at done
      split at done
      · cases done
      · next leaves =>
        cases done
        exact ⟨.leave leaves, Nat.succ_pos _⟩
      · next goes =>
        split at done
        · cases done
        · next later =>
          cases done
          obtain ⟨ends, enough⟩ := ih later
          exact ⟨.again goes ends, Nat.succ_lt_succ enough⟩

/-- The number of rounds makes no difference but for being enough. -/
theorem run_iff {rounds : Nat} : run body rounds state = some (outputs, result) ↔
    Ends body state outputs result ∧ outputs.length < rounds :=
  ⟨ends_of_run, fun ⟨ends, enough⟩ => ends.run enough⟩

theorem Ends.length_le (descends : Descends body measure)
    (ends : Ends body state outputs result) : outputs.length ≤ measure state := by
  induction ends with
  | leave _ => exact Nat.zero_le _
  | again goes _ ih => exact Nat.lt_of_le_of_lt ih (descends _ _ _ goes)

/-- The induction is on the measure of the state the loop is entered in. -/
theorem Descends.ends (descends : Descends body measure) (total : ∀ state, body state ≠ none)
    (state : State) : ∃ outputs result, Ends body state outputs result := by
  induction size : measure state using Nat.strongRecOn generalizing state with
  | ind size ih =>
      subst size
      cases here : body state with
      | none => exact absurd here (total state)
      | some round =>
          cases round with
          | leave result => exact ⟨[], result, .leave here⟩
          | again output next =>
              obtain ⟨outputs, result, later⟩ := ih _ (descends _ _ _ here) next rfl
              exact ⟨output :: outputs, result, .again here later⟩

theorem Descends.run (descends : Descends body measure) (total : ∀ state, body state ≠ none)
    (state : State) {rounds : Nat} (enough : measure state < rounds) :
    ∃ outputs result, Ends body state outputs result ∧ outputs.length ≤ measure state ∧
      WhileLoop.run body rounds state = some (outputs, result) := by
  obtain ⟨outputs, result, ends⟩ := descends.ends total state
  have few := ends.length_le descends
  exact ⟨outputs, result, ends, few, ends.run (Nat.lt_of_le_of_lt few enough)⟩

end WhileLoop
