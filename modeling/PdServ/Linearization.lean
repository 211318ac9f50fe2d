import Mathlib.Logic.Function.Basic
import Mathlib.Tactic.Common

/-!
Operations on a shared object that take effect one after the other, each between its
call and its return, while their callers run side by side. Nothing here names the server.
-/

namespace Linearization

variable {Caller Operation Result Object : Type}

/-- An operation that took effect, and its caller. -/
structure Effect (Caller Operation Result : Type) where
  caller : Caller
  operation : Operation
  result : Result

/-- The object goes through these effects one by one. Between two of them it may change
by itself. -/
inductive Explains (apply : Object → Operation → Result × Object) (own : Object → Object → Prop)
    (start : Object) : List (Effect Caller Operation Result) → Object → Prop
  | start : Explains apply own start [] start
  | effect {log before} (caller : Caller) (operation : Operation) :
      Explains apply own start log before →
      Explains apply own start (log ++ [⟨caller, operation, (apply before operation).1⟩])
        (apply before operation).2
  | own {log before after} : Explains apply own start log before → own before after →
      Explains apply own start log after

section

variable [DecidableEq Caller]

/-- The operations of one caller with their results, in the order of their effects. -/
def effectsOf (caller : Caller) : List (Effect Caller Operation Result) → List (Operation × Result)
  | [] => []
  | effect :: rest =>
      if effect.caller = caller then (effect.operation, effect.result) :: effectsOf caller rest
      else effectsOf caller rest

theorem effectsOf_append (caller : Caller) (log more : List (Effect Caller Operation Result)) :
    effectsOf caller (log ++ more) = effectsOf caller log ++ effectsOf caller more := by
  induction log with
  | nil => rfl
  | cons effect rest ih =>
      simp only [List.cons_append, effectsOf, ih]
      split <;> rfl

/-- Every effect was reported to its caller, up to one that the caller still waits for. -/
def Accounts (log : List (Effect Caller Operation Result))
    (returned : Caller → List (Operation × Result))
    (pending : Caller → Option (Operation × Result)) : Prop :=
  ∀ caller, effectsOf caller log = returned caller ++ (pending caller).toList

variable {log : List (Effect Caller Operation Result)}
  {returned : Caller → List (Operation × Result)} {pending : Caller → Option (Operation × Result)}

theorem Accounts.start : Accounts ([] : List (Effect Caller Operation Result)) (fun _ => [])
    (fun _ => none) := fun _ => rfl

theorem Accounts.effect (accounts : Accounts log returned pending) {caller : Caller}
    (first : pending caller = none) (operation : Operation) (result : Result) :
    Accounts (log ++ [⟨caller, operation, result⟩]) returned
      (Function.update pending caller (some (operation, result))) := by
  intro other
  rw [effectsOf_append, accounts other]
  by_cases same : caller = other
  · subst same
    simp [effectsOf, first]
  · simp [effectsOf, same, Ne.symm same]

theorem Accounts.report (accounts : Accounts log returned pending) {caller : Caller}
    {done : Operation × Result} (there : pending caller = some done) :
    Accounts log (Function.update returned caller (returned caller ++ [done]))
      (Function.update pending caller none) := by
  intro other
  rw [accounts other]
  by_cases same : other = caller
  · subst same
    simp [there]
  · simp [same]

theorem Accounts.prefix (accounts : Accounts log returned pending) (caller : Caller) :
    returned caller <+: effectsOf caller log := by
  rw [accounts caller]
  exact List.prefix_append _ _

end

end Linearization
