import Mathlib.Tactic.Common

/-!
Parties that remember what a store held under a key, while others change the store and
send word of it. Nothing here names the server.
-/

namespace Invalidation

variable {Key Value : Type}

/-- What a party is told: the value of a key, or that it has changed. -/
inductive Message (Key Value : Type) where
  | value (key : Key) (value : Value)
  | changed (key : Key)
deriving DecidableEq

section

variable [DecidableEq Key]

/-- The value of a key that was not called in since; messages begin with the last. -/
def remembered (key : Key) : List (Message Key Value) → Option Value
  | [] => none
  | .value other value :: older => if other = key then some value else remembered key older
  | .changed other :: older => if other = key then none else remembered key older

@[simp] theorem remembered_value_self (key : Key) (value : Value)
    (older : List (Message Key Value)) :
    remembered key (.value key value :: older) = some value := if_pos rfl

@[simp] theorem remembered_changed_self (key : Key) (older : List (Message Key Value)) :
    remembered key (.changed key :: older) = none := if_pos rfl

theorem remembered_value_ne {key other : Key} (apart : other ≠ key) (value : Value)
    (older : List (Message Key Value)) :
    remembered key (.value other value :: older) = remembered key older := if_neg apart

theorem remembered_changed_ne {key other : Key} (apart : other ≠ key)
    (older : List (Message Key Value)) :
    remembered key (.changed other :: older) = remembered key older := if_neg apart

end

/-- Whatever is known of a key is what the store holds, or word of a change is due. -/
def Coherent (store : Key → Value) (known : Key → Value → Prop) (due : Key → Prop) : Prop :=
  ∀ key value, known key value → store key = value ∨ due key

variable {store store' : Key → Value} {known known' : Key → Value → Prop} {due due' : Key → Prop}

theorem Coherent.start (nothing : ∀ key value, ¬ known key value) : Coherent store known due :=
  fun key value knows => absurd knows (nothing key value)

/-- What is new was read now, what changes becomes due, and word that is due is passed on
or makes the party forget. -/
theorem Coherent.step (coherent : Coherent store known due)
    (changes : ∀ key, store' key = store key ∨ due' key)
    (reads : ∀ key value, known' key value → known key value ∨ store' key = value)
    (passes : ∀ key value, due key → known' key value → due' key) :
    Coherent store' known' due' := by
  intro key value knows
  rcases reads key value knows with before | now
  · rcases coherent key value before with holds | waits
    · exact (changes key).imp_left fun same => same.trans holds
    · exact .inr (passes key value waits knows)
  · exact .inl now

/-- The store stands still. -/
theorem Coherent.move (coherent : Coherent store known due)
    (reads : ∀ key value, known' key value → known key value)
    (passes : ∀ key value, due key → known' key value → due' key) :
    Coherent store known' due' :=
  coherent.step (fun _ => .inl rfl) (fun key value knows => .inl (reads key value knows)) passes

end Invalidation
