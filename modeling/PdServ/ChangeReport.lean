import Mathlib.Algebra.Order.Ring.Nat
import Mathlib.Data.List.Induction
import Mathlib.Tactic.Common

/-!
Reporting a value that changes, at a bounded rate. A value is read again and again;
a reading is reported if it differs from the value reported last, unless a report
was made too short a time ago. Nothing here names the server.
-/

namespace ChangeReport

variable {Value : Type}

/-- One reading of the value, and whether it was reported. -/
structure Reading (Value : Type) where
  value : Value
  reported : Bool

/-- The value reported last; the oldest reading comes first. -/
def lastReport (initial : Value) (log : List (Reading Value)) : Value :=
  log.foldl (fun last reading => if reading.reported then reading.value else last) initial

/-- The reading that comes after `log` is `interval` or more after any report. -/
def Elapsed (interval : Nat) (log : List (Reading Value)) : Prop :=
  ∀ (index : Nat) reading, log[index]? = some reading → reading.reported = true →
    interval ≤ log.length - index

/-- A counter that a report starts anew and any other reading lowers. -/
def countdown (interval : Nat) (log : List (Reading Value)) : Nat :=
  log.foldl (fun wait reading => if reading.reported then interval else wait - 1) 0

/-- Each reading is reported exactly when it is news and the interval has passed. -/
def Exact (initial : Value) (interval : Nat) (log : List (Reading Value)) : Prop :=
  ∀ older reading newer, log = older ++ reading :: newer →
    (reading.reported = true ↔
      reading.value ≠ lastReport initial older ∧ Elapsed interval older)

section

variable (initial : Value) (interval : Nat) (log : List (Reading Value)) (reading : Reading Value)

theorem lastReport_snoc : lastReport initial (log ++ [reading]) =
    if reading.reported then reading.value else lastReport initial log := by
  simp [lastReport]

theorem countdown_snoc : countdown interval (log ++ [reading]) =
    if reading.reported then interval else countdown interval log - 1 := by
  simp [countdown]

/-- What holds of the initial value and of every reading holds of the last report. -/
theorem lastReport_of_all {log} (inv : Value → Prop) (start : inv initial)
    (each : ∀ reading ∈ log, inv reading.value) : inv (lastReport initial log) := by
  induction log using List.reverseRecOn with
  | nil => exact start
  | append_singleton log reading ih =>
      rw [lastReport_snoc]
      split
      · exact each reading (by simp)
      · exact ih fun other member => each other (List.mem_append_left _ member)

/-- The interval passes when the counter has run down. -/
theorem elapsed_iff : Elapsed interval log ↔ countdown interval log ≤ 1 := by
  -- With `more` further readings that report nothing the counter is lower by as much.
  suffices ahead : ∀ more, (∀ (index : Nat) reading, log[index]? = some reading →
      reading.reported = true → interval ≤ log.length - index + more) ↔
        countdown interval log ≤ more + 1 from ahead 0
  induction log using List.reverseRecOn with
  | nil => simp [countdown]
  | append_singleton log reading ih =>
      intro more
      rw [countdown_snoc]
      constructor
      · intro passed
        split
        · rename_i reported
          have last := passed log.length reading (by simp) reported
          simp at last
          omega
        · have before := (ih (more + 1)).mp fun index other found reported => by
            have inside := (List.getElem?_eq_some_iff.mp found).1
            have later := passed index other
              ((List.getElem?_append_left inside).trans found) reported
            simp at later
            omega
          omega
      · intro low index other found reported
        have inside := (List.getElem?_eq_some_iff.mp found).1
        simp only [List.length_append, List.length_singleton] at inside ⊢
        by_cases last : index = log.length
        · subst last
          simp only [List.getElem?_concat_length, Option.some.injEq] at found
          subst found
          rw [if_pos reported] at low
          omega
        · have before : index < log.length := by omega
          rw [List.getElem?_append_left before] at found
          split at low
          · omega
          · have := (ih (more + 1)).mpr (by omega) index other found reported
            omega

end

variable {initial : Value} {interval : Nat} {log : List (Reading Value)}

theorem Exact.nil : Exact initial interval [] := by
  intro older reading newer split
  simp at split

theorem Exact.snoc (exact' : Exact initial interval log) {reading : Reading Value}
    (next : reading.reported = true ↔
      reading.value ≠ lastReport initial log ∧ Elapsed interval log) :
    Exact initial interval (log ++ [reading]) := by
  intro older other newer split
  rcases List.eq_nil_or_concat newer with rfl | ⟨rest, last, rfl⟩
  · obtain ⟨rfl, same⟩ := List.append_inj' split rfl
    cases same
    exact next
  · rw [List.concat_eq_append, ← List.cons_append, ← List.append_assoc] at split
    obtain ⟨same, -⟩ := List.append_inj' split rfl
    exact exact' older other rest same

/-- No update is lost: once the interval has passed, the value reported last is the
current one. -/
theorem Exact.current (exact' : Exact initial interval log) {older newer : List (Reading Value)}
    {reading : Reading Value} (split : log = older ++ reading :: newer)
    (elapsed : Elapsed interval older) :
    lastReport initial (older ++ [reading]) = reading.value := by
  rw [lastReport_snoc]
  split
  · rfl
  · rename_i silent
    by_contra news
    exact silent ((exact' older reading newer split).mpr ⟨fun same => news same.symm, elapsed⟩)

/-- Two reports are an interval apart. -/
theorem Exact.apart (exact' : Exact initial interval log) {first second : Nat}
    {earlier later : Reading Value} (before : first < second)
    (at_first : log[first]? = some earlier) (at_second : log[second]? = some later)
    (reported : earlier.reported = true) (again : later.reported = true) :
    interval ≤ second - first := by
  obtain ⟨inside, rfl⟩ := List.getElem?_eq_some_iff.mp at_second
  have split : log = log.take second ++ log[second] :: log.drop (second + 1) := by simp
  have elapsed := ((exact' _ _ _ split).mp again).2
  have found : (log.take second)[first]? = some earlier := by
    rw [List.getElem?_take_of_lt before]
    exact at_first
  have passed := elapsed first earlier found reported
  rw [List.length_take_of_le (Nat.le_of_lt inside)] at passed
  exact passed

end ChangeReport
