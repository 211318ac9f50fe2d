import PdServ.SubscriptionFocus

/-!
The counter of one decimation group, from the creation of the group on. A group is
there as long as it has a subscription; a run follows one group until it is removed.
-/

namespace PdServ

open Std TreeUpdate

/-- The counter of `activeSignals[group][decimation]`. -/
def ActiveSignals.counter? (active : ActiveSignals) (group decimation : Nat) : Option Nat :=
  (active[group]?.bind fun decimations => decimations[decimation]?).map BlocksizeGroup.counter

/-- `if (!counter) counter = start; --counter` -/
def countDown (start counter : Nat) : Nat :=
  ((if counter = 0 then start else counter) + (2 ^ 64 - 1)) % 2 ^ 64

theorem BlocksizeGroup.busy_eq (blocksizes : BlocksizeGroup) (start : Nat) :
    blocksizes.busy start = (countDown start blocksizes.counter != 0,
      { blocksizes with counter := countDown start blocksizes.counter }) := rfl

namespace ActiveSignals

variable {active : ActiveSignals} {group decimation : Nat}

theorem counter?_modify (active : ActiveSignals) (g d blocksize : Nat)
    (change : SubscriptionSet → SubscriptionSet) (group decimation : Nat) :
    (active.modify g d blocksize change).counter? group decimation =
      if g = group ∧ d = decimation then some ((active.counter? group decimation).getD 0)
      else active.counter? group decimation := by
  unfold counter? modify
  by_cases here : g = group
  · subst here
    rw [getElem?_insert_self, Option.bind_some]
    by_cases same : d = decimation
    · subst same
      rw [getElem?_insert_self, if_pos ⟨rfl, rfl⟩]
      cases active[g]? with
      | none => simp
      | some decimations => cases stored : decimations[d]? <;> simp [stored]
    · rw [getElem?_insert_other _ _ same, if_neg fun both => same both.2]
      cases active[g]? with
      | none => simp
      | some decimations => simp
  · rw [getElem?_insert_other _ _ here, if_neg fun both => here both.1]

/-- What is left of a set or a group keeps its counter. -/
theorem counter?_eraseFrom {g d : Nat} {decimations : DecimationGroup} {blocksizes : BlocksizeGroup}
    (first : active[g]? = some decimations) (second : decimations[d]? = some blocksizes)
    (blocksize : Nat) (set : SubscriptionSet) (address group decimation : Nat) :
    (active.eraseFrom g decimations d blocksizes blocksize set address).counter? group decimation =
        none ∨
      (active.eraseFrom g decimations d blocksizes blocksize set address).counter? group decimation =
        active.counter? group decimation := by
  unfold counter? eraseFrom
  by_cases here : g = group
  · subst here
    rw [getElem?_prune_self, first]
    split
    · exact .inl rfl
    · by_cases same : d = decimation
      · subst same
        rw [Option.bind_some, Option.bind_some, getElem?_prune_self, second]
        split
        · exact .inl rfl
        · exact .inr rfl
      · rw [Option.bind_some, Option.bind_some, getElem?_prune_other _ _ _ same]
        exact .inr rfl
  · rw [getElem?_prune_other _ _ _ here]
    exact .inr rfl

theorem getElem?_none_of_keys {Value : Type} {map result : TreeMap Nat Value} {key : Nat}
    (keys : key ∈ result ↔ key ∈ map) (absent : result[key]? = none) : map[key]? = none := by
  apply TreeMap.getElem?_eq_none
  rw [← keys, TreeMap.mem_iff_isSome_getElem?, absent]
  exact Bool.false_ne_true

/-- A loop over the active signals moves every counter in the same way. -/
theorem counter?_updateAll {State : Type} {after : ActiveSignals}
    {visit : Nat → Nat → BlocksizeGroup → State → Option (BlocksizeGroup × State)}
    (move : Nat → Nat → Nat)
    (moves : ∀ g d blocksizes state blocksizes' state',
      visit g d blocksizes state = some (blocksizes', state') →
      blocksizes'.counter = move d blocksizes.counter) {state state' : State}
    (ran : TreeUpdate.updateAll (fun g decimations state =>
      TreeUpdate.updateAll (visit g) decimations state) active state = some (after, state'))
    (group decimation : Nat) :
    after.counter? group decimation = (active.counter? group decimation).map (move decimation) := by
  obtain ⟨groups, outer⟩ := updateAll_image ran
  unfold counter?
  cases found : after[group]? with
  | none =>
      rw [getElem?_none_of_keys (groups group) found]
      rfl
  | some decimations' =>
      obtain ⟨decimations, before, later, listed, ran⟩ := outer group decimations' found
      obtain ⟨keys, inner⟩ := updateAll_image ran
      rw [listed, Option.bind_some, Option.bind_some]
      cases stored : decimations'[decimation]? with
      | none =>
          rw [getElem?_none_of_keys (keys decimation) stored]
          rfl
      | some blocksizes' =>
          obtain ⟨blocksizes, before, later, listed', visited⟩ := inner decimation blocksizes' stored
          rw [listed', Option.map_some, Option.map_some, Option.map_some,
            moves group decimation blocksizes before blocksizes' later visited]

end ActiveSignals

namespace SubscriptionManager

variable {channels : Nat → Channel} {m after : SubscriptionManager} {group decimation : Nat}

variable (group decimation) in
theorem newSignal_counter {signal : Nat} (ran : m.newSignal signal = some after) :
    after.activeSignals.counter? group decimation = m.activeSignals.counter? group decimation ∨
      (m.activeSignals.counter? group decimation = none ∧
        after.activeSignals.counter? group decimation = some 0) := by
  unfold newSignal at ran
  split at ran
  · cases ran
    exact .inl rfl
  · obtain ⟨active, loop, same⟩ := Option.bind_eq_some_iff.mp ran
    cases same
    refine forEach_keeps (fun active : ActiveSignals =>
      active.counter? group decimation = m.activeSignals.counter? group decimation ∨
        (m.activeSignals.counter? group decimation = none ∧
          active.counter? group decimation = some 0)) ?_ loop (.inl rfl)
    intro c groups before later _ inner held
    refine forEach_keeps (fun active : ActiveSignals =>
      active.counter? group decimation = m.activeSignals.counter? group decimation ∨
        (m.activeSignals.counter? group decimation = none ∧
          active.counter? group decimation = some 0)) ?_ inner held
    intro g address before later _ body held
    obtain ⟨s, -, same⟩ := Option.bind_eq_some_iff.mp body
    cases same
    rw [ActiveSignals.activate, ActiveSignals.counter?_modify]
    split
    · rcases held with same | ⟨absent, fresh⟩
      · rw [same]
        cases m.activeSignals.counter? group decimation with
        | none => exact .inr ⟨rfl, rfl⟩
        | some counter => exact .inl rfl
      · exact .inr ⟨absent, by rw [fresh, Option.getD_some]⟩
    · exact held

variable (group decimation) in
theorem remove_counter {address g : Nat} (ran : m.remove address g = some after) :
    after.activeSignals.counter? group decimation = none ∨
      after.activeSignals.counter? group decimation = m.activeSignals.counter? group decimation := by
  unfold remove at ran
  split at ran
  · cases ran
    exact .inr rfl
  · rename_i decimations first
    obtain ⟨s, -, inner⟩ := Option.bind_eq_some_iff.mp ran
    split at inner
    · cases inner
      exact .inr rfl
    · rename_i blocksizes second
      split at inner
      · cases inner
        exact .inr rfl
      · cases inner
        exact ActiveSignals.counter?_eraseFrom first second _ _ address group decimation

variable (group decimation) in
theorem removeOld_counter {channel g : Nat} (ran : m.removeOld channels channel g = some after) :
    after.activeSignals.counter? group decimation = none ∨
      after.activeSignals.counter? group decimation = m.activeSignals.counter? group decimation := by
  unfold removeOld at ran
  split at ran
  · exact remove_counter group decimation ran
  · cases ran
    exact .inr rfl

variable (group decimation) in
theorem unsubscribe_counter {channel g : Nat} (ran : m.unsubscribe channels channel g = some after) :
    after.activeSignals.counter? group decimation = none ∨
      after.activeSignals.counter? group decimation = m.activeSignals.counter? group decimation := by
  unfold unsubscribe at ran
  dsimp only at ran
  split at ran
  · cases ran
    exact .inr rfl
  · split at ran
    · cases ran
      exact .inr rfl
    · split at ran
      · cases ran
        exact .inr rfl
      · obtain ⟨middle, removed, same⟩ := Option.bind_eq_some_iff.mp ran
        cases same
        have lost := remove_counter group decimation removed
        exact lost

theorem sync_counter (ran : m.sync = some after) :
    after.activeSignals.counter? group decimation = m.activeSignals.counter? group decimation := by
  obtain ⟨⟨active, heap⟩, loop, same⟩ := Option.bind_eq_some_iff.mp ran
  cases same
  have moved := ActiveSignals.counter?_updateAll (fun _ counter => counter) (by
    intro g d blocksizes state blocksizes' state' visited
    obtain ⟨⟨sets, state⟩, inner, same⟩ := Option.bind_eq_some_iff.mp visited
    cases same
    rfl) loop group decimation
  rw [moved, Option.map_id']

variable (group decimation) in
/-- A processed tick counts down in every group. -/
theorem rxPdo_counter {tick : Tick} {printed : List DataElement}
    (ran : m.rxPdo channels false tick = some (after, printed)) :
    after.activeSignals.counter? group decimation =
      (m.activeSignals.counter? group decimation).map (countDown decimation) := by
  unfold rxPdo at ran
  rw [if_neg Bool.false_ne_true] at ran
  obtain ⟨⟨active, heap, out⟩, loop, same⟩ := Option.bind_eq_some_iff.mp ran
  cases same
  refine ActiveSignals.counter?_updateAll countDown ?_ loop group decimation
  intro g d blocksizes state blocksizes' state' visited
  rw [visitDecimation, BlocksizeGroup.busy_eq] at visited
  dsimp only at visited
  split at visited
  · obtain ⟨rfl, -⟩ := Prod.mk.inj (Option.some.inj visited)
    rfl
  · obtain ⟨⟨sets, state⟩, inner, same⟩ := Option.bind_eq_some_iff.mp visited
    obtain ⟨rfl, -⟩ := Prod.mk.inj (Option.some.inj same)
    rfl

/-! ### From the creation of a group on -/

/-- The group is erased in the middle of the action: its last subscription is replaced. -/
def Interrupts (channels : Nat → Channel) (group decimation : Nat) (m : SubscriptionManager) :
    Action → Prop
  | .subscribe channel g _ _ _ _ _ _ => ∃ middle, m.removeOld channels channel g = some middle ∧
      middle.activeSignals.counter? group decimation = none
  | _ => False

/-- The group is sampled at the next processed tick. -/
def samples (m : SubscriptionManager) (group decimation : Nat) : Bool :=
  (m.activeSignals.counter? group decimation).any fun counter => countDown decimation counter = 0

/-- Sampling a group is to visit each of its sets; otherwise the sets stay as they are. -/
def VisitsSampled (channels : Nat → Channel) (group decimation : Nat)
    (m : SubscriptionManager) : Prop :=
  ∀ tick after printed, m.rxPdo channels false tick = some (after, printed) →
    ∀ decimations' blocksizes', after.activeSignals[group]? = some decimations' →
      decimations'[decimation]? = some blocksizes' →
      ∃ decimations blocksizes, m.activeSignals[group]? = some decimations ∧
        decimations[decimation]? = some blocksizes ∧
        if m.samples group decimation then
          ∃ state state', TreeUpdate.updateAll (visitSet channels tick group decimation)
            blocksizes.sets state = some (blocksizes'.sets, state')
        else blocksizes'.sets = blocksizes.sets

theorem rxPdo_samples (channels : Nat → Channel) (group decimation : Nat)
    (m : SubscriptionManager) : VisitsSampled channels group decimation m := by
  intro tick after printed ran decimations' blocksizes' first second
  unfold rxPdo at ran
  rw [if_neg Bool.false_ne_true] at ran
  obtain ⟨⟨active, heap, out⟩, loop, same⟩ := Option.bind_eq_some_iff.mp ran
  cases same
  obtain ⟨decimations, before, later, listed, inner⟩ :=
    (updateAll_image loop).2 group decimations' first
  obtain ⟨blocksizes, state, state', listed', visited⟩ :=
    (updateAll_image inner).2 decimation blocksizes' second
  refine ⟨decimations, blocksizes, listed, listed', ?_⟩
  have samples : m.samples group decimation = true ↔
      countDown decimation blocksizes.counter = 0 := by
    rw [SubscriptionManager.samples, ActiveSignals.counter?, listed, Option.bind_some, listed',
      Option.map_some, Option.any_some, decide_eq_true_eq]
  rw [visitDecimation, BlocksizeGroup.busy_eq] at visited
  dsimp only at visited
  split at visited
  · next waits =>
    have idle : ¬ m.samples group decimation = true := by
      intro sampled
      exact bne_iff_ne.mp waits (samples.mp sampled)
    have kept := (Prod.mk.inj (Option.some.inj visited)).1
    rw [if_neg idle, ← kept]
  · next turn =>
    have zero : countDown decimation blocksizes.counter = 0 := by
      by_contra other
      exact turn (bne_iff_ne.mpr other)
    rw [if_pos (samples.mpr zero)]
    obtain ⟨⟨sets, rest⟩, sampled, same⟩ := Option.bind_eq_some_iff.mp visited
    obtain ⟨rfl, -⟩ := Prod.mk.inj (Option.some.inj same)
    exact ⟨state, rest, sampled⟩

/-- Neither a processed tick nor the end of the group. -/
def Passes (channels : Nat → Channel) (group decimation : Nat) (m : SubscriptionManager)
    (action : Action) : Prop :=
  (∀ tick, action ≠ .rxPdo false tick) ∧ ¬ Interrupts channels group decimation m action

/-- A run while a group is there, beginning with its creation: for every processed tick,
whether the group was sampled. -/
inductive GroupRun (channels : Nat → Channel) (group decimation : Nat) :
    SubscriptionManager → List Bool → Prop
  | created {before after printed} (action : Action)
      (absent : before.activeSignals.counter? group decimation = none ∨
        Interrupts channels group decimation before action)
      (ran : before.step channels action = some (after, printed))
      (there : (after.activeSignals.counter? group decimation).isSome) :
      GroupRun channels group decimation after []
  | passed {m after sampled printed} (action : Action)
      (run : GroupRun channels group decimation m sampled)
      (passes : Passes channels group decimation m action)
      (ran : m.step channels action = some (after, printed))
      (there : (after.activeSignals.counter? group decimation).isSome) :
      GroupRun channels group decimation after sampled
  | tick {m after sampled printed} (tick : Tick)
      (run : GroupRun channels group decimation m sampled)
      (ran : m.step channels (.rxPdo false tick) = some (after, printed)) :
      GroupRun channels group decimation after (sampled ++ [m.samples group decimation])

variable (group decimation) in
theorem subscribe_counter {c g d blocksize precision address : Nat} {base64 activates : Bool}
    (ran : m.subscribe channels c g d blocksize base64 precision address activates = some after) :
    ∃ middle, m.removeOld channels c g = some middle ∧
      (after.activeSignals.counter? group decimation =
          middle.activeSignals.counter? group decimation ∨
        (middle.activeSignals.counter? group decimation = none ∧
          after.activeSignals.counter? group decimation = some 0)) := by
  obtain ⟨middle, removed, created⟩ := Option.bind_eq_some_iff.mp ran
  refine ⟨middle, removed, ?_⟩
  dsimp only at created
  split at created
  · have announced := newSignal_counter group decimation created
    exact announced
  · cases created
    exact .inl rfl

/-- A new group begins to count at zero. -/
theorem created_counter {action : Action} {printed : List DataElement}
    (absent : m.activeSignals.counter? group decimation = none ∨
      Interrupts channels group decimation m action)
    (ran : m.step channels action = some (after, printed))
    (there : (after.activeSignals.counter? group decimation).isSome) :
    after.activeSignals.counter? group decimation = some 0 := by
  cases action with
  | subscribe c g d blocksize base64 precision address activates =>
      obtain ⟨result, operated, same⟩ := Option.map_eq_some_iff.mp ran
      cases same
      obtain ⟨middle, removed, counts⟩ := subscribe_counter group decimation operated
      have gone : middle.activeSignals.counter? group decimation = none := by
        rcases absent with absent | ⟨other, removed', gone⟩
        · rcases removeOld_counter group decimation removed with
            gone | same
          · exact gone
          · rw [same, absent]
        · rw [removed] at removed'
          cases removed'
          exact gone
      rcases counts with same | ⟨-, fresh⟩
      · rw [same, gone] at there
        cases there
      · exact fresh
  | unsubscribe c g =>
      obtain ⟨result, operated, same⟩ := Option.map_eq_some_iff.mp ran
      cases same
      have absent := absent.resolve_right id
      rcases unsubscribe_counter group decimation operated with
        gone | same
      · rw [gone] at there
        cases there
      · rw [same, absent] at there
        cases there
  | clear =>
      obtain ⟨result, operated, same⟩ := Option.map_eq_some_iff.mp ran
      cases same
      obtain ⟨⟨heap, subscribed⟩, -, same⟩ := Option.bind_eq_some_iff.mp operated
      cases same
      simp [ActiveSignals.counter?] at there
  | sync =>
      obtain ⟨result, operated, same⟩ := Option.map_eq_some_iff.mp ran
      cases same
      rw [sync_counter operated, absent.resolve_right id] at there
      cases there
  | newSignal signal =>
      obtain ⟨result, operated, same⟩ := Option.map_eq_some_iff.mp ran
      cases same
      rcases newSignal_counter group decimation operated with
        same | ⟨-, fresh⟩
      · rw [same, absent.resolve_right id] at there
        cases there
      · exact fresh
  | rxPdo quiet tick =>
      cases quiet with
      | false =>
          rw [rxPdo_counter group decimation ran, absent.resolve_right id] at there
          cases there
      | true =>
          cases ran
          rw [absent.resolve_right id] at there
          cases there

/-- As long as a group stays, only processed ticks move its counter. -/
theorem passed_counter {action : Action} {printed : List DataElement}
    (passes : Passes channels group decimation m action)
    (ran : m.step channels action = some (after, printed))
    (before : (m.activeSignals.counter? group decimation).isSome)
    (there : (after.activeSignals.counter? group decimation).isSome) :
    after.activeSignals.counter? group decimation = m.activeSignals.counter? group decimation := by
  obtain ⟨counter, counts⟩ := Option.isSome_iff_exists.mp before
  cases action with
  | subscribe c g d blocksize base64 precision address activates =>
      obtain ⟨result, operated, same⟩ := Option.map_eq_some_iff.mp ran
      cases same
      obtain ⟨middle, removed, moves⟩ := subscribe_counter group decimation operated
      have kept : middle.activeSignals.counter? group decimation =
          m.activeSignals.counter? group decimation := by
        rcases removeOld_counter group decimation removed with
          gone | same
        · exact absurd ⟨middle, removed, gone⟩ passes.2
        · exact same
      rcases moves with same | ⟨gone, -⟩
      · rw [same, kept]
      · rw [kept, counts] at gone
        cases gone
  | unsubscribe c g =>
      obtain ⟨result, operated, same⟩ := Option.map_eq_some_iff.mp ran
      cases same
      rcases unsubscribe_counter group decimation operated with
        gone | same
      · rw [gone] at there
        cases there
      · exact same
  | clear =>
      obtain ⟨result, operated, same⟩ := Option.map_eq_some_iff.mp ran
      cases same
      obtain ⟨⟨heap, subscribed⟩, -, same⟩ := Option.bind_eq_some_iff.mp operated
      cases same
      simp [ActiveSignals.counter?] at there
  | sync =>
      obtain ⟨result, operated, same⟩ := Option.map_eq_some_iff.mp ran
      cases same
      exact sync_counter operated
  | newSignal signal =>
      obtain ⟨result, operated, same⟩ := Option.map_eq_some_iff.mp ran
      cases same
      rcases newSignal_counter group decimation operated with
        same | ⟨absent, -⟩
      · exact same
      · rw [counts] at absent
        cases absent
  | rxPdo quiet tick =>
      cases quiet with
      | false => exact absurd rfl (passes.1 tick)
      | true =>
          cases ran
          rfl

/-! ### The law -/

/-- The counter after so many processed ticks. -/
def counterAfter (decimation count : Nat) : Nat := (decimation - count % decimation) % decimation

theorem counterAfter_eq {decimation : Nat} (some : 0 < decimation) (count : Nat) :
    counterAfter decimation count =
      if count % decimation = 0 then 0 else decimation - count % decimation := by
  have small := Nat.mod_lt count some
  unfold counterAfter
  split
  · next zero => rw [zero, Nat.sub_zero, Nat.mod_self]
  · exact Nat.mod_eq_of_lt (by omega)

theorem mod_succ {decimation : Nat} (some : 0 < decimation) (count : Nat) :
    (count + 1) % decimation =
      if count % decimation + 1 = decimation then 0 else count % decimation + 1 := by
  have small := Nat.mod_lt count some
  rw [← Nat.mod_add_mod]
  split
  · next last => rw [last, Nat.mod_self]
  · exact Nat.mod_eq_of_lt (by omega)

theorem countDown_after {decimation : Nat} (some : 0 < decimation) (fits : decimation < 2 ^ 64)
    (count : Nat) :
    countDown decimation (counterAfter decimation count) = counterAfter decimation (count + 1) := by
  have small := Nat.mod_lt count some
  have down : ∀ counter, 0 < counter → counter ≤ decimation →
      (counter + (2 ^ 64 - 1)) % 2 ^ 64 = counter - 1 := by
    intro counter positive bounded
    omega
  rw [counterAfter_eq some, counterAfter_eq some, mod_succ some, countDown]
  generalize count % decimation = turn at small ⊢
  -- the counter is never zero where it is decremented
  by_cases reload : turn = 0
  · rw [if_pos reload, if_pos rfl, down decimation some (Nat.le_refl _)]
    subst reload
    by_cases one : 0 + 1 = decimation
    · rw [if_pos one, if_pos rfl]
      omega
    · rw [if_neg one, if_neg (Nat.succ_ne_zero 0)]
  · rw [if_neg reload, if_neg (by omega), down _ (by omega) (by omega)]
    by_cases last : turn + 1 = decimation
    · rw [if_pos last, if_pos rfl]
      omega
    · rw [if_neg last, if_neg (Nat.succ_ne_zero turn)]
      omega

theorem counterAfter_zero {decimation : Nat} (some : 0 < decimation) (count : Nat) :
    counterAfter decimation count = 0 ↔ decimation ∣ count := by
  have small := Nat.mod_lt count some
  rw [counterAfter_eq some, Nat.dvd_iff_mod_eq_zero]
  split <;> omega

/-- The counter of a group, and when the group was sampled: at every `decimation`-th tick. -/
structure Decimates (decimation : Nat) (counter : Option Nat) (sampled : List Bool) : Prop where
  counter : counter = some (counterAfter decimation sampled.length)
  sampled : ∀ (i : Nat) (here : i < sampled.length), sampled[i] = true ↔ decimation ∣ i + 1

theorem GroupRun.decimates (some : 0 < decimation) (fits : decimation < 2 ^ 64)
    {sampled : List Bool} (run : GroupRun channels group decimation m sampled) :
    Decimates decimation (m.activeSignals.counter? group decimation) sampled := by
  induction run with
  | created action absent ran there =>
      refine ⟨?_, fun i here => absurd here (Nat.not_lt_zero i)⟩
      rw [created_counter absent ran there, List.length_nil, counterAfter, Nat.zero_mod,
        Nat.sub_zero, Nat.mod_self]
  | passed action run passes ran there ih =>
      refine ⟨?_, ih.sampled⟩
      rw [passed_counter passes ran (by rw [ih.counter]; rfl) there]
      exact ih.counter
  | @tick m after sampled printed tick run ran ih =>
      have moved := rxPdo_counter group decimation ran
      rw [ih.counter, Option.map_some, countDown_after some fits] at moved
      constructor
      · rw [moved, List.length_append, List.length_singleton]
      · intro i here
        rw [List.length_append, List.length_singleton] at here
        by_cases earlier : i < sampled.length
        · rw [List.getElem_append_left earlier]
          exact ih.sampled i earlier
        · have last : i = sampled.length := by omega
          subst last
          rw [List.getElem_concat_length rfl, samples, ih.counter, Option.any_some,
            countDown_after some fits, decide_eq_true_eq]
          exact counterAfter_zero some _

end SubscriptionManager
end PdServ
