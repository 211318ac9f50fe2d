import PdServ.SubscriptionIndex

/-!
One registered subscription among all that a tick or a `sync` visits. The other sets
leave it alone, and what they print is of other channels or other groups.
-/

namespace PdServ

open Std TreeUpdate

/-- The values of one channel in the elements of one group. -/
def printedFor (group channel : Nat) (out : List DataElement) : List Datum :=
  out.flatMap fun element =>
    if element.group = group then element.datums.filter (fun datum => datum.c = channel) else []

def Heap.channelOf (heap : Heap) (address : Nat) : Option Nat :=
  (heap address).map Subscription.channel

/-- A subscription whose channel no visit of a tick changes. -/
theorem Heap.channelOf_update {heap : Heap} {address : Nat} {s s' : Subscription}
    (found : heap address = some s) (same : s'.channel = s.channel) :
    Heap.channelOf (Function.update heap address (some s')) = heap.channelOf := by
  funext other
  unfold Heap.channelOf
  by_cases here : other = address
  · subst here
    rw [Function.update_self, found, Option.map_some, Option.map_some, same]
  · rw [Function.update_of_ne here]

variable {channels : Nat → Channel}

theorem Subscription.newValue_channel {s s' : Subscription} {buf : Nat → Byte} {taken : Bool}
    (ran : s.newValue channels buf = some (taken, s')) : s'.channel = s.channel := by
  have stored : ∀ {s : Subscription} {value : List Byte} {s' : Subscription},
      s.store value = some s' → s'.channel = s.channel := by
    intro s value s' ran
    unfold Subscription.store at ran
    split at ran
    · cases ran
      rfl
    · cases ran
  unfold Subscription.newValue at ran
  dsimp only at ran
  split at ran
  · split at ran
    · cases ran
      rfl
    · obtain ⟨_, put, same⟩ := Option.map_eq_some_iff.mp ran
      cases same
      have kept := stored put
      exact kept
  · obtain ⟨_, put, same⟩ := Option.map_eq_some_iff.mp ran
    cases same
    exact stored put

theorem Subscription.print_channel {s s' : Subscription} {datum : Option Datum}
    (ran : s.print channels = some (datum, s')) :
    s'.channel = s.channel ∧ ∀ printed, datum = some printed → printed.c = s.channel := by
  unfold Subscription.print at ran
  dsimp only at ran
  split at ran
  · split at ran
    · cases ran
      refine ⟨rfl, ?_⟩
      rintro printed ⟨⟩
      rfl
    · cases ran
  · cases ran
    exact ⟨rfl, fun printed none_printed => by cases none_printed⟩

namespace SubscriptionManager

/-- What the first loop has done where it has run. -/
theorem takeValues_result {tick : Tick} {event print : Bool} {members : List Nat}
    (distinct : members.Nodup) {heap after : Heap} {printQ : List Nat}
    (ran : takeValues channels tick event print members heap = some (printQ, after)) :
    printQ.Sublist members ∧ (∀ x ∉ members, after x = heap x) ∧
      after.channelOf = heap.channelOf ∧
      ∀ x ∈ members, ∃ s taken s', heap x = some s ∧
        s.newValue channels (tick.getValue (channels s.channel).signal) = some (taken, s') ∧
        after x = some s' ∧ (x ∈ printQ ↔ ((taken && event) || print) = true) := by
  induction members generalizing heap printQ with
  | nil =>
      cases ran
      exact ⟨.refl _, fun _ _ => rfl, rfl, fun x member => by cases member⟩
  | cons address rest ih =>
      have away := (List.nodup_cons.mp distinct).1
      obtain ⟨s, found, ran⟩ := Option.bind_eq_some_iff.mp ran
      obtain ⟨⟨taken, s'⟩, took, ran⟩ := Option.bind_eq_some_iff.mp ran
      obtain ⟨⟨queue, later⟩, rest_ran, same⟩ := Option.bind_eq_some_iff.mp ran
      cases same
      obtain ⟨sub, frame, channel, each⟩ := ih (List.nodup_cons.mp distinct).2 rest_ran
      refine ⟨?_, ?_, ?_, ?_⟩
      · split
        · exact sub.cons_cons address
        · exact sub.cons address
      · intro x outside
        obtain ⟨apart, unlisted⟩ := not_or.mp (List.mem_cons.not.mp outside)
        rw [frame x unlisted, Function.update_of_ne apart]
      · rw [channel]
        exact Heap.channelOf_update found (Subscription.newValue_channel took)
      · intro x member
        rcases List.mem_cons.mp member with rfl | inside
        · refine ⟨s, taken, s', found, took, ?_, ?_⟩
          · rw [frame x away, Function.update_self]
          · constructor
            · intro queued
              by_contra silent
              rw [if_neg silent] at queued
              exact away (sub.subset queued)
            · intro prints
              rw [if_pos prints]
              exact List.mem_cons_self
        · have apart : x ≠ address := ne_of_mem_of_not_mem inside away
          obtain ⟨t, taken', t', found', took', kept, queued⟩ := each x inside
          rw [Function.update_of_ne apart] at found'
          refine ⟨t, taken', t', found', took', kept, ?_⟩
          rw [← queued]
          split
          · simp [apart]
          · rfl

/-- What the second loop has done where it has run: the subscription at `address` has
printed the only value of its channel. -/
theorem printValues_result {printQ : List Nat} (distinct : printQ.Nodup)
    {heap after : Heap} {datums : List Datum}
    (ran : printValues channels printQ heap = some (datums, after)) :
    (∀ x ∉ printQ, after x = heap x) ∧ after.channelOf = heap.channelOf ∧
      (∀ x ∈ printQ, ∃ s datum s', heap x = some s ∧ s.print channels = some (datum, s') ∧
        after x = some s') ∧
      ∀ (address channel : Nat), (∀ x ∈ printQ, x ≠ address → heap.channelOf x ≠ some channel) →
        datums.filter (fun datum => datum.c = channel) =
          if address ∈ printQ then
            (((heap address).bind (Subscription.print channels)).bind Prod.fst).toList.filter
              (fun datum => datum.c = channel)
          else [] := by
  induction printQ generalizing heap datums with
  | nil =>
      cases ran
      exact ⟨fun _ _ => rfl, rfl, by simp, fun _ _ _ => rfl⟩
  | cons first rest ih =>
      have away := (List.nodup_cons.mp distinct).1
      obtain ⟨s, found, ran⟩ := Option.bind_eq_some_iff.mp ran
      obtain ⟨⟨datum, s'⟩, shown, ran⟩ := Option.bind_eq_some_iff.mp ran
      obtain ⟨⟨others, later⟩, rest_ran, same⟩ := Option.bind_eq_some_iff.mp ran
      cases same
      obtain ⟨frame, channel, each, values⟩ := ih (List.nodup_cons.mp distinct).2 rest_ran
      obtain ⟨kept, named⟩ := Subscription.print_channel shown
      have labels := Heap.channelOf_update found kept
      refine ⟨?_, ?_, ?_, ?_⟩
      · intro x outside
        obtain ⟨apart, unlisted⟩ := not_or.mp (List.mem_cons.not.mp outside)
        rw [frame x unlisted, Function.update_of_ne apart]
      · rw [channel, labels]
      · intro x member
        rcases List.mem_cons.mp member with rfl | inside
        · exact ⟨s, datum, s', found, shown, by rw [frame x away, Function.update_self]⟩
        · obtain ⟨t, value, t', found', shown', left⟩ := each x inside
          rw [Function.update_of_ne (ne_of_mem_of_not_mem inside away)] at found'
          exact ⟨t, value, t', found', shown', left⟩
      · intro address c strangers
        have tail := values address c (fun x member apart => by
          rw [labels]
          exact strangers x (List.mem_cons_of_mem _ member) apart)
        rw [List.filter_append, tail]
        by_cases here : first = address
        · subst here
          rw [if_neg away, if_pos List.mem_cons_self, List.append_nil, found]
          simp [shown]
        · have stranger := strangers first List.mem_cons_self here
          have silent : datum.toList.filter (fun datum => datum.c = c) = [] := by
            rw [List.filter_eq_nil_iff]
            intro value member
            have value_c := named value (Option.mem_toList.mp member)
            simp only [Heap.channelOf, found, Option.map_some] at stranger
            simpa [value_c] using stranger
          rw [silent, List.nil_append, Function.update_of_ne (Ne.symm here)]
          simp [Ne.symm here]

/-- What one subscription and its printed values look like in the middle of a tick. -/
def watch (group channel address : Nat) (state : Heap × List DataElement) :
    (Nat → Option Nat) × Option Subscription × List Datum :=
  (state.1.channelOf, state.1 address, printedFor group channel state.2)

theorem printedFor_snoc (group channel : Nat) (out : List DataElement) (element : DataElement) :
    printedFor group channel (out ++ [element]) = printedFor group channel out ++
      if element.group = group then element.datums.filter (fun datum => datum.c = channel)
      else [] := by
  simp [printedFor]

/-- The two ways through a set. -/
theorem visitSet_cases {tick : Tick} {group decimation blocksize : Nat} {set set' : SubscriptionSet}
    {heap after : Heap} {out out' : List DataElement}
    (ran : visitSet channels tick group decimation blocksize set (heap, out) =
      some (set', after, out')) :
    ∃ printQ middle, takeValues channels tick (blocksize == 0)
        (blocksize != 0 && blocksize == if blocksize = 0 then set.timePtr else set.timePtr + 1)
        set.members.toList heap = some (printQ, middle) ∧
      ((printQ = [] ∧ after = middle ∧ out' = out) ∨
        ∃ datums element, printValues channels printQ middle = some (datums, after) ∧
          element.group = group ∧ element.datums = datums ∧ out' = out ++ [element]) := by
  unfold visitSet at ran
  dsimp only at ran
  split at ran
  · obtain ⟨⟨printQ, middle⟩, took, ran⟩ := Option.bind_eq_some_iff.mp ran
    refine ⟨printQ, middle, took, ?_⟩
    dsimp only at ran
    split at ran
    · rename_i nothing
      cases ran
      exact .inl ⟨nothing, rfl, rfl⟩
    · split at ran
      · obtain ⟨⟨datums, later⟩, shown, same⟩ := Option.bind_eq_some_iff.mp ran
        cases same
        exact .inr ⟨datums, _, shown, rfl, rfl, rfl⟩
      · cases ran
  · cases ran

theorem visitSet_labels {tick : Tick} {group decimation blocksize : Nat}
    {set set' : SubscriptionSet} {state after : Heap × List DataElement}
    (ran : visitSet channels tick group decimation blocksize set state = some (set', after)) :
    after.1.channelOf = state.1.channelOf := by
  obtain ⟨heap, out⟩ := state
  obtain ⟨after, out'⟩ := after
  obtain ⟨printQ, middle, took, rest⟩ := visitSet_cases ran
  have distinct := SubscriptionSet.distinct set.members
  obtain ⟨sub, -, labels, -⟩ := takeValues_result distinct took
  rcases rest with ⟨-, rfl, -⟩ | ⟨datums, element, shown, -⟩
  · exact labels
  · exact (printValues_result (sub.nodup distinct) shown).2.1.trans labels

/-- A set without the subscription, and without its channel where it is of the same
group. -/
theorem visitSet_away {tick : Tick} {g decimation blocksize : Nat} {set set' : SubscriptionSet}
    {state after : Heap × List DataElement} {group channel address : Nat}
    (ran : visitSet channels tick g decimation blocksize set state = some (set', after))
    (outside : address ∉ set.members)
    (strangers : g = group → ∀ x ∈ set.members, state.1.channelOf x ≠ some channel) :
    watch group channel address after = watch group channel address state := by
  obtain ⟨heap, out⟩ := state
  obtain ⟨after, out'⟩ := after
  obtain ⟨printQ, middle, took, rest⟩ := visitSet_cases ran
  have distinct := SubscriptionSet.distinct set.members
  obtain ⟨sub, frame, labels, -⟩ := takeValues_result distinct took
  have alone := frame address (by rwa [TreeSet.mem_toList])
  rcases rest with ⟨-, rfl, rfl⟩ | ⟨datums, element, shown, elementGroup, values, rfl⟩
  · simp only [watch, labels, alone]
  · obtain ⟨frame', labels', -, filtered⟩ := printValues_result (sub.nodup distinct) shown
    have unchained : address ∉ printQ := fun queued =>
      outside (TreeSet.mem_toList.mp (sub.subset queued))
    simp only [watch, printedFor_snoc, elementGroup, values, labels', labels,
      frame' address unchained, alone]
    split
    · rename_i same
      have none_of_it := filtered address channel (fun x queued _ => by
        rw [labels]
        exact strangers same x (TreeSet.mem_toList.mp (sub.subset queued)))
      rw [none_of_it, if_neg unchained, List.append_nil]
    · rw [List.append_nil]

end SubscriptionManager

/-! ### The counters of decimation one -/

/-- A counter of decimation one is never left running. -/
def ActiveSignals.Steady (active : ActiveSignals) : Prop :=
  ∀ (g : Nat) decimations blocksizes, active[g]? = some decimations →
    decimations[1]? = some blocksizes → blocksizes.counter = 0

theorem ActiveSignals.Steady.of_empty : (∅ : ActiveSignals).Steady := by
  intro g decimations blocksizes found
  simp at found

theorem ActiveSignals.Steady.modify {active : ActiveSignals} (steady : active.Steady)
    (group decimation blocksize : Nat) (change : SubscriptionSet → SubscriptionSet) :
    (active.modify group decimation blocksize change).Steady := by
  intro g decimations blocksizes found inner
  unfold ActiveSignals.modify at found
  by_cases here : group = g
  · subst here
    rw [getElem?_insert_self] at found
    cases found
    have before : ∀ blocksizes, (active[group]?.getD ∅)[1]? = some blocksizes →
        blocksizes.counter = 0 := by
      intro blocksizes stored
      cases old : active[group]? with
      | none => simp [old] at stored
      | some decimations =>
          rw [old] at stored
          exact steady group decimations blocksizes old stored
    by_cases one : decimation = 1
    · subst one
      rw [getElem?_insert_self] at inner
      cases inner
      cases old : (active[group]?.getD ∅)[1]? with
      | none => rfl
      | some blocksizes => exact before blocksizes old
    · rw [getElem?_insert_other _ _ one] at inner
      exact before blocksizes inner
  · rw [getElem?_insert_other _ _ here] at found
    exact steady g decimations blocksizes found inner

theorem ActiveSignals.Steady.eraseFrom {active : ActiveSignals} (steady : active.Steady)
    {group : Nat} {decimations : DecimationGroup} {decimation : Nat} {blocksizes : BlocksizeGroup}
    (first : active[group]? = some decimations)
    (second : decimations[decimation]? = some blocksizes) (blocksize : Nat)
    (set : SubscriptionSet) (address : Nat) :
    (active.eraseFrom group decimations decimation blocksizes blocksize set address).Steady := by
  intro g kept inner found stored
  unfold ActiveSignals.eraseFrom at found
  by_cases here : group = g
  · subst here
    rw [getElem?_prune_self] at found
    split at found
    · cases found
    · cases found
      by_cases one : decimation = 1
      · subst one
        rw [getElem?_prune_self] at stored
        split at stored
        · cases stored
        · cases stored
          exact steady group decimations blocksizes first second
      · rw [getElem?_prune_other _ _ _ one] at stored
        exact steady group decimations inner first stored
  · rw [getElem?_prune_other _ _ _ here] at found
    exact steady g kept inner found stored

/-- A loop over the active signals that brings back each counter of decimation one. -/
theorem ActiveSignals.Steady.updateAll {State : Type} {active after : ActiveSignals}
    (steady : active.Steady)
    {visit : Nat → Nat → BlocksizeGroup → State → Option (BlocksizeGroup × State)}
    (keeps : ∀ g blocksizes state blocksizes' state',
      visit g 1 blocksizes state = some (blocksizes', state') →
      blocksizes.counter = 0 → blocksizes'.counter = 0) {state state' : State}
    (ran : TreeUpdate.updateAll (fun g decimations state =>
      TreeUpdate.updateAll (visit g) decimations state) active state = some (after, state')) :
    after.Steady := by
  intro g decimations' blocksizes' found stored
  obtain ⟨decimations, before, later, old, inner⟩ := (updateAll_image ran).2 g decimations' found
  obtain ⟨blocksizes, before, later, first, visited⟩ :=
    (updateAll_image inner).2 1 blocksizes' stored
  exact keeps g blocksizes before blocksizes' later visited (steady g decimations blocksizes old first)

theorem BlocksizeGroup.busy_one {blocksizes : BlocksizeGroup} (rests : blocksizes.counter = 0) :
    blocksizes.busy 1 = (false, blocksizes) := by
  unfold BlocksizeGroup.busy
  rw [rests, if_pos rfl]
  cases blocksizes
  cases rests
  rfl

namespace SubscriptionManager

variable {m after : SubscriptionManager}

theorem newSignal_frame {signal : Nat} (ran : m.newSignal signal = some after) :
    after.heap = m.heap ∧ after.signalSubscriptionMap = m.signalSubscriptionMap := by
  unfold newSignal at ran
  split at ran
  · cases ran
    exact ⟨rfl, rfl⟩
  · obtain ⟨active, -, same⟩ := Option.bind_eq_some_iff.mp ran
    cases same
    exact ⟨rfl, rfl⟩

theorem newSignal_steady (steady : m.activeSignals.Steady) {signal : Nat}
    (ran : m.newSignal signal = some after) : after.activeSignals.Steady := by
  unfold newSignal at ran
  split at ran
  · cases ran
    exact steady
  · obtain ⟨active, loop, same⟩ := Option.bind_eq_some_iff.mp ran
    cases same
    refine forEach_keeps ActiveSignals.Steady ?_ loop steady
    intro c groups before later _ inner held
    refine forEach_keeps ActiveSignals.Steady ?_ inner held
    intro group address before later _ body held
    obtain ⟨s, -, same⟩ := Option.bind_eq_some_iff.mp body
    cases same
    exact held.modify group s.decimation s.blocksize _

theorem remove_steady (steady : m.activeSignals.Steady) {address group : Nat}
    (ran : m.remove address group = some after) : after.activeSignals.Steady := by
  unfold remove at ran
  split at ran
  · cases ran
    exact steady
  · rename_i decimations first
    obtain ⟨s, -, inner⟩ := Option.bind_eq_some_iff.mp ran
    split at inner
    · cases inner
      exact steady
    · rename_i blocksizes second
      split at inner
      · cases inner
        exact steady
      · cases inner
        exact steady.eraseFrom first second _ _ address

theorem rxPdo_steady (steady : m.activeSignals.Steady) {quiet : Bool} {tick : Tick}
    {printed : List DataElement} (ran : m.rxPdo channels quiet tick = some (after, printed)) :
    after.activeSignals.Steady := by
  unfold rxPdo at ran
  split at ran
  · cases ran
    exact steady
  · obtain ⟨⟨active, heap, out⟩, loop, same⟩ := Option.bind_eq_some_iff.mp ran
    cases same
    refine steady.updateAll ?_ loop
    intro g blocksizes state blocksizes' state' visited rests
    unfold visitDecimation at visited
    simp only [BlocksizeGroup.busy_one rests, Bool.false_eq_true, if_false] at visited
    obtain ⟨⟨sets, state⟩, inner, same⟩ := Option.bind_eq_some_iff.mp visited
    cases same
    exact rests

theorem sync_steady (steady : m.activeSignals.Steady) (ran : m.sync = some after) :
    after.activeSignals.Steady := by
  obtain ⟨⟨active, heap⟩, loop, same⟩ := Option.bind_eq_some_iff.mp ran
  cases same
  refine steady.updateAll ?_ loop
  intro g blocksizes state blocksizes' state' visited rests
  obtain ⟨⟨sets, state⟩, inner, same⟩ := Option.bind_eq_some_iff.mp visited
  cases same
  exact rests

theorem step_steady (steady : m.activeSignals.Steady) {action : Action}
    {printed : List DataElement} (ran : m.step channels action = some (after, printed)) :
    after.activeSignals.Steady := by
  cases action with
  | subscribe channel group decimation blocksize base64 precision address activates =>
      obtain ⟨result, operated, same⟩ := Option.map_eq_some_iff.mp ran
      cases same
      obtain ⟨middle, removed, created⟩ := Option.bind_eq_some_iff.mp operated
      have kept : middle.activeSignals.Steady := by
        unfold removeOld at removed
        split at removed
        · exact remove_steady steady removed
        · cases removed
          exact steady
      dsimp only at created
      split at created
      · refine newSignal_steady ?_ created
        exact kept
      · cases created
        exact kept
  | unsubscribe channel group =>
      obtain ⟨result, operated, same⟩ := Option.map_eq_some_iff.mp ran
      cases same
      unfold unsubscribe at operated
      dsimp only at operated
      split at operated
      · cases operated
        exact steady
      · split at operated
        · cases operated
          exact steady
        · split at operated
          · cases operated
            exact steady
          · obtain ⟨middle, removed, same⟩ := Option.bind_eq_some_iff.mp operated
            cases same
            have kept := remove_steady steady removed
            exact kept
  | clear =>
      obtain ⟨result, operated, same⟩ := Option.map_eq_some_iff.mp ran
      cases same
      obtain ⟨⟨heap, subscribed⟩, -, same⟩ := Option.bind_eq_some_iff.mp operated
      cases same
      exact .of_empty
  | sync =>
      obtain ⟨result, operated, same⟩ := Option.map_eq_some_iff.mp ran
      cases same
      exact sync_steady steady operated
  | newSignal signal =>
      obtain ⟨result, operated, same⟩ := Option.map_eq_some_iff.mp ran
      cases same
      exact newSignal_steady steady operated
  | rxPdo quiet tick => exact rxPdo_steady steady ran

end SubscriptionManager

theorem ManagerRun.steady {actions : List SubscriptionManager.Action} {m : SubscriptionManager}
    {out : List DataElement} (run : ManagerRun channels actions m out) :
    m.activeSignals.Steady := by
  induction run with
  | start => exact .of_empty
  | step action _ _ ran ih => exact SubscriptionManager.step_steady ih ran

/-! ### One address in a tick -/

/-- What every decimation group keeps holds after the loops over the active signals. -/
theorem updateActive_keeps {State : Type}
    {visit : Nat → Nat → BlocksizeGroup → State → Option (BlocksizeGroup × State)}
    {active result : ActiveSignals} {state after : State} (inv : State → Prop)
    (visits : ∀ g d blocksizes state blocksizes' after,
      (∀ (b : Nat) set, blocksizes.sets[b]? = some set → active.set? g d b = some set) →
      visit g d blocksizes state = some (blocksizes', after) → inv state → inv after)
    (ran : TreeUpdate.updateAll (fun g decimations state =>
      TreeUpdate.updateAll (visit g) decimations state) active state = some (result, after))
    (holds : inv state) : inv after := by
  refine updateAll_keeps inv ?_ ran holds
  intro g decimations state decimations' after first inner holds
  refine updateAll_keeps inv ?_ inner holds
  intro d blocksizes state blocksizes' after second visited holds
  refine visits g d blocksizes state blocksizes' after ?_ visited holds
  intro b set third
  exact ActiveSignals.set?_eq_some.mpr ⟨decimations, first, blocksizes, second, third⟩

theorem SubscriptionManager.visitDecimation_keeps {tick : Tick} {group decimation : Nat}
    {blocksizes blocksizes' : BlocksizeGroup} {state after : Heap × List DataElement}
    (inv : Heap × List DataElement → Prop)
    (visits : ∀ (b : Nat) set state set' after, blocksizes.sets[b]? = some set →
      visitSet channels tick group decimation b set state = some (set', after) →
      inv state → inv after)
    (ran : visitDecimation channels tick group decimation blocksizes state =
      some (blocksizes', after)) (holds : inv state) : inv after := by
  obtain ⟨counter, counted⟩ : ∃ counter,
      (blocksizes.busy decimation).2 = ⟨counter, blocksizes.sets⟩ := ⟨_, rfl⟩
  unfold visitDecimation at ran
  by_cases waits : (blocksizes.busy decimation).1 = true
  · simp only [waits, if_true, counted, Option.some.injEq, Prod.mk.injEq] at ran
    rw [← ran.2]
    exact holds
  · simp only [waits, Bool.false_eq_true, if_false, counted] at ran
    obtain ⟨⟨sets, later⟩, inner, same⟩ := Option.bind_eq_some_iff.mp ran
    cases same
    exact updateAll_keeps inv visits inner holds

/-- The visit to one set of decimation one, between the visits to all other sets. -/
theorem SubscriptionManager.visitSet_focus {tick : Tick} {active result : ActiveSignals}
    {state after : Heap × List DataElement} (steady : active.Steady) {group blocksize : Nat}
    {set : SubscriptionSet} (known : active.set? group 1 blocksize = some set)
    (ran : TreeUpdate.updateAll (fun g decimations state =>
      TreeUpdate.updateAll (visitDecimation channels tick g) decimations state) active state =
        some (result, after)) :
    ∃ before set' later,
      visitSet channels tick group 1 blocksize set before = some (set', later) ∧
      ∀ inv : Heap × List DataElement → Prop,
        (∀ g d b set state set' after, active.set? g d b = some set →
          ¬ (g = group ∧ d = 1 ∧ b = blocksize) →
          visitSet channels tick g d b set state = some (set', after) → inv state → inv after) →
        (inv state → inv before) ∧ (inv later → inv after) := by
  obtain ⟨decimations, first, blocksizes, second, third⟩ := ActiveSignals.set?_eq_some.mp known
  obtain ⟨before₁, decimations', later₁, inner, frame₁⟩ := updateAll_focus ran first
  obtain ⟨before₂, blocksizes', later₂, visited, frame₂⟩ := updateAll_focus inner second
  have rests := steady group decimations blocksizes first second
  simp only [visitDecimation, BlocksizeGroup.busy_one rests, Bool.false_eq_true, if_false]
    at visited
  obtain ⟨⟨sets, state₂⟩, looped, same⟩ := Option.bind_eq_some_iff.mp visited
  cases same
  obtain ⟨before, set', later, here, frame₃⟩ := updateAll_focus looped third
  refine ⟨before, set', later, here, fun inv away => ?_⟩
  have groups := frame₁ inv (fun g decimations state result later apart listed loop held =>
    updateAll_keeps inv (fun d blocksizes state result later listed' visited held =>
      visitDecimation_keeps inv (fun b set state result later listed'' visited held =>
        away g d b set state result later
          (ActiveSignals.set?_eq_some.mpr ⟨decimations, listed, blocksizes, listed', listed''⟩)
          (fun same => apart same.1.symm) visited held) visited held) loop held)
  have rates := frame₂ inv (fun d blocksizes state result later apart listed visited held =>
    visitDecimation_keeps inv (fun b set state result later listed' visited held =>
      away group d b set state result later
        (ActiveSignals.set?_eq_some.mpr ⟨decimations, first, blocksizes, listed, listed'⟩)
        (fun same => apart same.2.1.symm) visited held) visited held)
  have sizes := frame₃ inv (fun b set state result later apart listed visited held =>
    away group 1 b set state result later
      (ActiveSignals.set?_eq_some.mpr ⟨decimations, first, blocksizes, second, listed⟩)
      (fun same => apart same.2.2.symm) visited held)
  exact ⟨sizes.1 ∘ rates.1 ∘ groups.1, groups.2 ∘ rates.2 ∘ sizes.2⟩

namespace Blocks

variable {m : SubscriptionManager} {ticks : List Tick}

/-- Whoever else is active is of another group or another channel. -/
theorem strangers (blocks : Blocks channels ticks m) {s channel group address : Nat}
    (found : m.signalSubscriptionMap.find? s channel group = some address) {d b x : Nat}
    (owns : m.activeSignals.Owns group d b x) (apart : x ≠ address) :
    m.heap.channelOf x ≠ some channel := by
  intro same
  obtain ⟨s', c', found'⟩ := blocks.registered owns
  obtain ⟨sub, live, channel'⟩ := blocks.live found'
  simp only [Heap.channelOf, live, Option.map_some, Option.some.injEq] at same
  have c_eq : c' = channel := channel'.symm.trans same
  subst c_eq
  have s_eq : s' = s := (blocks.keyed found').trans (blocks.keyed found).symm
  subst s_eq
  rw [found] at found'
  exact apart (Option.some.inj found').symm

/-- A tick leaves a subscription alone that is in none of the sets it visits. -/
theorem rxPdo_away (blocks : Blocks channels ticks m) {s channel group address : Nat}
    (found : m.signalSubscriptionMap.find? s channel group = some address)
    (inactive : ∀ g d b, ¬ m.activeSignals.Owns g d b address) {tick : Tick}
    {after : SubscriptionManager} {printed : List DataElement}
    (ran : m.rxPdo channels false tick = some (after, printed)) :
    after.heap address = m.heap address ∧ printedFor group channel printed = [] ∧
      after.signalSubscriptionMap = m.signalSubscriptionMap := by
  rw [SubscriptionManager.rxPdo, if_neg Bool.false_ne_true] at ran
  obtain ⟨⟨active, heap, out⟩, loop, same⟩ := Option.bind_eq_some_iff.mp ran
  cases same
  have kept := updateActive_keeps
    (fun state => SubscriptionManager.watch group channel address state =
      SubscriptionManager.watch group channel address (m.heap, []))
    (fun g d blocksizes state blocksizes' state' listed visited held => by
      refine SubscriptionManager.visitDecimation_keeps
        (fun state => SubscriptionManager.watch group channel address state =
          SubscriptionManager.watch group channel address (m.heap, [])) ?_ visited held
      intro b set state set' state' stored visited held
      have owns : ∀ x ∈ set.members, m.activeSignals.Owns g d b x := fun x member =>
        ⟨set, listed b set stored, member⟩
      refine (SubscriptionManager.visitSet_away visited
        (fun member => inactive g d b (owns address member)) ?_).trans held
      rintro rfl x member
      rw [show state.1.channelOf = m.heap.channelOf from congrArg Prod.fst held]
      refine blocks.strangers found (owns x member) ?_
      rintro rfl
      exact inactive g d b (owns x member))
    loop rfl
  exact ⟨congrArg (fun seen => seen.2.1) kept, congrArg (fun seen => seen.2.2) kept, rfl⟩

/-- `subscribe` for another channel or group. -/
theorem subscribe_away (blocks : Blocks channels ticks m) {s channel group address : Nat}
    (found : m.signalSubscriptionMap.find? s channel group = some address)
    {c g decimation blocksize precision new : Nat} {base64 activates : Bool}
    (free : m.heap new = none) (other : ¬ (c = channel ∧ g = group)) {after : SubscriptionManager}
    (ran : m.subscribe channels c g decimation blocksize base64 precision new activates =
      some after) :
    after.heap address = m.heap address ∧
      after.signalSubscriptionMap.find? s channel group = some address := by
  obtain ⟨sub, live, -⟩ := blocks.live found
  have apart : address ≠ new := by
    rintro rfl
    rw [free] at live
    cases live
  obtain ⟨middle, removed, created⟩ := Option.bind_eq_some_iff.mp ran
  have kept : middle.heap address = m.heap address ∧
      middle.signalSubscriptionMap = m.signalSubscriptionMap := by
    unfold SubscriptionManager.removeOld at removed
    split at removed
    · rename_i old known
      obtain ⟨result, ran', gone⟩ := blocks.remove known
      rw [ran'] at removed
      cases removed
      refine ⟨gone.frame address ?_, gone.registry⟩
      rintro rfl
      obtain ⟨rfl, rfl⟩ := blocks.single found known
      exact other ⟨rfl, rfl⟩
    · cases removed
      exact ⟨rfl, rfl⟩
  have registered : ((middle.signalSubscriptionMap.assign (channels c).signal c g new).find?
      s channel group) = some address := by
    rw [SignalSubscriptionMap.find?_assign, if_neg fun same => other same.2, kept.2]
    exact found
  dsimp only at created
  split at created
  · obtain ⟨heap, registry⟩ := SubscriptionManager.newSignal_frame created
    rw [heap, registry]
    exact ⟨(Function.update_of_ne apart _ _).trans kept.1, registered⟩
  · cases created
    exact ⟨(Function.update_of_ne apart _ _).trans kept.1, registered⟩

/-- `unsubscribe` of another channel or group. -/
theorem unsubscribe_away (blocks : Blocks channels ticks m) {s channel group address : Nat}
    (found : m.signalSubscriptionMap.find? s channel group = some address) {c g : Nat}
    (other : ¬ (c = channel ∧ g = group)) {after : SubscriptionManager}
    (ran : m.unsubscribe channels c g = some after) :
    after.heap address = m.heap address ∧
      after.signalSubscriptionMap.find? s channel group = some address := by
  unfold SubscriptionManager.unsubscribe at ran
  dsimp only at ran
  split at ran
  · cases ran
    exact ⟨rfl, found⟩
  · rename_i channelMap first
    split at ran
    · cases ran
      exact ⟨rfl, found⟩
    · rename_i groups second
      split at ran
      · cases ran
        exact ⟨rfl, found⟩
      · rename_i old third
        have known := SignalSubscriptionMap.find?_eq_some.mpr
          ⟨channelMap, first, groups, second, third⟩
        obtain ⟨middle, ran', gone⟩ := blocks.remove known
        obtain ⟨result, removed, same⟩ := Option.bind_eq_some_iff.mp ran
        rw [ran'] at removed
        cases removed
        cases same
        dsimp only
        constructor
        · refine gone.frame address ?_
          rintro rfl
          obtain ⟨rfl, rfl⟩ := blocks.single found known
          exact other ⟨rfl, rfl⟩
        · rw [gone.registry, SignalSubscriptionMap.find?_eraseFrom g first second,
            if_neg fun same => other same.2]
          exact found

end Blocks

/-- `sync` at a subscription that has nothing to reset. -/
theorem SubscriptionManager.sync_idle {m after : SubscriptionManager} {address : Nat}
    {s : Subscription} (live : m.heap address = some s) (idle : s.reset = s)
    (ran : m.sync = some after) :
    after.heap address = some s ∧ after.signalSubscriptionMap = m.signalSubscriptionMap := by
  obtain ⟨⟨active, heap⟩, loop, same⟩ := Option.bind_eq_some_iff.mp ran
  cases same
  refine ⟨?_, rfl⟩
  have members : ∀ (members : List Nat) (heap after : Heap), heap address = some s →
      resetMembers members heap = some after → after address = some s := by
    intro members
    induction members with
    | nil =>
        intro heap after live ran
        cases ran
        exact live
    | cons first rest ih =>
        intro heap after live ran
        obtain ⟨t, found, rest_ran⟩ := Option.bind_eq_some_iff.mp ran
        refine ih _ after ?_ rest_ran
        by_cases here : address = first
        · subst here
          rw [live] at found
          cases found
          rw [Function.update_self, idle]
        · rw [Function.update_of_ne here]
          exact live
  refine updateActive_keeps (fun heap : Heap => heap address = some s) ?_ loop live
  intro g d blocksizes heap blocksizes' after _ visited live
  obtain ⟨⟨sets, later⟩, inner, same⟩ := Option.bind_eq_some_iff.mp visited
  cases same
  refine updateAll_keeps (fun heap : Heap => heap address = some s) ?_ inner live
  intro b set heap set' after _ visited live
  obtain ⟨later, reset, same⟩ := Option.bind_eq_some_iff.mp visited
  cases same
  exact members set.members.toList heap after live reset

end PdServ
