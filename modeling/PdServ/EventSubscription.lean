import PdServ.SubscriptionFocus
import PdServ.ChangeReport

/-!
Event subscriptions, those of block size zero. The comparison buffer holds what was
printed last and the trigger counts down the reduction; over the whole manager such a
subscription reports the changes of its channel at a bounded rate, as `ChangeReport`
describes.
-/

namespace PdServ

open Std TreeUpdate ChangeReport

/-- What an event subscription is asked for. -/
structure EventOrder where
  channel : Nat
  group : Nat
  reduction : Nat
  base64 : Bool
  precision : Nat

namespace EventOrder

variable (channels : Nat → Channel) (order : EventOrder)

/-- The element that a print of the subscription makes. -/
def datum (tick : Tick) : Datum where
  name := .E
  c := order.channel
  base64 := order.base64
  precision := order.precision
  nblocks := 1
  d := tick.sample (channels order.channel)

def zeros : List Byte :=
  List.replicate (channels order.channel).memSize 0

/-- The tick as a reading of the channel. -/
def reading (tick : Tick) (reported : Bool) : Reading (List Byte) :=
  ⟨tick.sample (channels order.channel), reported⟩

/-- The subscription after the readings of `log`. -/
def subscription (log : List (Reading (List Byte))) : Subscription :=
  { Subscription.create channels order.channel order.reduction 0 order.base64
      order.precision with
    trigger := countdown order.reduction log
    data := lastReport (order.zeros channels) log }

/-- The channel has changed and the reduction has passed. -/
def Due (log : List (Reading (List Byte))) (tick : Tick) : Prop :=
  tick.sample (channels order.channel) ≠ lastReport (order.zeros channels) log ∧
    Elapsed order.reduction log

/-- Every reading is one of this channel. -/
def Sized (log : List (Reading (List Byte))) : Prop :=
  ∀ reading ∈ log, reading.value.length = (channels order.channel).memSize

variable {channels order} {log : List (Reading (List Byte))}

theorem subscription_nil : order.subscription channels [] =
    Subscription.create channels order.channel order.reduction 0 order.base64
      order.precision := by
  simp [subscription, Subscription.create, lastReport, countdown, zeros, entries]

theorem subscription_reset :
    (order.subscription channels log).reset = order.subscription channels log := rfl

theorem Sized.lastReport_length (sized : order.Sized channels log) :
    (lastReport (order.zeros channels) log).length = (channels order.channel).memSize :=
  lastReport_of_all _ (fun value : List Byte => value.length = (channels order.channel).memSize)
    (by simp [zeros]) sized

theorem Sized.snoc (sized : order.Sized channels log) (tick : Tick) (reported : Bool) :
    order.Sized channels (log ++ [order.reading channels tick reported]) := by
  intro reading member
  rcases List.mem_append.mp member with old | new
  · exact sized reading old
  · rw [List.mem_singleton.mp new]
    exact tick.sample_length _

/-- A tick that is not due only lowers the trigger. -/
theorem newValue_idle (sized : order.Sized channels log) (tick : Tick)
    (idle : ¬ order.Due channels log tick) :
    (order.subscription channels log).newValue channels
        (tick.getValue (channels order.channel).signal) =
      some (false, order.subscription channels (log ++ [order.reading channels tick false])) := by
  have value : tick.sample (channels order.channel) =
      (List.range (channels order.channel).memSize).map fun i =>
        tick.getValue (channels order.channel).signal ((channels order.channel).offset + i) := rfl
  have waits : countdown order.reduction log - 1 ≠ 0 ∨
      tick.sample (channels order.channel) = lastReport (order.zeros channels) log := by
    by_contra neither
    rw [not_or, not_not] at neither
    exact idle ⟨neither.2, (elapsed_iff _ _).mpr (by omega)⟩
  have whole := List.take_of_length_le (Nat.le_of_eq sized.lastReport_length)
  unfold Subscription.newValue
  simp only [subscription, Subscription.create, if_true, ← value, whole, if_pos waits,
    lastReport_snoc, countdown_snoc, reading, Bool.false_eq_true, if_false]

/-- A tick that is due goes into the buffer and starts the trigger. -/
theorem newValue_due (sized : order.Sized channels log) (tick : Tick)
    (due : order.Due channels log tick) :
    (order.subscription channels log).newValue channels
        (tick.getValue (channels order.channel).signal) =
      some (true,
        { order.subscription channels (log ++ [order.reading channels tick true]) with
          data_pptr := (channels order.channel).memSize
          nblocks := 1 }) := by
  have value : tick.sample (channels order.channel) =
      (List.range (channels order.channel).memSize).map fun i =>
        tick.getValue (channels order.channel).signal ((channels order.channel).offset + i) := rfl
  have passed := (elapsed_iff _ _).mp due.2
  have waits : ¬ (countdown order.reduction log - 1 ≠ 0 ∨
      tick.sample (channels order.channel) = lastReport (order.zeros channels) log) := by
    rintro (waiting | same)
    · omega
    · exact due.1 same
  have size := sized.lastReport_length
  have whole := List.take_of_length_le (Nat.le_of_eq size)
  have new := tick.sample_length (channels order.channel)
  unfold Subscription.newValue
  simp only [subscription, Subscription.create, if_true, ← value, whole, if_neg waits,
    Subscription.store, new, Nat.zero_add, size, Nat.le_refl, Option.map_some, List.take_zero,
    List.nil_append, List.drop_of_length_le (Nat.le_of_eq size), List.append_nil,
    lastReport_snoc, countdown_snoc, reading]

theorem print_due (sized : order.Sized channels log) (tick : Tick) :
    Subscription.print channels
        { order.subscription channels (log ++ [order.reading channels tick true]) with
          data_pptr := (channels order.channel).memSize
          nblocks := 1 } =
      some (some (order.datum channels tick),
        order.subscription channels (log ++ [order.reading channels tick true])) := by
  have size := (sized.snoc tick true).lastReport_length
  have sample : lastReport (order.zeros channels) (log ++ [order.reading channels tick true]) =
      tick.sample (channels order.channel) := by
    rw [lastReport_snoc]
    rfl
  have whole := List.take_of_length_le (Nat.le_of_eq size)
  rw [sample] at size whole
  simp only [Subscription.print, subscription, Subscription.create, Nat.zero_le, if_true,
    Nat.one_mul, sample, size, whole, Nat.le_refl, datum]

/-- What a processed tick prints for the subscription. -/
def Answers (channels : Nat → Channel) (order : EventOrder) (log : List (Reading (List Byte)))
    (tick : Tick) (datums : List Datum) : Prop :=
  (order.Due channels log tick ∧ datums = [order.datum channels tick]) ∨
    (¬ order.Due channels log tick ∧ datums = [])

/-- The subscription when its set is visited. -/
theorem visitSet_event (sized : order.Sized channels log) {tick : Tick} {address : Nat}
    {set set' : SubscriptionSet} {heap after : Heap} {out out' : List DataElement}
    (live : heap address = some (order.subscription channels log))
    (member : address ∈ set.members)
    (strangers : ∀ x ∈ set.members, x ≠ address → heap.channelOf x ≠ some order.channel)
    (ran : SubscriptionManager.visitSet channels tick order.group 1 0 set (heap, out) =
      some (set', after, out')) :
    ∃ datums, order.Answers channels log tick datums ∧
      printedFor order.group order.channel out' =
        printedFor order.group order.channel out ++ datums ∧
      after address = some (order.subscription channels
        (log ++ [order.reading channels tick !datums.isEmpty])) := by
  obtain ⟨printQ, middle, took, rest⟩ := SubscriptionManager.visitSet_cases ran
  have distinct := SubscriptionSet.distinct set.members
  obtain ⟨sub, -, labels, each⟩ := SubscriptionManager.takeValues_result distinct took
  obtain ⟨s, taken, s', found, valued, kept, queued⟩ :=
    each address (TreeSet.mem_toList.mpr member)
  rw [live] at found
  cases found
  simp only [show (order.subscription channels log).channel = order.channel from rfl] at valued
  simp only [BEq.rfl, Bool.and_true, bne_self_eq_false, Bool.false_and, Bool.or_false] at queued
  have apart : ∀ x ∈ printQ, x ≠ address → middle.channelOf x ≠ some order.channel := by
    intro x chained apart
    rw [labels]
    exact strangers x (TreeSet.mem_toList.mp (sub.subset chained)) apart
  by_cases due : order.Due channels log tick
  · -- The value is taken, so the subscription is chained and printed.
    rw [newValue_due sized tick due] at valued
    cases valued
    have chained := queued.mpr rfl
    rcases rest with ⟨rfl, -, -⟩ | ⟨datums, element, shown, elementGroup, values, rfl⟩
    · cases chained
    obtain ⟨-, -, prints, filtered⟩ :=
      SubscriptionManager.printValues_result (sub.nodup distinct) shown
    obtain ⟨s, datum, s', found, printed, left⟩ := prints address chained
    rw [kept] at found
    cases found
    rw [print_due sized tick] at printed
    cases printed
    have mine := filtered address order.channel apart
    rw [if_pos chained, kept, Option.bind_some, print_due sized tick] at mine
    refine ⟨[order.datum channels tick], .inl ⟨due, rfl⟩, ?_, left⟩
    rw [SubscriptionManager.printedFor_snoc, elementGroup, if_pos rfl, values, mine]
    simp [datum]
  · -- The value is refused, so it is not chained, whatever the others do.
    rw [newValue_idle sized tick due] at valued
    cases valued
    have unchained : address ∉ printQ := fun chained => Bool.false_ne_true (queued.mp chained)
    refine ⟨[], .inr ⟨due, rfl⟩, ?_⟩
    rw [List.append_nil]
    rcases rest with ⟨-, rfl, rfl⟩ | ⟨datums, element, shown, elementGroup, values, rfl⟩
    · exact ⟨rfl, kept⟩
    · obtain ⟨frame, -, -, filtered⟩ :=
        SubscriptionManager.printValues_result (sub.nodup distinct) shown
      have none_of_it := filtered address order.channel apart
      rw [if_neg unchained] at none_of_it
      rw [SubscriptionManager.printedFor_snoc, elementGroup, if_pos rfl, values, none_of_it,
        List.append_nil, frame address unchained]
      exact ⟨rfl, kept⟩

/-- The subscription in a tick of the whole manager. -/
theorem rxPdo_event {m after : SubscriptionManager} {ticks : List Tick}
    (blocks : Blocks channels ticks m) (steady : m.activeSignals.Steady)
    (sized : order.Sized channels log) {s address : Nat}
    (found : m.signalSubscriptionMap.find? s order.channel order.group = some address)
    (live : m.heap address = some (order.subscription channels log)) {g d b : Nat}
    (owns : m.activeSignals.Owns g d b address) {tick : Tick} {printed : List DataElement}
    (ran : m.rxPdo channels false tick = some (after, printed)) :
    order.Answers channels log tick (printedFor order.group order.channel printed) ∧
      after.heap address = some (order.subscription channels (log ++
        [order.reading channels tick !(printedFor order.group order.channel printed).isEmpty])) ∧
      after.signalSubscriptionMap = m.signalSubscriptionMap := by
  -- It is a member of the set of its group, of decimation one and block size zero.
  have place : ∀ {g d b}, m.activeSignals.Owns g d b address →
      g = order.group ∧ d = 1 ∧ b = 0 := by
    intro g d b owns
    obtain ⟨s', c', found'⟩ := blocks.registered owns
    obtain ⟨sub, live', rate, size⟩ := blocks.member owns
    rw [live] at live'
    cases live'
    exact ⟨(blocks.single found' found).2, rate.symm, size.symm⟩
  obtain ⟨rfl, rfl, rfl⟩ := place owns
  obtain ⟨set, known, member⟩ := owns
  rw [SubscriptionManager.rxPdo, if_neg Bool.false_ne_true] at ran
  obtain ⟨⟨active, heap, out⟩, loop, same⟩ := Option.bind_eq_some_iff.mp ran
  cases same
  obtain ⟨⟨heap₁, out₁⟩, set', ⟨heap₂, out₂⟩, here, frame⟩ :=
    SubscriptionManager.visitSet_focus steady known loop
  -- What the other sets leave as it is, before the visit and after it.
  have stays : ∀ seen : (Nat → Option Nat) × Option Subscription × List Datum,
      seen.1 = m.heap.channelOf →
      (SubscriptionManager.watch order.group order.channel address (m.heap, []) = seen →
        SubscriptionManager.watch order.group order.channel address (heap₁, out₁) = seen) ∧
      (SubscriptionManager.watch order.group order.channel address (heap₂, out₂) = seen →
        SubscriptionManager.watch order.group order.channel address (heap, printed) = seen) := by
    intro seen labels
    refine frame
      (fun state => SubscriptionManager.watch order.group order.channel address state = seen) ?_
    intro g d b set' state result later listed apart visited held
    have outside : address ∉ set'.members := fun member => apart (place ⟨set', listed, member⟩)
    refine (SubscriptionManager.visitSet_away visited outside ?_).trans held
    rintro rfl x inside
    rw [show state.1.channelOf = m.heap.channelOf from (congrArg Prod.fst held).trans labels]
    refine blocks.strangers found ⟨set', listed, inside⟩ ?_
    rintro rfl
    exact outside inside
  have reached := (stays _ rfl).1 rfl
  simp only [SubscriptionManager.watch, Prod.mk.injEq] at reached
  obtain ⟨labels, same_live, nothing⟩ := reached
  have left := (stays _ ((SubscriptionManager.visitSet_labels here).trans labels)).2 rfl
  simp only [SubscriptionManager.watch, Prod.mk.injEq] at left
  obtain ⟨-, kept, shown⟩ := left
  obtain ⟨datums, answers, values, result⟩ := visitSet_event sized (same_live.trans live) member
    (fun x inside apart => by
      rw [labels]
      exact blocks.strangers found ⟨set, known, inside⟩ apart) here
  have mine : printedFor order.group order.channel printed = datums := by
    rw [shown, values, nothing]
    rfl
  rw [mine]
  exact ⟨answers, kept.trans result, rfl⟩

end EventOrder

/-! ### The life of an event subscription -/

/-- A tick that processes the subscription, and what is printed for it. -/
structure EventTick where
  tick : Tick
  datums : List Datum

namespace EventOrder

/-- The subscription is given up or replaced. -/
def Ends (order : EventOrder) : SubscriptionManager.Action → Prop
  | .subscribe channel group _ _ _ _ _ _ => channel = order.channel ∧ group = order.group
  | .unsubscribe channel group => channel = order.channel ∧ group = order.group
  | .clear => True
  | _ => False

/-- The subscription is in an active set, where a tick reaches it. -/
def Active (channels : Nat → Channel) (order : EventOrder) (m : SubscriptionManager) : Prop :=
  ∃ address d b, m.signalSubscriptionMap.find? (channels order.channel).signal order.channel
    order.group = some address ∧ m.activeSignals.Owns order.group d b address

def readings (channels : Nat → Channel) (order : EventOrder) (log : List EventTick) :
    List (Reading (List Byte)) :=
  log.map fun event => order.reading channels event.tick !event.datums.isEmpty

end EventOrder

/-- From the subscription on, with the ticks that have processed it: any other actions
may come in between. -/
inductive SubscribedRun (channels : Nat → Channel) (order : EventOrder) :
    SubscriptionManager → List EventTick → Prop
  | subscribed {actions m out} (address : Nat) (activates : Bool) {after printed} :
      ManagerRun channels actions m out →
      m.Allowed (.subscribe order.channel order.group order.reduction 0 order.base64
        order.precision address activates) →
      m.step channels (.subscribe order.channel order.group order.reduction 0 order.base64
        order.precision address activates) = some (after, printed) →
      SubscribedRun channels order after []
  | processed {m log} (tick : Tick) {after printed} :
      SubscribedRun channels order m log → order.Active channels m →
      m.step channels (.rxPdo false tick) = some (after, printed) →
      SubscribedRun channels order after
        (log ++ [⟨tick, printedFor order.group order.channel printed⟩])
  | other {m log} (action : SubscriptionManager.Action) {after printed} :
      SubscribedRun channels order m log → m.Allowed action → ¬ order.Ends action →
      (∀ tick, action = .rxPdo false tick → ¬ order.Active channels m) →
      m.step channels action = some (after, printed) →
      SubscribedRun channels order after log

variable {channels : Nat → Channel} {order : EventOrder}

theorem SubscribedRun.managerRun {m : SubscriptionManager} {log : List EventTick}
    (run : SubscribedRun channels order m log) : ∃ actions out, ManagerRun channels actions m out := by
  induction run with
  | subscribed address activates manager allowed ran => exact ⟨_, _, .step _ manager allowed ran⟩
  | processed tick _ _ ran ih =>
      obtain ⟨actions, out, manager⟩ := ih
      exact ⟨_, _, .step (.rxPdo false tick) manager trivial ran⟩
  | other action _ allowed _ _ ran ih =>
      obtain ⟨actions, out, manager⟩ := ih
      exact ⟨_, _, .step _ manager allowed ran⟩

/-- What holds of the subscription after the ticks of `log`. -/
structure Reports (channels : Nat → Channel) (order : EventOrder) (m : SubscriptionManager)
    (log : List EventTick) : Prop where
  live : ∃ address, m.signalSubscriptionMap.find? (channels order.channel).signal order.channel
      order.group = some address ∧
    m.heap address = some (order.subscription channels (order.readings channels log))
  exactly : Exact (order.zeros channels) order.reduction (order.readings channels log)
  printed : ∀ event ∈ log, event.datums = [] ∨ event.datums = [order.datum channels event.tick]

namespace Reports

variable {m after : SubscriptionManager} {ticks : List Tick} {log : List EventTick}
  {printed : List DataElement}

theorem sized (_ : Reports channels order m log) :
    order.Sized channels (order.readings channels log) := by
  intro reading member
  obtain ⟨event, -, rfl⟩ := List.mem_map.mp member
  exact event.tick.sample_length _

/-- A new subscription has printed nothing, and its buffer is zero. -/
theorem of_subscribe {address : Nat} {activates : Bool}
    (ran : m.subscribe channels order.channel order.group order.reduction 0 order.base64
      order.precision address activates = some after) : Reports channels order after [] := by
  refine ⟨⟨address, ?_⟩, .nil, by simp⟩
  obtain ⟨middle, -, created⟩ := Option.bind_eq_some_iff.mp ran
  have made : Function.update middle.heap address (some (Subscription.create channels
      order.channel order.reduction 0 order.base64 order.precision)) address =
      some (order.subscription channels (order.readings channels [])) := by
    rw [Function.update_self]
    exact congrArg some EventOrder.subscription_nil.symm
  have registered : (middle.signalSubscriptionMap.assign (channels order.channel).signal
      order.channel order.group address).find? (channels order.channel).signal order.channel
      order.group = some address := by
    rw [SignalSubscriptionMap.find?_assign, if_pos ⟨rfl, rfl, rfl⟩]
  dsimp only at created
  split at created
  · obtain ⟨heap, registry⟩ := SubscriptionManager.newSignal_frame created
    rw [heap, registry]
    exact ⟨registered, made⟩
  · cases created
    exact ⟨registered, made⟩

theorem processed (reports : Reports channels order m log) (blocks : Blocks channels ticks m)
    (steady : m.activeSignals.Steady) (active : order.Active channels m) {tick : Tick}
    (ran : m.rxPdo channels false tick = some (after, printed)) :
    Reports channels order after
      (log ++ [⟨tick, printedFor order.group order.channel printed⟩]) := by
  obtain ⟨address, found, live⟩ := reports.live
  obtain ⟨address', d, b, found', owns⟩ := active
  rw [found] at found'
  cases found'
  obtain ⟨answers, live', registry⟩ :=
    EventOrder.rxPdo_event blocks steady reports.sized found live owns ran
  have extended : order.readings channels
      (log ++ [⟨tick, printedFor order.group order.channel printed⟩]) =
      order.readings channels log ++ [order.reading channels tick
        !(printedFor order.group order.channel printed).isEmpty] := by
    simp [EventOrder.readings]
  refine ⟨⟨address, registry ▸ found, extended ▸ live'⟩, ?_, ?_⟩
  · rw [extended]
    apply reports.exactly.snoc
    rcases answers with ⟨due, shown⟩ | ⟨idle, silent⟩
    · exact iff_of_true (by simp [EventOrder.reading, shown]) due
    · exact iff_of_false (by simp [EventOrder.reading, silent]) idle
  · intro event member
    rcases List.mem_append.mp member with old | new
    · exact reports.printed event old
    · rw [List.mem_singleton.mp new]
      exact answers.symm.imp And.right And.right

theorem nowhere (blocks : Blocks channels ticks m) {address : Nat}
    (found : m.signalSubscriptionMap.find? (channels order.channel).signal order.channel
      order.group = some address) (inactive : ¬ order.Active channels m) (g d b : Nat) :
    ¬ m.activeSignals.Owns g d b address := by
  intro owns
  obtain ⟨s', c', found'⟩ := blocks.registered owns
  obtain ⟨-, rfl⟩ := blocks.single found' found
  exact inactive ⟨address, d, b, found, owns⟩

theorem other (reports : Reports channels order m log) (blocks : Blocks channels ticks m)
    {action : SubscriptionManager.Action} (allowed : m.Allowed action)
    (stays : ¬ order.Ends action)
    (inactive : ∀ tick, action = .rxPdo false tick → ¬ order.Active channels m)
    (ran : m.step channels action = some (after, printed)) : Reports channels order after log := by
  obtain ⟨address, found, live⟩ := reports.live
  suffices kept : after.signalSubscriptionMap.find? (channels order.channel).signal order.channel
      order.group = some address ∧
      after.heap address = some (order.subscription channels (order.readings channels log)) from
    ⟨⟨address, kept⟩, reports.exactly, reports.printed⟩
  cases action with
  | subscribe channel group decimation blocksize base64 precision new activates =>
      obtain ⟨result, operated, same⟩ := Option.map_eq_some_iff.mp ran
      cases same
      obtain ⟨heap, registered⟩ := blocks.subscribe_away found allowed stays operated
      exact ⟨registered, heap.trans live⟩
  | unsubscribe channel group =>
      obtain ⟨result, operated, same⟩ := Option.map_eq_some_iff.mp ran
      cases same
      obtain ⟨heap, registered⟩ := blocks.unsubscribe_away found stays operated
      exact ⟨registered, heap.trans live⟩
  | clear => exact absurd trivial stays
  | sync =>
      obtain ⟨result, operated, same⟩ := Option.map_eq_some_iff.mp ran
      cases same
      obtain ⟨heap, registry⟩ :=
        SubscriptionManager.sync_idle live EventOrder.subscription_reset operated
      exact ⟨registry ▸ found, heap⟩
  | newSignal signal =>
      obtain ⟨result, operated, same⟩ := Option.map_eq_some_iff.mp ran
      cases same
      obtain ⟨heap, registry⟩ := SubscriptionManager.newSignal_frame operated
      exact ⟨registry ▸ found, heap ▸ live⟩
  | rxPdo quiet tick =>
      cases quiet with
      | true =>
          cases ran
          exact ⟨found, live⟩
      | false =>
          obtain ⟨heap, -, registry⟩ :=
            blocks.rxPdo_away found (nowhere blocks found (inactive tick rfl)) ran
          exact ⟨registry ▸ found, heap.trans live⟩

end Reports

theorem SubscribedRun.reports {m : SubscriptionManager} {log : List EventTick}
    (run : SubscribedRun channels order m log) : Reports channels order m log := by
  induction run with
  | subscribed address activates manager allowed ran =>
      obtain ⟨result, operated, same⟩ := Option.map_eq_some_iff.mp ran
      cases same
      exact Reports.of_subscribe operated
  | processed tick before active ran ih =>
      obtain ⟨actions, out, manager⟩ := before.managerRun
      exact ih.processed manager.blocks.1 manager.steady active ran
  | other action before allowed stays inactive ran ih =>
      obtain ⟨actions, out, manager⟩ := before.managerRun
      exact ih.other manager.blocks.1 allowed stays inactive ran

/-- An element is printed in a tick exactly when the channel differs from what was
printed last and the reduction has passed; it carries the bytes of that tick. So nothing
is lost once the reduction has passed, and two prints are a reduction apart. A tick that
does not reach the subscription prints nothing for it. -/
theorem SubscribedRun.reports_changes {m : SubscriptionManager} {log : List EventTick}
    (run : SubscribedRun channels order m log) :
    (∀ event ∈ log, event.datums = [] ∨ event.datums = [order.datum channels event.tick]) ∧
    (∀ older event newer, log = older ++ event :: newer →
      (event.datums ≠ [] ↔ event.tick.sample (channels order.channel) ≠
          lastReport (order.zeros channels) (order.readings channels older) ∧
        Elapsed order.reduction (order.readings channels older))) ∧
    (∀ older event newer, log = older ++ event :: newer →
      Elapsed order.reduction (order.readings channels older) →
      lastReport (order.zeros channels) (order.readings channels (older ++ [event])) =
        event.tick.sample (channels order.channel)) ∧
    (∀ (first second : Nat) earlier later, first < second → log[first]? = some earlier →
      log[second]? = some later → earlier.datums ≠ [] → later.datums ≠ [] →
      order.reduction ≤ second - first) ∧
    ∀ tick after printed, ¬ order.Active channels m →
      m.step channels (.rxPdo false tick) = some (after, printed) →
      printedFor order.group order.channel printed = [] := by
  have reports := run.reports
  have shown : ∀ event : EventTick, (!event.datums.isEmpty) = true ↔ event.datums ≠ [] := by
    simp
  have parts : ∀ {older event newer}, log = older ++ event :: newer →
      order.readings channels log = order.readings channels older ++
        order.reading channels event.tick (!event.datums.isEmpty) ::
          order.readings channels newer := by
    rintro older event newer rfl
    simp [EventOrder.readings]
  refine ⟨reports.printed, ?_, ?_, ?_, ?_⟩
  · intro older event newer split
    rw [← shown]
    exact reports.exactly _ _ _ (parts split)
  · intro older event newer split elapsed
    have current := reports.exactly.current (parts split) elapsed
    simpa [EventOrder.readings, EventOrder.reading] using current
  · intro first second earlier later before at_first at_second reported again
    have at_reading : ∀ (index : Nat) event, log[index]? = some event →
        (order.readings channels log)[index]? =
          some (order.reading channels event.tick !event.datums.isEmpty) := by
      intro index event found
      simp [EventOrder.readings, found]
    exact reports.exactly.apart before (at_reading first earlier at_first)
      (at_reading second later at_second) ((shown earlier).mpr reported)
      ((shown later).mpr again)

  · intro tick after printed inactive ran
    obtain ⟨address, found, -⟩ := reports.live
    obtain ⟨actions, out, manager⟩ := run.managerRun
    exact (manager.blocks.1.rxPdo_away found
      (Reports.nowhere manager.blocks.1 found inactive) ran).2.1

/-- A change that comes while the reduction of two runs is printed when it is over. -/
theorem SubscribedRun.reports_changes_reduced :
    ∃ m log, SubscribedRun (fun _ => ⟨0, 0, 1⟩) ⟨0, 1, 2, false, 16⟩ m log ∧
      log.map (fun event => event.datums.map Datum.d) = [[[7]], [], [[8]]] ∧
      ∀ (first second : Nat) earlier later, first < second → log[first]? = some earlier →
        log[second]? = some later → earlier.datums ≠ [] → later.datums ≠ [] →
        2 ≤ second - first := by
  have run : ∃ m log, SubscribedRun (fun _ => ⟨0, 0, 1⟩) ⟨0, 1, 2, false, 16⟩ m log ∧
      log.map (fun event => event.datums.map Datum.d) = [[[7]], [], [[8]]] :=
    ⟨_, _, .processed ⟨1, 4, fun _ _ => 8⟩
      (.other .sync
        (.processed ⟨1, 3, fun _ _ => 8⟩
          (.processed ⟨1, 2, fun _ _ => 7⟩
            (.subscribed 0 true .start rfl rfl) ⟨0, 1, 0, rfl, _, rfl, by decide⟩ rfl)
          ⟨0, 1, 0, rfl, _, rfl, by decide⟩ rfl)
        trivial id (fun _ same => by cases same) rfl)
      ⟨0, 1, 0, rfl, _, rfl, by decide⟩ rfl, rfl⟩
  obtain ⟨m, log, run, printed⟩ := run
  exact ⟨m, log, run, printed, run.reports_changes.2.2.2.1⟩

end PdServ
