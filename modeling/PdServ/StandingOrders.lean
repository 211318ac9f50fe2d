import PdServ.SubscriptionFocus
import PdServ.Xsad

/-!
The orders of a client: `Session::xsad` and `Session::xsod` over the subscription managers
of all tasks. What the managers hold in their two indexes is one table, from channel and
group to the order that was given last, and what they print follows that table.
-/

namespace PdServ

open Std TreeUpdate

/-- What a client has ordered of a channel. An event is looked at in each tick, and
`trigger` holds it back; a block takes its samples at the decimation. -/
structure Order where
  decimation : Nat
  trigger : Nat
  blocksize : Nat
  base64 : Bool
  precision : Nat

/-- channel → group → order -/
abbrev Orders := Nat → Nat → Option Order

namespace Order

def place (reduction blocksize : Nat) (base64 : Bool) (precision : Nat) : Order where
  decimation := if blocksize = 0 then 1 else reduction
  trigger := reduction
  blocksize := blocksize
  base64 := base64
  precision := precision

/-- A value of a `<data>` element is as it was ordered. -/
structure Serves (order : Order) (element : DataElement) (datum : Datum) : Prop where
  decimation : element.decimation = order.decimation
  blocksize : element.blocksize = order.blocksize
  name : datum.name = if order.blocksize = 0 then .E else .F
  base64 : datum.base64 = order.base64
  precision : datum.precision = order.precision

end Order

/-- Each value that is printed was ordered, and is as it was ordered. -/
def Orders.Served (orders : Orders) (printed : List DataElement) : Prop :=
  ∀ element ∈ printed, ∀ datum ∈ element.datums, ∃ order,
    orders datum.c element.group = some order ∧ order.Serves element datum

/-! ### The order of a subscription -/

def Subscription.order (s : Subscription) : Order :=
  ⟨s.decimation, s.trigger_start, s.blocksize, s.base64, s.precision⟩

/-- The channel of a subscription, and its order. -/
def Heap.orderAt (heap : Heap) (address : Nat) : Option (Nat × Order) :=
  (heap address).map fun s => (s.channel, s.order)

theorem Heap.orderAt_update {heap : Heap} {address : Nat} {s s' : Subscription}
    (found : heap address = some s) (channel : s'.channel = s.channel) (order : s'.order = s.order) :
    Heap.orderAt (Function.update heap address (some s')) = heap.orderAt := by
  funext other
  unfold Heap.orderAt
  by_cases here : other = address
  · subst here
    rw [Function.update_self, found, Option.map_some, Option.map_some, channel, order]
  · rw [Function.update_of_ne here]

variable {channels : Nat → Channel}

theorem Subscription.store_order {s s' : Subscription} {value : List Byte}
    (ran : s.store value = some s') : s'.order = s.order := by
  unfold Subscription.store at ran
  split at ran
  · cases ran
    rfl
  · cases ran

theorem Subscription.newValue_order {s s' : Subscription} {buf : Nat → Byte} {taken : Bool}
    (ran : s.newValue channels buf = some (taken, s')) : s'.order = s.order := by
  unfold Subscription.newValue at ran
  dsimp only at ran
  split at ran
  · split at ran
    · cases ran
      rfl
    · obtain ⟨_, put, same⟩ := Option.map_eq_some_iff.mp ran
      cases same
      have kept := Subscription.store_order put
      exact kept
  · obtain ⟨_, put, same⟩ := Option.map_eq_some_iff.mp ran
    cases same
    exact Subscription.store_order put

theorem Subscription.print_order {s s' : Subscription} {datum : Option Datum}
    (ran : s.print channels = some (datum, s')) :
    s'.order = s.order ∧ ∀ printed, datum = some printed →
      printed.name = (if s.blocksize = 0 then .E else .F) ∧ printed.base64 = s.base64 ∧
        printed.precision = s.precision := by
  unfold Subscription.print at ran
  dsimp only at ran
  split at ran
  · split at ran
    · cases ran
      refine ⟨rfl, ?_⟩
      rintro printed ⟨⟩
      exact ⟨rfl, rfl, rfl⟩
    · cases ran
  · cases ran
    exact ⟨rfl, nofun⟩

namespace SubscriptionManager

/-! ### A tick changes no order -/

theorem takeValues_orderAt {tick : Tick} {event print : Bool} {members : List Nat}
    {heap after : Heap} {printQ : List Nat}
    (ran : takeValues channels tick event print members heap = some (printQ, after)) :
    after.orderAt = heap.orderAt := by
  induction members generalizing heap printQ with
  | nil =>
      cases ran
      rfl
  | cons address rest ih =>
      obtain ⟨s, found, ran⟩ := Option.bind_eq_some_iff.mp ran
      obtain ⟨⟨taken, s'⟩, took, ran⟩ := Option.bind_eq_some_iff.mp ran
      obtain ⟨⟨queue, later⟩, rest_ran, same⟩ := Option.bind_eq_some_iff.mp ran
      cases same
      exact (ih rest_ran).trans (Heap.orderAt_update found (Subscription.newValue_channel took)
        (Subscription.newValue_order took))

/-- What is printed is of a subscription in the chain, in the form that was ordered. -/
theorem printValues_orderAt {printQ : List Nat} {heap after : Heap} {datums : List Datum}
    (ran : printValues channels printQ heap = some (datums, after)) :
    after.orderAt = heap.orderAt ∧ ∀ datum ∈ datums, ∃ x ∈ printQ, ∃ order : Order,
      heap.orderAt x = some (datum.c, order) ∧
        datum.name = (if order.blocksize = 0 then .E else .F) ∧ datum.base64 = order.base64 ∧
          datum.precision = order.precision := by
  induction printQ generalizing heap datums with
  | nil =>
      cases ran
      exact ⟨rfl, nofun⟩
  | cons first rest ih =>
      obtain ⟨s, found, ran⟩ := Option.bind_eq_some_iff.mp ran
      obtain ⟨⟨value, s'⟩, shown, ran⟩ := Option.bind_eq_some_iff.mp ran
      obtain ⟨⟨others, later⟩, rest_ran, same⟩ := Option.bind_eq_some_iff.mp ran
      cases same
      obtain ⟨channel, named⟩ := Subscription.print_channel shown
      obtain ⟨order, form⟩ := Subscription.print_order shown
      have still := Heap.orderAt_update found channel order
      obtain ⟨kept, printed⟩ := ih rest_ran
      refine ⟨kept.trans still, fun datum member => ?_⟩
      rcases List.mem_append.mp member with here | there
      · have value_eq := Option.mem_toList.mp here
        refine ⟨first, List.mem_cons_self, s.order, ?_, form datum value_eq⟩
        rw [Heap.orderAt, found, Option.map_some, named datum value_eq]
      · obtain ⟨x, queued, order, standing, form⟩ := printed datum there
        rw [still] at standing
        exact ⟨x, List.mem_cons_of_mem first queued, order, standing, form⟩

theorem visitSet_orderAt {tick : Tick} {group decimation blocksize : Nat}
    {set set' : SubscriptionSet} {heap after : Heap} {out out' : List DataElement}
    (ran : visitSet channels tick group decimation blocksize set (heap, out) =
      some (set', after, out')) :
    after.orderAt = heap.orderAt ∧ ∀ element ∈ out', element ∈ out ∨
      (element.group = group ∧ element.decimation = decimation ∧ element.blocksize = blocksize ∧
        ∀ datum ∈ element.datums, ∃ x ∈ set.members, ∃ order : Order,
          heap.orderAt x = some (datum.c, order) ∧
            datum.name = (if order.blocksize = 0 then .E else .F) ∧
              datum.base64 = order.base64 ∧ datum.precision = order.precision) := by
  unfold visitSet at ran
  dsimp only at ran
  split at ran
  · obtain ⟨⟨printQ, middle⟩, took, ran⟩ := Option.bind_eq_some_iff.mp ran
    have first := takeValues_orderAt took
    have queued := (takeValues_result (SubscriptionSet.distinct set.members) took).1.subset
    dsimp only at ran
    split at ran
    · cases ran
      exact ⟨first, fun element member => .inl member⟩
    · split at ran
      · obtain ⟨⟨datums, later⟩, shown, same⟩ := Option.bind_eq_some_iff.mp ran
        cases same
        obtain ⟨second, printed⟩ := printValues_orderAt shown
        rw [first] at second printed
        refine ⟨second, fun element member => ?_⟩
        rcases List.mem_append.mp member with old | new
        · exact .inl old
        · cases List.mem_singleton.mp new
          refine .inr ⟨rfl, rfl, rfl, fun datum inside => ?_⟩
          obtain ⟨x, chained, standing⟩ := printed datum inside
          exact ⟨x, TreeSet.mem_toList.mp (queued chained), standing⟩
      · cases ran
  · cases ran

theorem resetMembers_orderAt {members : List Nat} {heap after : Heap}
    (ran : resetMembers members heap = some after) : after.orderAt = heap.orderAt := by
  induction members generalizing heap with
  | nil =>
      cases ran
      rfl
  | cons first rest ih =>
      obtain ⟨s, found, rest_ran⟩ := Option.bind_eq_some_iff.mp ran
      exact (ih rest_ran).trans (Heap.orderAt_update found rfl rfl)

theorem sync_orderAt {m after : SubscriptionManager} (ran : m.sync = some after) :
    after.heap.orderAt = m.heap.orderAt ∧
      after.signalSubscriptionMap = m.signalSubscriptionMap := by
  obtain ⟨⟨active, heap⟩, loop, same⟩ := Option.bind_eq_some_iff.mp ran
  cases same
  refine ⟨?_, rfl⟩
  refine updateActive_keeps (fun heap : Heap => heap.orderAt = m.heap.orderAt) ?_ loop rfl
  intro g d blocksizes heap blocksizes' after _ visited kept
  obtain ⟨⟨sets, later⟩, inner, same⟩ := Option.bind_eq_some_iff.mp visited
  cases same
  refine updateAll_keeps (fun heap : Heap => heap.orderAt = m.heap.orderAt) ?_ inner kept
  intro b set heap set' after _ visited kept
  obtain ⟨later, reset, same⟩ := Option.bind_eq_some_iff.mp visited
  cases same
  exact (resetMembers_orderAt reset).trans kept

/-! ### The table of a manager -/

/-- The order that is registered for a channel and a group. -/
def standing (channels : Nat → Channel) (m : SubscriptionManager) : Orders := fun c g =>
  (m.signalSubscriptionMap.find? (channels c).signal c g).bind fun address =>
    (m.heap address).map Subscription.order

/-- What an action does to the table. -/
def Action.give (orders : Orders) : Action → Orders
  | .subscribe channel group decimation blocksize base64 precision _ _ => fun c g =>
      if c = channel ∧ g = group then some (.place decimation blocksize base64 precision)
      else orders c g
  | .unsubscribe channel group => fun c g => if c = channel ∧ g = group then none else orders c g
  | .clear => fun _ _ => none
  | .sync | .newSignal _ | .rxPdo .. => orders

theorem standing_orderAt (channels : Nat → Channel) (m : SubscriptionManager) (c g : Nat) :
    m.standing channels c g = (m.signalSubscriptionMap.find? (channels c).signal c g).bind
      fun address => (m.heap.orderAt address).map Prod.snd := by
  unfold standing Heap.orderAt
  congr
  funext address
  rw [Option.map_map]
  rfl

theorem standing_congr {m after : SubscriptionManager}
    (orders : after.heap.orderAt = m.heap.orderAt)
    (registry : after.signalSubscriptionMap = m.signalSubscriptionMap) :
    after.standing channels = m.standing channels := by
  funext c g
  rw [standing_orderAt, standing_orderAt, orders, registry]

end SubscriptionManager

namespace Blocks

variable {ticks : List Tick} {m after : SubscriptionManager}

/-- The table, of an address that is registered. -/
theorem standing_of_registered (blocks : Blocks channels ticks m) {s c g address : Nat}
    {sub : Subscription} (found : m.signalSubscriptionMap.find? s c g = some address)
    (live : m.heap address = some sub) : m.standing channels c g = some sub.order := by
  rw [blocks.keyed found] at found
  rw [SubscriptionManager.standing, found, Option.bind_some, live, Option.map_some]

theorem removeOld_registry (blocks : Blocks channels ticks m) {channel group : Nat}
    (ran : m.removeOld channels channel group = some after) :
    after.signalSubscriptionMap = m.signalSubscriptionMap := by
  unfold SubscriptionManager.removeOld at ran
  split at ran
  · next old known =>
    obtain ⟨result, ran', gone⟩ := blocks.remove known
    rw [ran'] at ran
    cases ran
    exact gone.registry
  · cases ran
    rfl

theorem subscribe_created (blocks : Blocks channels ticks m)
    {c g reduction blocksize precision new : Nat} {base64 activates : Bool}
    (ran : m.subscribe channels c g reduction blocksize base64 precision new activates =
      some after) :
    after.signalSubscriptionMap =
        m.signalSubscriptionMap.assign (channels c).signal c g new ∧
      after.heap new =
        some (Subscription.create channels c reduction blocksize base64 precision) := by
  obtain ⟨middle, removed, created⟩ := Option.bind_eq_some_iff.mp ran
  have registry := blocks.removeOld_registry removed
  dsimp only at created
  split at created
  · obtain ⟨heap, kept⟩ := SubscriptionManager.newSignal_frame created
    rw [heap, kept, registry]
    exact ⟨rfl, Function.update_self ..⟩
  · cases created
    exact ⟨congrArg (·.assign (channels c).signal c g new) registry, Function.update_self ..⟩

theorem standing_subscribe (blocks : Blocks channels ticks m)
    {channel group reduction blocksize precision new : Nat} {base64 activates : Bool}
    (free : m.heap new = none)
    (ran : m.subscribe channels channel group reduction blocksize base64 precision new activates =
      some after) (c g : Nat) :
    after.standing channels c g =
      if c = channel ∧ g = group then some (.place reduction blocksize base64 precision)
      else m.standing channels c g := by
  obtain ⟨registry, created⟩ := blocks.subscribe_created ran
  split
  · next here =>
    obtain ⟨rfl, rfl⟩ := here
    have registered : after.signalSubscriptionMap.find? (channels c).signal c g = some new := by
      rw [registry, SignalSubscriptionMap.find?_assign, if_pos ⟨rfl, rfl, rfl⟩]
    rw [SubscriptionManager.standing, registered, Option.bind_some, created]
    rfl
  · next other =>
    unfold SubscriptionManager.standing
    cases found : m.signalSubscriptionMap.find? (channels c).signal c g with
    | none =>
        rw [registry, SignalSubscriptionMap.find?_assign,
          if_neg fun same => other ⟨same.2.1.symm, same.2.2.symm⟩, found]
        rfl
    | some address =>
        obtain ⟨heap, registered⟩ := blocks.subscribe_away found free
          (fun same => other ⟨same.1.symm, same.2.symm⟩) ran
        rw [registered, Option.bind_some, Option.bind_some, heap]

theorem standing_unsubscribe (blocks : Blocks channels ticks m) {channel group : Nat}
    (ran : m.unsubscribe channels channel group = some after) (c g : Nat) :
    after.standing channels c g =
      if c = channel ∧ g = group then none else m.standing channels c g := by
  have gone : ∀ s, after.signalSubscriptionMap.find? s c g =
      if (channels channel).signal = s ∧ channel = c ∧ group = g then none
      else m.signalSubscriptionMap.find? s c g := by
    intro s
    have absent (missing : m.signalSubscriptionMap.find? (channels channel).signal channel group =
        none) : m.signalSubscriptionMap.find? s c g =
          if (channels channel).signal = s ∧ channel = c ∧ group = g then none
          else m.signalSubscriptionMap.find? s c g := by
      split
      · next same =>
        obtain ⟨rfl, rfl, rfl⟩ := same
        exact missing
      · rfl
    unfold SubscriptionManager.unsubscribe at ran
    dsimp only at ran
    split at ran
    · next first =>
      cases ran
      exact absent (by simp [SignalSubscriptionMap.find?, first])
    · next channelMap first =>
      split at ran
      · next second =>
        cases ran
        exact absent (by simp [SignalSubscriptionMap.find?, first, second])
      · next groups second =>
        split at ran
        · next third =>
          cases ran
          exact absent (by simp [SignalSubscriptionMap.find?, first, second, third])
        · next address third =>
          have known := SignalSubscriptionMap.find?_eq_some.mpr
            ⟨channelMap, first, groups, second, third⟩
          obtain ⟨middle, ran', removed⟩ := blocks.remove known
          obtain ⟨result, again, same⟩ := Option.bind_eq_some_iff.mp ran
          rw [ran'] at again
          cases again
          cases same
          dsimp only
          rw [removed.registry, SignalSubscriptionMap.find?_eraseFrom group first second]
  split
  · next here =>
    obtain ⟨rfl, rfl⟩ := here
    rw [SubscriptionManager.standing, gone, if_pos ⟨rfl, rfl, rfl⟩]
    rfl
  · next other =>
    unfold SubscriptionManager.standing
    cases found : m.signalSubscriptionMap.find? (channels c).signal c g with
    | none =>
        rw [gone, if_neg fun same => other ⟨same.2.1.symm, same.2.2.symm⟩, found]
        rfl
    | some address =>
        obtain ⟨heap, registered⟩ := blocks.unsubscribe_away found
          (fun same => other ⟨same.1.symm, same.2.symm⟩) ran
        rw [registered, Option.bind_some, Option.bind_some, heap]

/-- A tick keeps the table, and what it prints is as it was ordered. -/
theorem standing_rxPdo (blocks : Blocks channels ticks m) {quiet : Bool} {tick : Tick}
    {printed : List DataElement} (ran : m.rxPdo channels quiet tick = some (after, printed)) :
    after.standing channels = m.standing channels ∧ (m.standing channels).Served printed := by
  unfold SubscriptionManager.rxPdo at ran
  split at ran
  · cases ran
    exact ⟨rfl, nofun⟩
  · obtain ⟨⟨active, heap, out⟩, loop, same⟩ := Option.bind_eq_some_iff.mp ran
    cases same
    let so_far : Heap × List DataElement → Prop := fun state =>
      state.1.orderAt = m.heap.orderAt ∧ (m.standing channels).Served state.2
    have kept : so_far (heap, printed) := by
      refine updateActive_keeps so_far ?_ loop ⟨rfl, nofun⟩
      intro g d blocksizes state blocksizes' later listed visited held
      refine SubscriptionManager.visitDecimation_keeps so_far ?_ visited held
      intro b set state set' later stored visited held
      obtain ⟨heap, printed⟩ := SubscriptionManager.visitSet_orderAt visited
      refine ⟨heap.trans held.1, fun element member => ?_⟩
      rcases printed element member with old | ⟨rfl, rfl, rfl, made⟩
      · exact held.2 element old
      · intro datum inside
        obtain ⟨x, active, order, standing, name, base64, precision⟩ := made datum inside
        have owns : m.activeSignals.Owns element.group element.decimation element.blocksize x :=
          ⟨set, listed _ set stored, active⟩
        obtain ⟨s, c, found⟩ := blocks.registered owns
        obtain ⟨sub, live, decimation, blocksize⟩ := blocks.member owns
        obtain ⟨sub', live', channel⟩ := blocks.live found
        rw [live] at live'
        cases live'
        rw [held.1, Heap.orderAt, live, Option.map_some] at standing
        obtain ⟨here, rfl⟩ := Prod.mk.inj (Option.some.inj standing)
        rw [← channel, here] at found
        exact ⟨sub.order, blocks.standing_of_registered found live, decimation.symm, blocksize.symm,
          name, base64, precision⟩
    exact ⟨SubscriptionManager.standing_congr kept.1 rfl, kept.2⟩

/-- One action of a manager. -/
theorem standing_step (blocks : Blocks channels ticks m) {action : SubscriptionManager.Action}
    (allowed : m.Allowed action) {printed : List DataElement}
    (ran : m.step channels action = some (after, printed)) :
    after.standing channels = action.give (m.standing channels) ∧
      (m.standing channels).Served printed := by
  cases action with
  | subscribe channel group reduction blocksize base64 precision address activates =>
      obtain ⟨result, done, same⟩ := Option.map_eq_some_iff.mp ran
      cases same
      exact ⟨funext fun c => funext fun g => blocks.standing_subscribe allowed done c g, nofun⟩
  | unsubscribe channel group =>
      obtain ⟨result, done, same⟩ := Option.map_eq_some_iff.mp ran
      cases same
      exact ⟨funext fun c => funext fun g => blocks.standing_unsubscribe done c g, nofun⟩
  | clear =>
      obtain ⟨result, done, same⟩ := Option.map_eq_some_iff.mp ran
      cases same
      obtain ⟨state, -, same⟩ := Option.bind_eq_some_iff.mp done
      cases same
      refine ⟨funext fun c => funext fun g => ?_, nofun⟩
      simp [SubscriptionManager.standing, SignalSubscriptionMap.find?,
        SubscriptionManager.Action.give]
  | sync =>
      obtain ⟨result, done, same⟩ := Option.map_eq_some_iff.mp ran
      cases same
      obtain ⟨orders, registry⟩ := SubscriptionManager.sync_orderAt done
      exact ⟨SubscriptionManager.standing_congr orders registry, nofun⟩
  | newSignal signal =>
      obtain ⟨result, done, same⟩ := Option.map_eq_some_iff.mp ran
      cases same
      obtain ⟨heap, registry⟩ := SubscriptionManager.newSignal_frame done
      exact ⟨SubscriptionManager.standing_congr (by rw [heap]) registry, nofun⟩
  | rxPdo quiet tick => exact blocks.standing_rxPdo ran

end Blocks

/-! ### The commands of a session -/

/-- `subscriptionManager` has an entry for each task. -/
structure TaskTable extends ChannelTable where
  tasks : Nat
  inside : ∀ c < size, task c < tasks

/-- What a session has for its commands: its managers, by the index of the task. -/
structure Streams where
  subscriptionManager : Nat → SubscriptionManager
  quiet : Bool

inductive OrderAction where
  /-- `news`: of each call of `subscribe` what `new` returns, and whether the signal is
  active at once -/
  | xsad (command : Command) (news : List (Nat × Bool))
  | xsod (command : Command)
  | newSignal (task signal : Nat)
  | rxPdo (task : Nat) (tick : Tick)

/-- A call at the manager of a task. -/
abbrev ManagerCall := Nat × SubscriptionManager.Action

def SubscribeCall.toManager (call : SubscribeCall) (new : Nat × Bool) : ManagerCall :=
  (call.task, .subscribe call.channel call.group call.decimation call.blocksize call.base64
    call.precision new.1 new.2)

namespace TaskTable

/-- The loop over all managers. -/
def everyManager (table : TaskTable) (action : SubscriptionManager.Action) : List ManagerCall :=
  (List.range table.tasks).map (·, action)

def xsad (table : TaskTable) (command : Command) (news : List (Nat × Bool)) :
    Option (List ManagerCall × Bool) := do
  let result ← Session.xsad table.toChannelTable command
  if news.length = result.calls.length then
    some ((if result.sync then table.everyManager .sync else []) ++
      List.zipWith SubscribeCall.toManager result.calls news, result.quiet)
  else none

def xsod (table : TaskTable) (command : Command) : List ManagerCall :=
  match command.getUnsignedList (ascii "channels") with
  | some intList =>
      let group := (command.getUnsigned (ascii "group")).getD 0
      (intList.filter (· < table.size)).map fun c => (table.task c, .unsubscribe c group)
  | none => table.everyManager .clear

/-- The calls of an action one after the other, and `quiet` behind it. -/
def calls (table : TaskTable) (quiet : Bool) : OrderAction → Option (List ManagerCall × Bool)
  | .xsad command news => table.xsad command news
  | .xsod command => some (table.xsod command, quiet)
  | .newSignal task signal => some ([(task, .newSignal signal)], quiet)
  | .rxPdo task tick => some ([(task, .rxPdo quiet tick)], quiet)

end TaskTable

inductive Performs (channels : Nat → Channel) :
    (Nat → SubscriptionManager) → List ManagerCall → (Nat → SubscriptionManager) →
      List DataElement → Prop
  | nil {managers} : Performs channels managers [] managers []
  | cons {managers task action after printed rest last out} :
      (managers task).Allowed action →
      (managers task).step channels action = some (after, printed) →
      Performs channels (Function.update managers task after) rest last out →
      Performs channels managers ((task, action) :: rest) last (printed ++ out)

inductive OrderRun (channels : Nat → Channel) (table : TaskTable) :
    List OrderAction → Streams → Prop
  | start : OrderRun channels table [] ⟨fun _ => {}, false⟩
  | step {actions s} (action : OrderAction) {calls quiet managers printed} :
      OrderRun channels table actions s → table.calls s.quiet action = some (calls, quiet) →
      Performs channels s.subscriptionManager calls managers printed →
      OrderRun channels table (actions ++ [action]) ⟨managers, quiet⟩

/-! ### What a client means -/

/-- What `xsad` orders of a channel. -/
def XsadOrder.orderOf (order : XsadOrder) (sampleTime : ℚ) : Option Order :=
  (order.reductionFor sampleTime).map fun reduction =>
    .place reduction order.blocksize order.base64 order.precision

/-- `xsad` orders the channels that it lists and that exist, in one group; `xsod` takes
them back, or everything. -/
def Orders.after (table : TaskTable) (orders : Orders) : OrderAction → Orders
  | .xsad command _ =>
      match command.getUnsignedList (ascii "channels") with
      | none => orders
      | some indexList => fun c g =>
          if (c ∈ indexList ∧ c < table.size) ∧ g = (XsadOrder.read command).group then
            (XsadOrder.read command).orderOf (table.sampleTime c)
          else orders c g
  | .xsod command =>
      match command.getUnsignedList (ascii "channels") with
      | none => fun _ _ => none
      | some intList => fun c g =>
          if (c ∈ intList ∧ c < table.size) ∧ g = (command.getUnsigned (ascii "group")).getD 0 then
            none
          else orders c g
  | .newSignal .. | .rxPdo .. => orders

/-- What is ordered after all of these. -/
def ordered (table : TaskTable) (actions : List OrderAction) : Orders :=
  actions.foldl (Orders.after table) fun _ _ => none

/-! ### One call -/

/-- A call changes the table for the channels of its task. -/
def ManagerCall.give (table : TaskTable) (orders : Orders) (call : ManagerCall) : Orders :=
  fun c g => if table.task c = call.1 then call.2.give orders c g else orders c g

/-- A call about a channel is at the manager of the channel's task. -/
def ManagerCall.Routed (table : TaskTable) : ManagerCall → Prop
  | (task, .subscribe channel ..) => table.task channel = task
  | (task, .unsubscribe channel _) => table.task channel = task
  | _ => True

/-- Of each manager the table is the part for the channels of its task. -/
structure Stand (channels : Nat → Channel) (table : TaskTable) (orders : Orders)
    (managers : Nat → SubscriptionManager) : Prop where
  blocks : ∀ t, ∃ ticks, Blocks channels ticks (managers t)
  standing : ∀ t c g, (managers t).standing channels c g =
    if table.task c = t then orders c g else none

theorem SubscriptionManager.Action.give_congr (action : SubscriptionManager.Action)
    {orders orders' : Orders} {c g : Nat} (same : orders c g = orders' c g) :
    action.give orders c g = action.give orders' c g := by
  cases action <;> simp [give, same]

theorem ManagerCall.Routed.give_none {table : TaskTable} {task : Nat}
    {action : SubscriptionManager.Action} (routed : Routed table (task, action)) {orders : Orders}
    {c g : Nat} (away : table.task c ≠ task) (none : orders c g = none) :
    action.give orders c g = Option.none := by
  cases action with
  | subscribe channel group reduction blocksize base64 precision address activates =>
      have other : c ≠ channel := by
        rintro rfl
        exact away routed
      simp [SubscriptionManager.Action.give, other, none]
  | unsubscribe channel group => simp [SubscriptionManager.Action.give, none]
  | clear => rfl
  | sync => exact none
  | newSignal signal => exact none
  | rxPdo quiet tick => exact none

theorem Stand.call {table : TaskTable} {orders : Orders} {managers : Nat → SubscriptionManager}
    (stand : Stand channels table orders managers) {task : Nat}
    {action : SubscriptionManager.Action} (routed : ManagerCall.Routed table (task, action))
    (allowed : (managers task).Allowed action) {after : SubscriptionManager}
    {printed : List DataElement}
    (ran : (managers task).step channels action = some (after, printed)) :
    Stand channels table (ManagerCall.give table orders (task, action))
      (Function.update managers task after) := by
  obtain ⟨ticks, blocks⟩ := stand.blocks task
  obtain ⟨given, -⟩ := blocks.standing_step allowed ran
  obtain ⟨after', printed', ran', later, -⟩ := blocks.step action allowed
  rw [ran] at ran'
  cases ran'
  constructor
  · intro t
    by_cases here : t = task
    · subst here
      exact ⟨_, by rw [Function.update_self]; exact later⟩
    · rw [Function.update_of_ne here]
      exact stand.blocks t
  · intro t c g
    by_cases here : t = task
    · subst here
      rw [Function.update_self, given]
      by_cases ours : table.task c = t
      · rw [if_pos ours, ManagerCall.give, if_pos ours]
        apply action.give_congr
        rw [stand.standing, if_pos ours]
      · rw [if_neg ours]
        apply routed.give_none ours
        rw [stand.standing, if_neg ours]
    · rw [Function.update_of_ne here, stand.standing]
      split
      · next ours => rw [ManagerCall.give, if_neg (ours.trans_ne here)]
      · rfl

theorem Stand.performs {table : TaskTable} {managers last : Nat → SubscriptionManager}
    {calls : List ManagerCall} {printed : List DataElement}
    (performs : Performs channels managers calls last printed)
    (routed : ∀ call ∈ calls, ManagerCall.Routed table call) {orders : Orders}
    (stand : Stand channels table orders managers) :
    Stand channels table (calls.foldl (ManagerCall.give table) orders) last := by
  induction performs generalizing orders with
  | nil => exact stand
  | cons allowed ran _ ih =>
      exact ih (fun call member => routed call (List.mem_cons_of_mem _ member))
        (stand.call (routed _ List.mem_cons_self) allowed ran)

/-! ### All calls of a command -/

namespace TaskTable

variable {table : TaskTable}

theorem everyManager_sync (orders : Orders) :
    (table.everyManager .sync).foldl (ManagerCall.give table) orders = orders := by
  rw [everyManager, List.foldl_map]
  refine List.foldl_fixed' (fun task => ?_) (List.range table.tasks)
  funext c g
  exact ite_self _

theorem everyManager_clear {orders : Orders}
    (known : ∀ c g, orders c g ≠ none → c < table.size) :
    (table.everyManager .clear).foldl (ManagerCall.give table) orders = fun _ _ => none := by
  have first (n : Nat) : ((List.range n).map fun t => ((t, .clear) : ManagerCall)).foldl
      (ManagerCall.give table) orders =
        fun c g => if table.task c < n then none else orders c g := by
    induction n with
    | zero => simp
    | succ n ih =>
        rw [List.range_succ, List.map_append, List.foldl_append, ih]
        funext c g
        rcases Nat.lt_trichotomy (table.task c) n with less | same | more
        · simp [ManagerCall.give, less, less.ne, Nat.lt_succ_of_lt less]
        · simp [ManagerCall.give, same, SubscriptionManager.Action.give]
        · simp [ManagerCall.give, more.ne', more.not_gt, Nat.not_lt.mpr more]
  rw [everyManager, first]
  funext c g
  split
  · rfl
  · next outside =>
    by_contra present
    exact outside (table.inside c (known c g present))

/-- The orders of one channel and then those of a list, all in one group. -/
theorem place_cons {c group : Nat} {rest : List Nat} {orders middle : Orders}
    (value : Nat → Option Order)
    (first : ∀ x g, middle x g = if x = c ∧ g = group then value x else orders x g) (x g : Nat) :
    (if x ∈ rest ∧ g = group then value x else middle x g) =
      if x ∈ c :: rest ∧ g = group then value x else orders x g := by
  rw [first x g]
  by_cases same : g = group
  · by_cases here : x = c
    · simp [here, same]
    · simp [here, same]
  · simp [same]

theorem subscribe_calls {order : XsadOrder} {indexList : List Nat} {calls : List SubscribeCall}
    (collected : indexList.mapM (order.call table.toChannelTable) = some calls)
    {news : List (Nat × Bool)} (enough : news.length = calls.length) (orders : Orders) :
    (∀ call ∈ List.zipWith SubscribeCall.toManager calls news, ManagerCall.Routed table call) ∧
      (List.zipWith SubscribeCall.toManager calls news).foldl (ManagerCall.give table) orders =
        fun c g => if c ∈ indexList ∧ g = order.group then order.orderOf (table.sampleTime c)
          else orders c g := by
  induction indexList generalizing calls news orders with
  | nil =>
      cases collected
      exact ⟨nofun, by simp⟩
  | cons c rest ih =>
      rw [List.mapM_cons] at collected
      obtain ⟨call, made, collected⟩ := Option.bind_eq_some_iff.mp collected
      obtain ⟨others, later, same⟩ := Option.bind_eq_some_iff.mp collected
      cases same
      obtain ⟨reduction, reduced, rfl⟩ := Option.map_eq_some_iff.mp made
      cases news with
      | nil => cases enough
      | cons new news =>
          obtain ⟨routed, folded⟩ := ih later (Nat.succ.inj enough)
            (ManagerCall.give table orders (SubscribeCall.toManager _ new))
          rw [List.zipWith_cons_cons, List.foldl_cons, folded]
          refine ⟨List.forall_mem_cons.mpr ⟨rfl, routed⟩, ?_⟩
          have ordered : order.orderOf (table.sampleTime c) =
              some (.place reduction order.blocksize order.base64 order.precision) := by
            rw [XsadOrder.orderOf, reduced]
            rfl
          funext x g
          apply place_cons fun x => order.orderOf (table.sampleTime x)
          intro x g
          by_cases here : x = c ∧ g = order.group
          · obtain ⟨rfl, rfl⟩ := here
            simp [ManagerCall.give, SubscribeCall.toManager, SubscriptionManager.Action.give,
              ordered]
          · simp only [ManagerCall.give, SubscribeCall.toManager,
              SubscriptionManager.Action.give, if_neg here, ite_self]

theorem unsubscribe_calls (table : TaskTable) (group : Nat) (intList : List Nat) (orders : Orders) :
    (intList.map fun c => ((table.task c, .unsubscribe c group) : ManagerCall)).foldl
        (ManagerCall.give table) orders =
      fun c g => if c ∈ intList ∧ g = group then none else orders c g := by
  induction intList generalizing orders with
  | nil => simp
  | cons c rest ih =>
      rw [List.map_cons, List.foldl_cons, ih]
      funext x g
      apply place_cons fun _ => none
      intro x g
      by_cases here : x = c ∧ g = group
      · obtain ⟨rfl, rfl⟩ := here
        simp [ManagerCall.give, SubscriptionManager.Action.give]
      · simp only [ManagerCall.give, SubscriptionManager.Action.give, if_neg here, ite_self]

theorem xsod_calls (command : Command) {orders : Orders}
    (known : ∀ c g, orders c g ≠ none → c < table.size) :
    (∀ call ∈ table.xsod command, ManagerCall.Routed table call) ∧
      (table.xsod command).foldl (ManagerCall.give table) orders =
        orders.after table (.xsod command) := by
  simp only [xsod, Orders.after]
  cases command.getUnsignedList (ascii "channels") with
  | none =>
      refine ⟨fun call member => ?_, everyManager_clear known⟩
      obtain ⟨t, -, rfl⟩ := List.mem_map.mp member
      trivial
  | some intList =>
      constructor
      · intro call member
        obtain ⟨c, -, rfl⟩ := List.mem_map.mp member
        exact rfl
      · have folded := table.unsubscribe_calls ((command.getUnsigned (ascii "group")).getD 0)
          (intList.filter (· < table.size)) orders
        simp only [List.mem_filter, decide_eq_true_eq] at folded
        exact folded

theorem xsad_calls {command : Command} {news : List (Nat × Bool)} {calls : List ManagerCall}
    {quiet : Bool} (ran : table.xsad command news = some (calls, quiet)) (orders : Orders) :
    (∀ call ∈ calls, ManagerCall.Routed table call) ∧
      calls.foldl (ManagerCall.give table) orders = orders.after table (.xsad command news) := by
  obtain ⟨result, read, ran⟩ := Option.bind_eq_some_iff.mp ran
  split at ran
  · next enough =>
    cases ran
    have synced : ∀ call ∈ (if result.sync then table.everyManager .sync else []),
        ManagerCall.Routed table call := by
      intro call member
      split at member
      · obtain ⟨t, -, rfl⟩ := List.mem_map.mp member
        trivial
      · cases member
    have unchanged : (if result.sync then table.everyManager .sync else []).foldl
        (ManagerCall.give table) orders = orders := by
      split
      · exact everyManager_sync orders
      · rfl
    rw [List.foldl_append, unchanged]
    unfold Session.xsad at read
    simp only [Orders.after]
    cases listed : command.getUnsignedList (ascii "channels") with
    | none =>
        rw [listed] at read
        cases read
        rw [List.zipWith_nil_left, List.append_nil]
        exact ⟨synced, rfl⟩
    | some indexList =>
        rw [listed] at read
        obtain ⟨subscribed, collected, same⟩ := Option.bind_eq_some_iff.mp read
        cases same
        obtain ⟨routed, folded⟩ := subscribe_calls collected enough orders
        simp only [List.mem_filter, decide_eq_true_eq] at folded
        exact ⟨fun call member => (List.mem_append.mp member).elim (synced call) (routed call),
          folded⟩
  · cases ran

/-- The calls of an action do to the table what the client means. -/
theorem calls_after {quiet after : Bool} {action : OrderAction} {calls : List ManagerCall}
    (ran : table.calls quiet action = some (calls, after)) {orders : Orders}
    (known : ∀ c g, orders c g ≠ none → c < table.size) :
    (∀ call ∈ calls, ManagerCall.Routed table call) ∧
      calls.foldl (ManagerCall.give table) orders = orders.after table action := by
  cases action with
  | xsad command news => exact xsad_calls ran orders
  | xsod command =>
      cases ran
      exact xsod_calls command known
  | newSignal task signal =>
      cases ran
      exact ⟨List.forall_mem_singleton.mpr trivial, funext fun _ => funext fun _ => ite_self _⟩
  | rxPdo task tick =>
      cases ran
      exact ⟨List.forall_mem_singleton.mpr trivial, funext fun _ => funext fun _ => ite_self _⟩

end TaskTable

theorem Orders.after_known {table : TaskTable} {orders : Orders}
    (known : ∀ c g, orders c g ≠ none → c < table.size) (action : OrderAction) (c g : Nat)
    (present : orders.after table action c g ≠ none) : c < table.size := by
  cases action with
  | xsad command news =>
      simp only [Orders.after] at present
      cases listed : command.getUnsignedList (ascii "channels") with
      | none =>
          rw [listed] at present
          exact known c g present
      | some indexList =>
          rw [listed] at present
          dsimp only at present
          split at present
          · next inside => exact inside.1.2
          · exact known c g present
  | xsod command =>
      simp only [Orders.after] at present
      cases listed : command.getUnsignedList (ascii "channels") with
      | none =>
          rw [listed] at present
          exact absurd rfl present
      | some intList =>
          rw [listed] at present
          dsimp only at present
          split at present
          · exact absurd rfl present
          · exact known c g present
  | newSignal task signal => exact known c g present
  | rxPdo task tick => exact known c g present

/-! ### Every run -/

theorem OrderRun.stand {table : TaskTable} {actions : List OrderAction} {s : Streams}
    (run : OrderRun channels table actions s) :
    Stand channels table (ordered table actions) s.subscriptionManager ∧
      ∀ c g, ordered table actions c g ≠ none → c < table.size := by
  induction run with
  | start =>
      refine ⟨⟨fun _ => ⟨[], Blocks.of_empty _ _⟩, fun t c g => ?_⟩, fun c g some => absurd rfl some⟩
      simp [SubscriptionManager.standing, SignalSubscriptionMap.find?, ordered]
  | step action _ calls performs ih =>
      obtain ⟨stand, known⟩ := ih
      obtain ⟨routed, folded⟩ := TaskTable.calls_after calls known
      have next := Stand.performs performs routed stand
      rw [folded] at next
      rw [ordered, List.foldl_append]
      exact ⟨next, Orders.after_known known action⟩

/-- In every run of a session, in every order of commands, ticks and activations: what the
managers hold for a channel and a group is the last order of the client that stands, at the
manager of the channel's task and at no other. A tick can always be processed, and each
value that it prints stands in the table and is as it was ordered. -/
theorem OrderRun.orders_stand {table : TaskTable} {actions : List OrderAction} {s : Streams}
    (run : OrderRun channels table actions s) :
    (∀ t c g, (s.subscriptionManager t).standing channels c g =
      if table.task c = t then ordered table actions c g else none) ∧
    ∀ task tick, ∃ after printed,
      (s.subscriptionManager task).rxPdo channels s.quiet tick = some (after, printed) ∧
        (ordered table actions).Served printed := by
  obtain ⟨stand, -⟩ := run.stand
  refine ⟨stand.standing, fun task tick => ?_⟩
  obtain ⟨ticks, blocks⟩ := stand.blocks task
  obtain ⟨after, printed, ran, -⟩ := blocks.step (.rxPdo s.quiet tick) trivial
  refine ⟨after, printed, ran, fun element member datum inside => ?_⟩
  obtain ⟨order, standing, serves⟩ := (blocks.standing_rxPdo ran).2 element member datum inside
  refine ⟨order, ?_, serves⟩
  rw [stand.standing] at standing
  split at standing
  · exact standing
  · cases standing

/-- Two channels of two tasks. -/
def twoTasks : TaskTable where
  size := 2
  task := id
  sampleTime := everySecond.sampleTime
  positive := everySecond.positive
  tasks := 2
  inside := fun _ => id

def orderBoth : Command :=
  [(ascii "channels", some (ascii "0,1")), (ascii "reduction", some (ascii "1"))]

def takeBack : Command := [(ascii "channels", some (ascii "1"))]

/-- Both channels are ordered, the second is taken back. -/
def twoCommands : List OrderAction := [.xsad orderBoth [(0, true), (0, false)], .xsod takeBack]

theorem OrderRun.orders_stand_both :
    ∃ s, OrderRun (fun c => ⟨c, 0, 1⟩) twoTasks twoCommands s ∧
      (∀ t c g, (s.subscriptionManager t).standing (fun c => ⟨c, 0, 1⟩) c g =
        if c = t then ordered twoTasks twoCommands c g else none) ∧
      ∀ task tick, ∃ after printed,
        (s.subscriptionManager task).rxPdo (fun c => ⟨c, 0, 1⟩) s.quiet tick =
          some (after, printed) ∧ (ordered twoTasks twoCommands).Served printed := by
  have first : twoTasks.calls false (.xsad orderBoth [(0, true), (0, false)]) =
      some ([(0, .subscribe 0 0 1 1 false 16 0 true),
        (1, .subscribe 1 0 1 1 false 16 0 false)], false) := rfl
  have second : twoTasks.calls false (.xsod takeBack) = some ([(1, .unsubscribe 1 0)], false) := rfl
  have run : ∃ s, OrderRun (fun c => ⟨c, 0, 1⟩) twoTasks twoCommands s :=
    ⟨_, .step _ (.step _ .start first (.cons rfl rfl (.cons rfl rfl .nil))) second
      (.cons trivial rfl .nil)⟩
  obtain ⟨s, run⟩ := run
  exact ⟨s, run, run.orders_stand⟩

end PdServ
