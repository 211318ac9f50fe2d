import PdServ.Subscription
import PdServ.TreeUpdate
import Mathlib.Logic.Function.Basic

/-!
`MsrProto::SubscriptionManager`: the subscriptions of one session to the
channels of one task. Subscriptions live in a heap and are reached by their
address from two nested maps, `signalSubscriptionMap` and `activeSignals`. An
operation returns `none` where the program would use a deleted subscription,
delete one twice, or leave a buffer or a time array.

The connection to the real-time task stays outside: a signal may become
active inside `subscribe` or at any later `newSignal`, and a `Tick` is what
one successful `Task::rxPdo` delivers.
-/

namespace PdServ

open Std TreeUpdate

/-- One blocksize group: the subscriptions, in the order of their addresses,
and the time array they share. A fresh array is uninitialised (`none`). -/
structure SubscriptionSet where
  members : TreeSet Nat := ∅
  time : List (Option Nat) := []
  /-- `timePtr - time` -/
  timePtr : Nat := 0

/-- `DecimationCounter<SubscriptionSet>`: blocksize groups and their counter. -/
structure BlocksizeGroup where
  counter : Nat := 0
  sets : TreeMap Nat SubscriptionSet := ∅

abbrev DecimationGroup := TreeMap Nat BlocksizeGroup
abbrev ActiveSignals := TreeMap Nat DecimationGroup

/-- group → subscription -/
abbrev SubscriptionGroup := TreeMap Nat Nat
/-- channel → group → subscription -/
abbrev ChannelSubscriptionMap := TreeMap Nat SubscriptionGroup
/-- signal → channel → group → subscription -/
abbrev SignalSubscriptionMap := TreeMap Nat ChannelSubscriptionMap

abbrev Heap := Nat → Option Subscription

/-- A `<data>` element. Decimation and blocksize are not printed; they name
the group whose turn it was. -/
structure DataElement where
  group : Nat
  decimation : Nat
  blocksize : Nat
  tv_sec : Nat
  tv_nsec : Nat
  /-- The words of the `<time>` element. -/
  time : List (Option Nat)
  datums : List Datum

structure SubscriptionManager where
  heap : Heap := fun _ => none
  signalSubscriptionMap : SignalSubscriptionMap := ∅
  activeSignals : ActiveSignals := ∅
  /-- The signals this session task is subscribed to at the real-time task. -/
  subscribed : TreeSet Nat := ∅

/-- `DecimationCounter::busy`, on a `size_t` counter. -/
def BlocksizeGroup.busy (group : BlocksizeGroup) (start : Nat) :
    Bool × BlocksizeGroup :=
  let counter := if group.counter = 0 then start else group.counter
  let counter := (counter + (2 ^ 64 - 1)) % 2 ^ 64
  (counter != 0, { group with counter := counter })

/-- The set in `activeSignals[group][decimation][blocksize]`. -/
def ActiveSignals.set? (active : ActiveSignals) (group decimation blocksize : Nat) :
    Option SubscriptionSet := do
  let decimations ← active[group]?
  let blocksizes ← decimations[decimation]?
  blocksizes.sets[blocksize]?

/-- `activeSignals[group][decimation][blocksize]`, changed in place; the
levels that are missing are created. -/
def ActiveSignals.modify (active : ActiveSignals) (group decimation blocksize : Nat)
    (change : SubscriptionSet → SubscriptionSet) : ActiveSignals :=
  let decimations := active[group]?.getD ∅
  let blocksizes := decimations[decimation]?.getD {}
  let set := blocksizes.sets[blocksize]?.getD {}
  active.insert group (decimations.insert decimation
    { blocksizes with sets := blocksizes.sets.insert blocksize (change set) })

/-- The subscription in `signalSubscriptionMap[signal][channel][group]`. -/
def SignalSubscriptionMap.find? (map : SignalSubscriptionMap)
    (signal channel group : Nat) : Option Nat := do
  let channels ← map[signal]?
  let groups ← channels[channel]?
  groups[group]?

/-- `signalSubscriptionMap[signal][channel][group] = address` -/
def SignalSubscriptionMap.assign (map : SignalSubscriptionMap)
    (signal channel group address : Nat) : SignalSubscriptionMap :=
  let channels := map[signal]?.getD ∅
  let groups := channels[channel]?.getD ∅
  map.insert signal (channels.insert channel (groups.insert group address))

/-- The body of the two loops of `newSignal`: put a subscription into its
active set, with a new time array where the set is new. -/
def ActiveSignals.activate (active : ActiveSignals) (group address : Nat)
    (s : Subscription) : ActiveSignals :=
  active.modify group s.decimation s.blocksize fun set =>
    let set := if set.members.isEmpty then
        { set with time := List.replicate (entries s.blocksize) none, timePtr := 0 }
      else set
    { set with members := set.members.insert address }

/-- The end of `remove`: the address leaves its set, and every level that
becomes empty is erased. -/
def ActiveSignals.eraseFrom (active : ActiveSignals)
    (group : Nat) (decimations : DecimationGroup)
    (decimation : Nat) (blocksizes : BlocksizeGroup)
    (blocksize : Nat) (set : SubscriptionSet) (address : Nat) : ActiveSignals :=
  let members := set.members.erase address
  let sets := prune blocksizes.sets blocksize { set with members := members }
    members.isEmpty
  let decimations := prune decimations decimation { blocksizes with sets := sets }
    sets.isEmpty
  prune active group decimations decimations.isEmpty

/-- The end of `unsubscribe`: the group leaves its channel, and every level
that becomes empty is erased. Tells whether the signal is unused now. -/
def SignalSubscriptionMap.eraseFrom (map : SignalSubscriptionMap)
    (signal : Nat) (channelMap : ChannelSubscriptionMap)
    (channel : Nat) (groups : SubscriptionGroup) (group : Nat) :
    SignalSubscriptionMap × Bool :=
  let groups := groups.erase group
  let channelMap := prune channelMap channel groups groups.isEmpty
  (prune map signal channelMap channelMap.isEmpty, channelMap.isEmpty)

namespace SubscriptionManager

variable (channels : Nat → Channel)

def newSignal (m : SubscriptionManager) (signal : Nat) : Option SubscriptionManager :=
  match m.signalSubscriptionMap[signal]? with
  | none => some m
  | some channelMap => do
      let active ← forEach (fun _ groups active =>
        forEach (fun group address (active : ActiveSignals) => do
          let s ← m.heap address
          some (active.activate group address s)) groups active)
        channelMap m.activeSignals
      some { m with activeSignals := active }

def remove (m : SubscriptionManager) (address group : Nat) :
    Option SubscriptionManager :=
  match m.activeSignals[group]? with
  | none => some m
  | some decimations => do
      let s ← m.heap address
      match decimations[s.decimation]? with
      | none => some m
      | some blocksizes =>
          match blocksizes.sets[s.blocksize]? with
          | none => some m
          | some set =>
              some { m with
                heap := Function.update m.heap address none
                activeSignals := m.activeSignals.eraseFrom group decimations
                  s.decimation blocksizes s.blocksize set address }

/-- `if (*s) remove(*s, group)` -/
def removeOld (m : SubscriptionManager) (channel group : Nat) :
    Option SubscriptionManager :=
  match m.signalSubscriptionMap.find? (channels channel).signal channel group with
  | some old => m.remove old group
  | none => some m

/-- `subscribe`; `address` is what `new` returns, and `activates` tells
whether the signal calls `newSignal` at once. -/
def subscribe (m : SubscriptionManager)
    (channel group decimation blocksize : Nat) (base64 : Bool) (precision : Nat)
    (address : Nat) (activates : Bool) : Option SubscriptionManager := do
  let signal := (channels channel).signal
  let m ← m.removeOld channels channel group
  let s := Subscription.create channels channel decimation blocksize base64 precision
  let m := { m with
    heap := Function.update m.heap address (some s)
    signalSubscriptionMap :=
      m.signalSubscriptionMap.assign signal channel group address
    subscribed := m.subscribed.insert signal }
  if activates then m.newSignal signal else some m

def unsubscribe (m : SubscriptionManager) (channel group : Nat) :
    Option SubscriptionManager :=
  let signal := (channels channel).signal
  match m.signalSubscriptionMap[signal]? with
  | none => some m
  | some channelMap =>
      match channelMap[channel]? with
      | none => some m
      | some groups =>
          match groups[group]? with
          | none => some m
          | some address => do
              let m ← m.remove address group
              let (map, unused) := m.signalSubscriptionMap.eraseFrom signal
                channelMap channel groups group
              some { m with
                signalSubscriptionMap := map
                subscribed := if unused then m.subscribed.erase signal
                  else m.subscribed }

/-- `delete`, which needs a live subscription. -/
def delete (heap : Heap) (address : Nat) : Option Heap :=
  if (heap address).isSome then some (Function.update heap address none) else none

def clear (m : SubscriptionManager) : Option SubscriptionManager := do
  let (heap, subscribed) ← forEach (fun signal channelMap state =>
    forEach (fun _ groups (state : Heap × TreeSet Nat) => do
      let heap ← forEach (fun _ address heap => delete heap address) groups state.1
      some (heap, state.2.erase signal)) channelMap state)
    m.signalSubscriptionMap (m.heap, m.subscribed)
  some { m with
    heap := heap, subscribed := subscribed
    activeSignals := ∅, signalSubscriptionMap := ∅ }

/-- The first loop over a set: every subscription takes its value; those that
need printing are chained in `printQ`. -/
def takeValues (tick : Tick) (event print : Bool) :
    List Nat → Heap → Option (List Nat × Heap)
  | [], heap => some ([], heap)
  | address :: rest, heap => do
      let s ← heap address
      let (taken, s) ← s.newValue channels (tick.getValue (channels s.channel).signal)
      let (printQ, heap) ← takeValues tick event print rest
        (Function.update heap address (some s))
      some (if (taken && event) || print then address :: printQ else printQ, heap)

/-- The second loop: print every subscription of the chain. -/
def printValues : List Nat → Heap → Option (List Datum × Heap)
  | [], heap => some ([], heap)
  | address :: rest, heap => do
      let s ← heap address
      let (datum, s) ← s.print channels
      let (datums, heap) ← printValues rest (Function.update heap address (some s))
      some (datum.toList ++ datums, heap)

/-- One blocksize group in one tick. -/
def visitSet (tick : Tick) (group decimation blocksize : Nat)
    (set : SubscriptionSet) (state : Heap × List DataElement) :
    Option (SubscriptionSet × Heap × List DataElement) :=
  let (heap, out) := state
  if set.timePtr < set.time.length then do
    let time := set.time.set set.timePtr (some tick.nanoseconds)
    let timePtr := if blocksize = 0 then set.timePtr else set.timePtr + 1
    let print := blocksize != 0 && blocksize == timePtr
    let (printQ, heap) ← takeValues channels tick (blocksize == 0) print
      set.members.toList heap
    if printQ = [] then
      some ({ set with time := time, timePtr := timePtr }, heap, out)
    else if entries blocksize ≤ time.length then do
      let (datums, heap) ← printValues channels printQ heap
      let element : DataElement :=
        { group := group, decimation := decimation, blocksize := blocksize
          tv_sec := tick.tv_sec, tv_nsec := tick.tv_nsec
          time := time.take (entries blocksize), datums := datums }
      some ({ set with time := time, timePtr := 0 }, heap, out ++ [element])
    else none
  else none

/-- One decimation group in one tick. -/
def visitDecimation (tick : Tick) (group decimation : Nat)
    (blocksizes : BlocksizeGroup) (state : Heap × List DataElement) :
    Option (BlocksizeGroup × Heap × List DataElement) :=
  let (busy, blocksizes) := blocksizes.busy decimation
  if busy then some (blocksizes, state)
  else do
    let (sets, state) ← updateAll (visitSet channels tick group decimation)
      blocksizes.sets state
    some ({ blocksizes with sets := sets }, state)

/-- What `rxPdo` does after one successful `Task::rxPdo`. -/
def rxPdo (m : SubscriptionManager) (quiet : Bool) (tick : Tick) :
    Option (SubscriptionManager × List DataElement) :=
  if quiet then some (m, [])
  else do
    let (active, heap, out) ← updateAll (fun group decimations state =>
      updateAll (visitDecimation channels tick group) decimations state)
      m.activeSignals (m.heap, [])
    some ({ m with activeSignals := active, heap := heap }, out)

/-- `reset` of every member of a set. -/
def resetMembers : List Nat → Heap → Option Heap
  | [], heap => some heap
  | address :: rest, heap => do
      let s ← heap address
      resetMembers rest (Function.update heap address (some s.reset))

/-- One blocksize group in `sync`. -/
def resetSet (_ : Nat) (set : SubscriptionSet) (heap : Heap) :
    Option (SubscriptionSet × Heap) := do
  let heap ← resetMembers set.members.toList heap
  some ({ set with timePtr := 0 }, heap)

/-- One decimation group in `sync`; the counter goes on. -/
def resetDecimation (_ : Nat) (blocksizes : BlocksizeGroup) (heap : Heap) :
    Option (BlocksizeGroup × Heap) := do
  let (sets, heap) ← updateAll resetSet blocksizes.sets heap
  some ({ blocksizes with sets := sets }, heap)

def sync (m : SubscriptionManager) : Option SubscriptionManager := do
  let (active, heap) ← updateAll (fun _ decimations heap =>
    updateAll resetDecimation decimations heap) m.activeSignals m.heap
  some { m with activeSignals := active, heap := heap }

/-- What can happen to a manager. -/
inductive Action where
  | subscribe (channel group decimation blocksize : Nat) (base64 : Bool)
      (precision address : Nat) (activates : Bool)
  | unsubscribe (channel group : Nat)
  | clear
  | sync
  | newSignal (signal : Nat)
  | rxPdo (quiet : Bool) (tick : Tick)

def step (m : SubscriptionManager) :
    Action → Option (SubscriptionManager × List DataElement)
  | .subscribe channel group decimation blocksize base64 precision address activates =>
      (m.subscribe channels channel group decimation blocksize base64 precision
        address activates).map (·, [])
  | .unsubscribe channel group => (m.unsubscribe channels channel group).map (·, [])
  | .clear => m.clear.map (·, [])
  | .sync => m.sync.map (·, [])
  | .newSignal signal => (m.newSignal signal).map (·, [])
  | .rxPdo quiet tick => m.rxPdo channels quiet tick

/-- `new` never returns memory that is still in use. -/
def Allowed (m : SubscriptionManager) : Action → Prop
  | .subscribe _ _ _ _ _ _ address _ => m.heap address = none
  | _ => True

end SubscriptionManager

/-- The ticks of a run that are processed, in order. -/
def processed : List SubscriptionManager.Action → List Tick
  | [] => []
  | .rxPdo false tick :: rest => tick :: processed rest
  | _ :: rest => processed rest

/-- A run from a new manager, with everything it has printed. -/
inductive ManagerRun (channels : Nat → Channel) :
    List SubscriptionManager.Action → SubscriptionManager → List DataElement → Prop
  | start : ManagerRun channels [] {} []
  | step {actions m out} (action : SubscriptionManager.Action) {after printed} :
      ManagerRun channels actions m out → m.Allowed action →
      m.step channels action = some (after, printed) →
      ManagerRun channels (actions ++ [action]) after (out ++ printed)

end PdServ
