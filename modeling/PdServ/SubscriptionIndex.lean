import PdServ.SubscriptionRuns

/-!
The two indexes of a manager beside each other. Both name a subscription by its
group, `signalSubscriptionMap` under its channel and `activeSignals` under its
decimation and block size. `Blocks` has the entries agree; here the levels of the
maps are followed, none of which is ever left empty.
-/

namespace PdServ

open Std TreeUpdate

/-- No level of a decimation group is empty. -/
def DecimationGroup.Tidy (decimations : DecimationGroup) : Prop :=
  decimations.isEmpty = false ∧
    ∀ (d : Nat) blocksizes, decimations[d]? = some blocksizes → blocksizes.sets.isEmpty = false

def ActiveSignals.Tidy (active : ActiveSignals) : Prop :=
  ∀ (g : Nat) decimations, active[g]? = some decimations → DecimationGroup.Tidy decimations

def ChannelSubscriptionMap.Tidy (channelMap : ChannelSubscriptionMap) : Prop :=
  channelMap.isEmpty = false ∧
    ∀ (c : Nat) groups, channelMap[c]? = some groups → groups.isEmpty = false

def SignalSubscriptionMap.Tidy (map : SignalSubscriptionMap) : Prop :=
  ∀ (s : Nat) channelMap, map[s]? = some channelMap → ChannelSubscriptionMap.Tidy channelMap

/-- What the operations keep besides `Blocks`. -/
structure SubscriptionManager.Tidy (m : SubscriptionManager) : Prop where
  active : m.activeSignals.Tidy
  registry : m.signalSubscriptionMap.Tidy
  subscribed : ∀ signal, signal ∈ m.subscribed ↔ signal ∈ m.signalSubscriptionMap

variable {channels : Nat → Channel}

/-! ### The active signals -/

theorem ActiveSignals.Tidy.of_empty : (∅ : ActiveSignals).Tidy := by
  intro g decimations found
  simp at found

theorem ActiveSignals.Tidy.modify {active : ActiveSignals} (tidy : active.Tidy)
    (group decimation blocksize : Nat) (change : SubscriptionSet → SubscriptionSet) :
    (active.modify group decimation blocksize change).Tidy := by
  intro g decimations found
  unfold ActiveSignals.modify at found
  by_cases here : group = g
  · subst here
    rw [getElem?_insert_self] at found
    cases found
    constructor
    · exact TreeMap.isEmpty_insert
    · intro d blocksizes inner
      by_cases same : decimation = d
      · subst same
        rw [getElem?_insert_self] at inner
        cases inner
        exact TreeMap.isEmpty_insert
      · rw [getElem?_insert_other _ _ same] at inner
        cases old : active[group]? with
        | none => simp [old] at inner
        | some decimations =>
            rw [old] at inner
            exact (tidy group decimations old).2 d blocksizes inner
  · rw [getElem?_insert_other _ _ here] at found
    exact tidy g decimations found

theorem ActiveSignals.Tidy.activate {active : ActiveSignals} (tidy : active.Tidy)
    (group address : Nat) (s : Subscription) : (active.activate group address s).Tidy :=
  tidy.modify group s.decimation s.blocksize _

/-- What a level is pruned with is either not empty or not kept. -/
theorem not_empty_of_prune {Inner : Type} {map : TreeMap Nat Inner} {key other : Nat}
    {inner found : Inner} (isEmpty : Inner → Bool)
    (others : ∀ value, map[other]? = some value → isEmpty value = false)
    (kept : (prune map key inner (isEmpty inner))[other]? = some found) :
    isEmpty found = false := by
  by_cases here : key = other
  · subst here
    rw [getElem?_prune_self] at kept
    cases empty : isEmpty inner with
    | true => simp [empty] at kept
    | false =>
        rw [empty] at kept
        cases kept
        exact empty
  · rw [getElem?_prune_other map inner _ here] at kept
    exact others found kept

theorem ActiveSignals.Tidy.eraseFrom {active : ActiveSignals} (tidy : active.Tidy)
    {group : Nat} {decimations : DecimationGroup} {decimation : Nat} {blocksizes : BlocksizeGroup}
    (first : active[group]? = some decimations) (blocksize : Nat) (set : SubscriptionSet)
    (address : Nat) :
    (active.eraseFrom group decimations decimation blocksizes blocksize set address).Tidy := by
  intro g found kept
  constructor
  · exact not_empty_of_prune TreeMap.isEmpty
      (fun value old => (tidy g value old).1) kept
  · intro d inner stored
    by_cases here : group = g
    · subst here
      unfold ActiveSignals.eraseFrom at kept
      simp only [getElem?_prune_self] at kept
      split at kept
      · cases kept
      · cases kept
        exact not_empty_of_prune (fun group : BlocksizeGroup => group.sets.isEmpty)
          (fun value old => (tidy group decimations first).2 d value old) stored
    · unfold ActiveSignals.eraseFrom at kept
      simp only [getElem?_prune_other _ _ _ here] at kept
      exact (tidy g found kept).2 d inner stored

/-- A loop over the active signals that keeps the block sizes of each group. -/
theorem ActiveSignals.Tidy.updateAll {State : Type} {active after : ActiveSignals}
    (tidy : active.Tidy)
    {visit : Nat → Nat → BlocksizeGroup → State → Option (BlocksizeGroup × State)}
    (keeps : ∀ g d blocksizes state blocksizes' state',
      visit g d blocksizes state = some (blocksizes', state') →
      blocksizes'.sets.isEmpty = blocksizes.sets.isEmpty) {state state' : State}
    (ran : TreeUpdate.updateAll (fun g decimations state =>
      TreeUpdate.updateAll (visit g) decimations state) active state = some (after, state')) :
    after.Tidy := by
  intro g decimations' found
  obtain ⟨decimations, before, later, old, inner⟩ := (updateAll_image ran).2 g decimations' found
  obtain ⟨keys, images⟩ := updateAll_image inner
  obtain ⟨some, others⟩ := tidy g decimations old
  constructor
  · rw [isEmpty_of_keys keys]
    exact some
  · intro d blocksizes' stored
    obtain ⟨blocksizes, before, later, first, visited⟩ := images d blocksizes' stored
    rw [keeps g d blocksizes before blocksizes' later visited]
    exact others d blocksizes first

/-! ### The registry -/

theorem SignalSubscriptionMap.Tidy.assign {map : SignalSubscriptionMap} (tidy : map.Tidy)
    (signal channel group address : Nat) : (map.assign signal channel group address).Tidy := by
  intro s found kept
  unfold SignalSubscriptionMap.assign at kept
  by_cases here : signal = s
  · subst here
    rw [getElem?_insert_self] at kept
    cases kept
    constructor
    · exact TreeMap.isEmpty_insert
    · intro c groups inner
      by_cases same : channel = c
      · subst same
        rw [getElem?_insert_self] at inner
        cases inner
        exact TreeMap.isEmpty_insert
      · rw [getElem?_insert_other _ _ same] at inner
        cases old : map[signal]? with
        | none => simp [old] at inner
        | some channelMap =>
            rw [old] at inner
            exact (tidy signal channelMap old).2 c groups inner
  · rw [getElem?_insert_other _ _ here] at kept
    exact tidy s found kept

theorem SignalSubscriptionMap.Tidy.eraseFrom {map : SignalSubscriptionMap} (tidy : map.Tidy)
    {signal : Nat} {channelMap : ChannelSubscriptionMap} (first : map[signal]? = some channelMap)
    (channel : Nat) (groups : SubscriptionGroup) (group : Nat) :
    (map.eraseFrom signal channelMap channel groups group).1.Tidy := by
  intro s found kept
  constructor
  · exact not_empty_of_prune TreeMap.isEmpty (fun value old => (tidy s value old).1) kept
  · intro c inner stored
    by_cases here : signal = s
    · subst here
      unfold SignalSubscriptionMap.eraseFrom at kept
      simp only [getElem?_prune_self] at kept
      split at kept
      · cases kept
      · cases kept
        exact not_empty_of_prune TreeMap.isEmpty
          (fun value old => (tidy signal channelMap first).2 c value old) stored
    · unfold SignalSubscriptionMap.eraseFrom at kept
      simp only [getElem?_prune_other _ _ _ here] at kept
      exact (tidy s found kept).2 c inner stored

/-- The flag tells whether the signal has left the map. -/
theorem SignalSubscriptionMap.mem_eraseFrom {map : SignalSubscriptionMap} {signal : Nat}
    {channelMap : ChannelSubscriptionMap} (first : map[signal]? = some channelMap)
    (channel : Nat) (groups : SubscriptionGroup) (group s : Nat) :
    s ∈ (map.eraseFrom signal channelMap channel groups group).1 ↔
      s ∈ map ∧ ¬ (s = signal ∧
        (map.eraseFrom signal channelMap channel groups group).2 = true) := by
  rw [TreeMap.mem_iff_isSome_getElem?, TreeMap.mem_iff_isSome_getElem?]
  unfold SignalSubscriptionMap.eraseFrom
  by_cases here : signal = s
  · subst here
    dsimp only
    rw [getElem?_prune_self, first]
    generalize prune channelMap channel (groups.erase group) (groups.erase group).isEmpty = left
    cases left.isEmpty with
    | true => simp
    | false => simp
  · rw [getElem?_prune_other _ _ _ here]
    simp [Ne.symm here]

namespace SubscriptionManager.Tidy

variable {m after : SubscriptionManager}

theorem newSignal (tidy : m.Tidy) (signal : Nat) (ran : m.newSignal signal = some after) :
    after.Tidy := by
  unfold SubscriptionManager.newSignal at ran
  cases known : m.signalSubscriptionMap[signal]? with
  | none =>
      rw [known] at ran
      cases ran
      exact tidy
  | some channelMap =>
      rw [known] at ran
      obtain ⟨active, loop, same⟩ := Option.bind_eq_some_iff.mp ran
      cases same
      refine ⟨?_, tidy.registry, tidy.subscribed⟩
      refine forEach_keeps ActiveSignals.Tidy ?_ loop tidy.active
      intro c groups before later _ inner held
      refine forEach_keeps ActiveSignals.Tidy ?_ inner held
      intro group address before later _ body held
      obtain ⟨s, -, same⟩ := Option.bind_eq_some_iff.mp body
      cases same
      exact held.activate group address s

theorem remove (tidy : m.Tidy) {address group : Nat} (ran : m.remove address group = some after) :
    after.Tidy ∧ after.signalSubscriptionMap = m.signalSubscriptionMap ∧
      after.subscribed = m.subscribed := by
  unfold SubscriptionManager.remove at ran
  split at ran
  · cases ran
    exact ⟨tidy, rfl, rfl⟩
  · rename_i decimations first
    obtain ⟨s, -, inner⟩ := Option.bind_eq_some_iff.mp ran
    split at inner
    · cases inner
      exact ⟨tidy, rfl, rfl⟩
    · split at inner
      · cases inner
        exact ⟨tidy, rfl, rfl⟩
      · cases inner
        refine ⟨⟨?_, tidy.registry, tidy.subscribed⟩, rfl, rfl⟩
        exact tidy.active.eraseFrom first _ _ address

theorem unsubscribe (tidy : m.Tidy) {channel group : Nat}
    (ran : m.unsubscribe channels channel group = some after) : after.Tidy := by
  unfold SubscriptionManager.unsubscribe at ran
  dsimp only at ran
  split at ran
  · cases ran
    exact tidy
  · rename_i channelMap first
    split at ran
    · cases ran
      exact tidy
    · rename_i groups second
      split at ran
      · cases ran
        exact tidy
      · rename_i address _
        obtain ⟨middle, removed, same⟩ := Option.bind_eq_some_iff.mp ran
        obtain ⟨still, registry, subscribed⟩ := tidy.remove removed
        cases same
        rw [registry, subscribed]
        refine ⟨still.active, tidy.registry.eraseFrom first channel groups group, ?_⟩
        intro s
        dsimp only
        rw [SignalSubscriptionMap.mem_eraseFrom first, ← tidy.subscribed s]
        cases (m.signalSubscriptionMap.eraseFrom (channels channel).signal channelMap channel
          groups group).2 with
        | false => simp
        | true =>
            rw [if_pos rfl, TreeSet.mem_erase, ne_eq, Nat.compare_eq_eq]
            constructor
            · rintro ⟨other, listed⟩
              exact ⟨listed, fun same => other same.1.symm⟩
            · rintro ⟨listed, other⟩
              exact ⟨fun same => other ⟨same.symm, rfl⟩, listed⟩

theorem subscribe (tidy : m.Tidy) {channel group decimation blocksize : Nat} {base64 : Bool}
    {precision address : Nat} {activates : Bool}
    (ran : m.subscribe channels channel group decimation blocksize base64 precision address
      activates = some after) : after.Tidy := by
  obtain ⟨middle, removed, created⟩ := Option.bind_eq_some_iff.mp ran
  have kept : middle.Tidy ∧ middle.signalSubscriptionMap = m.signalSubscriptionMap ∧
      middle.subscribed = m.subscribed := by
    unfold SubscriptionManager.removeOld at removed
    split at removed
    · exact tidy.remove removed
    · cases removed
      exact ⟨tidy, rfl, rfl⟩
  obtain ⟨still, registry, subscribed⟩ := kept
  have registered : SubscriptionManager.Tidy
      { middle with
        heap := Function.update middle.heap address (some
          (Subscription.create channels channel decimation blocksize base64 precision))
        signalSubscriptionMap := middle.signalSubscriptionMap.assign (channels channel).signal
          channel group address
        subscribed := middle.subscribed.insert (channels channel).signal } := by
    refine ⟨still.active, still.registry.assign _ channel group address, ?_⟩
    intro s
    unfold SignalSubscriptionMap.assign
    rw [TreeSet.mem_insert, TreeMap.mem_insert, still.subscribed s]
  dsimp only at created
  split at created
  · exact registered.newSignal _ created
  · cases created
    exact registered

theorem rxPdo (tidy : m.Tidy) {quiet : Bool} {tick : Tick} {printed : List DataElement}
    (ran : m.rxPdo channels quiet tick = some (after, printed)) : after.Tidy := by
  unfold SubscriptionManager.rxPdo at ran
  split at ran
  · cases ran
    exact tidy
  · obtain ⟨⟨active, heap, out⟩, loop, same⟩ := Option.bind_eq_some_iff.mp ran
    cases same
    refine ⟨tidy.active.updateAll ?_ loop, tidy.registry, tidy.subscribed⟩
    intro g d blocksizes state blocksizes' state' visited
    -- the counter moves, the sets are those of the group
    obtain ⟨counter, counted⟩ : ∃ counter, (blocksizes.busy d).2 = ⟨counter, blocksizes.sets⟩ :=
      ⟨_, rfl⟩
    unfold visitDecimation at visited
    by_cases waits : (blocksizes.busy d).1 = true
    · simp only [waits, if_true, counted, Option.some.injEq, Prod.mk.injEq] at visited
      rw [← visited.1]
    · simp only [waits, Bool.false_eq_true, if_false, counted] at visited
      obtain ⟨⟨sets, state⟩, inner, same⟩ := Option.bind_eq_some_iff.mp visited
      cases same
      exact isEmpty_of_keys (updateAll_image inner).1

theorem sync (tidy : m.Tidy) (ran : m.sync = some after) : after.Tidy := by
  obtain ⟨⟨active, heap⟩, loop, same⟩ := Option.bind_eq_some_iff.mp ran
  cases same
  refine ⟨tidy.active.updateAll ?_ loop, tidy.registry, tidy.subscribed⟩
  intro g d blocksizes state blocksizes' state' visited
  obtain ⟨⟨sets, state⟩, inner, same⟩ := Option.bind_eq_some_iff.mp visited
  cases same
  exact isEmpty_of_keys (updateAll_image inner).1

/-- One signal in `clear`: it is given up, at each of its channels, and no other
is taken up. -/
theorem clear_signal {signal : Nat} {channelMap : ChannelSubscriptionMap}
    (some : channelMap.isEmpty = false) {state after : Heap × TreeSet Nat}
    (ran : forEach (fun _ groups (state : Heap × TreeSet Nat) => do
      let heap ← forEach (fun _ address heap => delete heap address) groups state.1
      Option.some (heap, state.2.erase signal)) channelMap state = Option.some after) :
    signal ∉ after.2 ∧ ∀ other ∉ state.2, other ∉ after.2 := by
  have channel : ∀ (groups : SubscriptionGroup) (state after : Heap × TreeSet Nat),
      (do
        let heap ← forEach (fun _ address heap => delete heap address) groups state.1
        Option.some (heap, state.2.erase signal)) = Option.some after →
      after.2 = state.2.erase signal := by
    intro groups state after visited
    obtain ⟨heap, -, same⟩ := Option.bind_eq_some_iff.mp visited
    cases same
    rfl
  have erased : ∀ (set : TreeSet Nat) (other : Nat), other ∉ set → other ∉ set.erase signal := by
    intro set other outside listed
    exact outside (TreeSet.mem_of_mem_erase listed)
  constructor
  · obtain ⟨c, listed⟩ : ∃ c, c ∈ channelMap := by
      rw [TreeMap.isEmpty_eq_false_iff_exists_mem] at some
      exact some
    refine forEach_marks (fun _ (state : Heap × TreeSet Nat) => signal ∉ state.2) ?_ ?_ ran c listed
    · intro c groups before later _ visited
      rw [channel groups before later visited]
      simp
    · intro _ c groups before later _ visited outside
      rw [channel groups before later visited]
      exact erased before.2 signal outside
  · intro other outside
    refine forEach_keeps (fun state : Heap × TreeSet Nat => other ∉ state.2) ?_ ran outside
    intro c groups before later _ visited outside
    rw [channel groups before later visited]
    exact erased before.2 other outside

theorem clear (tidy : m.Tidy) (ran : m.clear = some after) : after.Tidy := by
  obtain ⟨⟨heap, subscribed⟩, loop, same⟩ := Option.bind_eq_some_iff.mp ran
  cases same
  refine ⟨.of_empty, fun s channelMap found => by simp at found, ?_⟩
  intro signal
  have gone : signal ∉ subscribed := by
    intro listed
    -- it was subscribed before, so it is in the registry, and its visit gave it up
    have before : signal ∈ m.subscribed := by
      by_contra outside
      have still := forEach_keeps (fun state : Heap × TreeSet Nat => signal ∉ state.2)
        (fun s channelMap before later found visited =>
          (clear_signal (tidy.registry s channelMap found).1 visited).2 signal)
        loop outside
      exact still listed
    have given_up := forEach_marks (fun s (state : Heap × TreeSet Nat) => s ∉ state.2)
      (fun s channelMap before later found visited =>
        (clear_signal (tidy.registry s channelMap found).1 visited).1)
      (fun other s channelMap before later found visited =>
        (clear_signal (tidy.registry s channelMap found).1 visited).2 other)
      loop signal ((tidy.subscribed signal).mp before)
    exact given_up listed
  simp [gone]

theorem step (tidy : m.Tidy) {action : Action} {printed : List DataElement}
    (ran : m.step channels action = some (after, printed)) : after.Tidy := by
  cases action with
  | subscribe channel group decimation blocksize base64 precision address activates =>
      obtain ⟨result, operated, same⟩ := Option.map_eq_some_iff.mp ran
      cases same
      exact tidy.subscribe operated
  | unsubscribe channel group =>
      obtain ⟨result, operated, same⟩ := Option.map_eq_some_iff.mp ran
      cases same
      exact tidy.unsubscribe operated
  | clear =>
      obtain ⟨result, operated, same⟩ := Option.map_eq_some_iff.mp ran
      cases same
      exact tidy.clear operated
  | sync =>
      obtain ⟨result, operated, same⟩ := Option.map_eq_some_iff.mp ran
      cases same
      exact tidy.sync operated
  | newSignal signal =>
      obtain ⟨result, operated, same⟩ := Option.map_eq_some_iff.mp ran
      cases same
      exact tidy.newSignal signal operated
  | rxPdo quiet tick => exact tidy.rxPdo ran

end SubscriptionManager.Tidy

/-! ### Whole runs -/

theorem ManagerRun.tidy {actions : List SubscriptionManager.Action} {m : SubscriptionManager}
    {out : List DataElement} (run : ManagerRun channels actions m out) : m.Tidy := by
  induction run with
  | start =>
      refine ⟨.of_empty, fun s channelMap found => by simp at found, fun signal => ?_⟩
      simp
  | step action _ _ ran ih => exact ih.step ran

/-- After any run: an active subscription is the one registered for its channel
and group, alive, and in the set of its own decimation and block size; no level
of either index is empty, and every time pointer is inside its time array; and
exactly the signals of the registry are subscribed. -/
theorem ManagerRun.indexes_agree {actions : List SubscriptionManager.Action}
    {m : SubscriptionManager} {out : List DataElement}
    (run : ManagerRun channels actions m out) :
    (∀ (g d b : Nat) decimations blocksizes set a, m.activeSignals[g]? = some decimations →
      decimations[d]? = some blocksizes → blocksizes.sets[b]? = some set → a ∈ set.members →
      ∃ s, m.heap a = some s ∧ s.decimation = d ∧ s.blocksize = b ∧
        m.signalSubscriptionMap.find? (channels s.channel).signal s.channel g = some a) ∧
    (∀ (g : Nat) decimations, m.activeSignals[g]? = some decimations →
      decimations.isEmpty = false ∧
      ∀ (d : Nat) blocksizes, decimations[d]? = some blocksizes →
        blocksizes.sets.isEmpty = false ∧
        ∀ (b : Nat) set, blocksizes.sets[b]? = some set →
          set.members.isEmpty = false ∧ set.time.length = entries b ∧
            set.timePtr < set.time.length) ∧
    (∀ (signal : Nat) channelMap, m.signalSubscriptionMap[signal]? = some channelMap →
      channelMap.isEmpty = false ∧
      ∀ (c : Nat) groups, channelMap[c]? = some groups → groups.isEmpty = false) ∧
    ∀ signal, signal ∈ m.subscribed ↔ signal ∈ m.signalSubscriptionMap := by
  have tidy := run.tidy
  obtain ⟨blocks, -⟩ := run.blocks
  refine ⟨?_, ?_, tidy.registry, tidy.subscribed⟩
  · intro g d b decimations blocksizes set a first second third member
    have owns : m.activeSignals.Owns g d b a :=
      ⟨set, ActiveSignals.set?_eq_some.mpr ⟨decimations, first, blocksizes, second, third⟩, member⟩
    obtain ⟨s, live, rate, size⟩ := blocks.member owns
    obtain ⟨signal, channel, found⟩ := blocks.registered owns
    obtain ⟨other, live', same⟩ := blocks.live found
    rw [live] at live'
    cases live'
    refine ⟨s, live, rate, size, ?_⟩
    rw [same, ← blocks.keyed found]
    exact found
  · intro g decimations first
    refine ⟨(tidy.active g decimations first).1, ?_⟩
    intro d blocksizes second
    refine ⟨(tidy.active g decimations first).2 d blocksizes second, ?_⟩
    intro b set third
    have filled := blocks.filled g d b set
      (ActiveSignals.set?_eq_some.mpr ⟨decimations, first, blocksizes, second, third⟩)
    refine ⟨filled.nonempty, filled.time_length, ?_⟩
    rw [filled.time_length]
    exact filled.room

/-- Channel 0 is subscribed, activated late, and subscribed anew with another
decimation and block size; channel 1 of the same signal comes and goes. The active
entry is that of the new order. -/
theorem ManagerRun.indexes_agree_resubscribed :
    ∃ m out, ManagerRun (fun _ => ⟨4, 0, 1⟩)
        [.subscribe 0 1 1 2 false 16 0 false, .newSignal 4, .subscribe 1 1 1 2 false 16 1 true,
          .subscribe 0 1 3 5 false 16 2 true, .unsubscribe 1 1] m out ∧
      (∃ decimations blocksizes set, m.activeSignals[1]? = some decimations ∧
        decimations[3]? = some blocksizes ∧ blocksizes.sets[5]? = some set ∧ 2 ∈ set.members ∧
        (∃ s, m.heap 2 = some s ∧ s.decimation = 3 ∧ s.blocksize = 5 ∧
          m.signalSubscriptionMap.find? 4 s.channel 1 = some 2) ∧
        decimations.isEmpty = false ∧ blocksizes.sets.isEmpty = false ∧
        set.members.isEmpty = false ∧ set.time.length = 5 ∧ set.timePtr < set.time.length) ∧
      ∀ signal, signal ∈ m.subscribed ↔ signal ∈ m.signalSubscriptionMap := by
  have run : ∃ m out, ManagerRun (fun _ => ⟨4, 0, 1⟩)
      [.subscribe 0 1 1 2 false 16 0 false, .newSignal 4, .subscribe 1 1 1 2 false 16 1 true,
        .subscribe 0 1 3 5 false 16 2 true, .unsubscribe 1 1] m out ∧
      (m.activeSignals.set? 1 3 5).any (fun set => set.members.contains 2) = true :=
    ⟨_, _, .step (.unsubscribe 1 1)
      (.step (.subscribe 0 1 3 5 false 16 2 true)
        (.step (.subscribe 1 1 1 2 false 16 1 true)
          (.step (.newSignal 4) (.step (.subscribe 0 1 1 2 false 16 0 false) .start rfl rfl)
            trivial (by rfl))
          (by rfl) (by rfl))
        (by rfl) (by rfl))
      trivial (by rfl), by rfl⟩
  obtain ⟨m, out, run, active⟩ := run
  obtain ⟨reached, levels, -, registry⟩ := run.indexes_agree
  obtain ⟨set, found, member⟩ := (Option.any_eq_true _ _).mp active
  obtain ⟨decimations, first, blocksizes, second, third⟩ := ActiveSignals.set?_eq_some.mp found
  have member : 2 ∈ set.members := TreeSet.mem_iff_contains.mpr member
  obtain ⟨some_decimation, inside⟩ := levels 1 decimations first
  obtain ⟨some_blocksize, inside⟩ := inside 3 blocksizes second
  obtain ⟨some_member, length, pointer⟩ := inside 5 set third
  exact ⟨m, out, run, ⟨decimations, blocksizes, set, first, second, third, member,
    reached 1 3 5 decimations blocksizes set 2 first second third member,
    some_decimation, some_blocksize, some_member, length, pointer⟩, registry⟩

end PdServ
