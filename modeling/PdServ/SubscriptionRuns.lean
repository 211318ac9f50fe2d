import PdServ.SubscriptionBlocks

/-!
Whole runs of a subscription manager. `Blocks` is what holds between two
actions: every active set is filled coherently, its members are registered
subscriptions of its group, and a registered subscription that is not active
yet is empty. Each action keeps it and cannot fail.
-/

namespace PdServ

open Std TreeUpdate

variable {channels : Nat → Channel}

/-- The subscription at `address` is reached through
`activeSignals[group][decimation][blocksize]`. -/
def ActiveSignals.Owns (active : ActiveSignals)
    (group decimation blocksize address : Nat) : Prop :=
  ∃ set, active.set? group decimation blocksize = some set ∧ address ∈ set.members

def DecimationGroup.Owns (decimations : DecimationGroup)
    (decimation blocksize address : Nat) : Prop :=
  ∃ blocksizes, decimations[decimation]? = some blocksizes ∧
    ∃ set, blocksizes.sets[blocksize]? = some set ∧ address ∈ set.members

theorem ActiveSignals.set?_eq_some {active : ActiveSignals}
    {group decimation blocksize : Nat} {set : SubscriptionSet} :
    active.set? group decimation blocksize = some set ↔
      ∃ decimations, active[group]? = some decimations ∧
        ∃ blocksizes, decimations[decimation]? = some blocksizes ∧
          blocksizes.sets[blocksize]? = some set := by
  simp only [ActiveSignals.set?, Option.bind_eq_bind, Option.bind_eq_some_iff]

theorem ActiveSignals.owns_iff {active : ActiveSignals}
    {group decimation blocksize address : Nat} :
    active.Owns group decimation blocksize address ↔
      ∃ decimations, active[group]? = some decimations ∧
        DecimationGroup.Owns decimations decimation blocksize address := by
  constructor
  · rintro ⟨set, found, member⟩
    obtain ⟨decimations, first, blocksizes, second, third⟩ := set?_eq_some.mp found
    exact ⟨decimations, first, blocksizes, second, set, third, member⟩
  · rintro ⟨decimations, first, blocksizes, second, set, third, member⟩
    exact ⟨set, set?_eq_some.mpr ⟨decimations, first, blocksizes, second, third⟩, member⟩

theorem ActiveSignals.set?_modify (active : ActiveSignals)
    (group decimation blocksize : Nat) (change : SubscriptionSet → SubscriptionSet)
    (g d b : Nat) :
    (active.modify group decimation blocksize change).set? g d b =
      if group = g ∧ decimation = d ∧ blocksize = b then
        some (change ((active.set? group decimation blocksize).getD {}))
      else active.set? g d b := by
  unfold ActiveSignals.modify ActiveSignals.set?
  by_cases hg : group = g
  · subst hg
    simp only [getElem?_insert_self, Option.bind_eq_bind, Option.bind_some, true_and]
    by_cases hd : decimation = d
    · subst hd
      simp only [getElem?_insert_self, Option.bind_some, true_and]
      by_cases hb : blocksize = b
      · subst hb
        rw [getElem?_insert_self, if_pos rfl]
        cases active[group]? with
        | none => simp
        | some decimations =>
            cases known : decimations[decimation]? with
            | none => simp [known]
            | some blocksizes => simp [known]
      · rw [getElem?_insert_other _ _ hb, if_neg hb]
        cases active[group]? with
        | none => simp
        | some decimations =>
            cases known : decimations[decimation]? with
            | none => simp [known]
            | some blocksizes => simp [known]
    · rw [getElem?_insert_other _ _ hd, if_neg (by simp [hd])]
      cases active[group]? with
      | none => simp
      | some decimations => simp
  · rw [getElem?_insert_other _ _ hg, if_neg (by simp [hg])]

theorem ActiveSignals.set?_eraseFrom {active : ActiveSignals}
    {group : Nat} {decimations : DecimationGroup}
    {decimation : Nat} {blocksizes : BlocksizeGroup}
    (blocksize : Nat) (set : SubscriptionSet) (address : Nat)
    (first : active[group]? = some decimations)
    (second : decimations[decimation]? = some blocksizes) (g d b : Nat) :
    (active.eraseFrom group decimations decimation blocksizes blocksize set
        address).set? g d b =
      if group = g ∧ decimation = d ∧ blocksize = b then
        if (set.members.erase address).isEmpty then none
        else some { set with members := set.members.erase address }
      else active.set? g d b := by
  unfold ActiveSignals.eraseFrom ActiveSignals.set?
  simp only [Option.bind_eq_bind]
  rw [bind_prune active group g]
  · by_cases hg : group = g
    · subst hg
      rw [if_pos rfl, first, bind_prune decimations decimation d]
      · by_cases hd : decimation = d
        · subst hd
          rw [if_pos rfl]
          by_cases hb : blocksize = b
          · subst hb
            simp [getElem?_prune_self]
          · rw [getElem?_prune_other _ _ _ hb, if_neg (by simp [hb])]
            simp [second]
        · rw [if_neg hd, if_neg (by simp [hd])]
          rfl
      · intro empty
        exact TreeMap.getElem?_of_isEmpty empty
    · rw [if_neg hg, if_neg (by simp [hg])]
  · intro empty
    rw [TreeMap.getElem?_of_isEmpty empty]
    rfl

theorem SignalSubscriptionMap.find?_eq_some {map : SignalSubscriptionMap}
    {signal channel group address : Nat} :
    map.find? signal channel group = some address ↔
      ∃ channelMap, map[signal]? = some channelMap ∧
        ∃ groups, channelMap[channel]? = some groups ∧
          groups[group]? = some address := by
  simp only [SignalSubscriptionMap.find?, Option.bind_eq_bind, Option.bind_eq_some_iff]

theorem SignalSubscriptionMap.find?_assign (map : SignalSubscriptionMap)
    (signal channel group address s c g : Nat) :
    (map.assign signal channel group address).find? s c g =
      if signal = s ∧ channel = c ∧ group = g then some address
      else map.find? s c g := by
  unfold SignalSubscriptionMap.assign SignalSubscriptionMap.find?
  by_cases hs : signal = s
  · subst hs
    simp only [getElem?_insert_self, Option.bind_eq_bind, Option.bind_some, true_and]
    by_cases hc : channel = c
    · subst hc
      simp only [getElem?_insert_self, Option.bind_some, true_and]
      by_cases hg : group = g
      · subst hg
        rw [getElem?_insert_self, if_pos rfl]
      · rw [getElem?_insert_other _ _ hg, if_neg hg]
        cases map[signal]? with
        | none => simp
        | some channelMap =>
            cases known : channelMap[channel]? with
            | none => simp [known]
            | some groups => simp [known]
    · rw [getElem?_insert_other _ _ hc, if_neg (by simp [hc])]
      cases map[signal]? with
      | none => simp
      | some channelMap => simp
  · rw [getElem?_insert_other _ _ hs, if_neg (by simp [hs])]

theorem SignalSubscriptionMap.find?_eraseFrom {map : SignalSubscriptionMap}
    {signal : Nat} {channelMap : ChannelSubscriptionMap}
    {channel : Nat} {groups : SubscriptionGroup} (group : Nat)
    (first : map[signal]? = some channelMap)
    (second : channelMap[channel]? = some groups) (s c g : Nat) :
    (map.eraseFrom signal channelMap channel groups group).1.find? s c g =
      if signal = s ∧ channel = c ∧ group = g then none else map.find? s c g := by
  unfold SignalSubscriptionMap.eraseFrom SignalSubscriptionMap.find?
  simp only [Option.bind_eq_bind]
  rw [bind_prune map signal s]
  · by_cases hs : signal = s
    · subst hs
      rw [if_pos rfl, first, bind_prune channelMap channel c]
      · by_cases hc : channel = c
        · subst hc
          rw [if_pos rfl]
          by_cases hg : group = g
          · subst hg
            simp
          · rw [getElem?_erase_other _ hg, if_neg (by simp [hg])]
            simp [second]
        · rw [if_neg hc, if_neg (by simp [hc])]
          rfl
      · intro empty
        exact TreeMap.getElem?_of_isEmpty empty
    · rw [if_neg hs, if_neg (by simp [hs])]
  · intro empty
    rw [TreeMap.getElem?_of_isEmpty empty]
    rfl

theorem Heap.Changes.append {changed : Nat → Prop} {heap middle after : Heap}
    (left : heap.Changes changed middle) (right : middle.Changes changed after) :
    heap.Changes changed after :=
  (left.trans right).mono fun _ either => either.elim id id

/-- Every set of a decimation group is filled by `ticks`. -/
def BlocksizeGroup.Filled (channels : Nat → Channel) (heap : Heap)
    (ticks : List Tick) (decimation : Nat) (blocksizes : BlocksizeGroup) : Prop :=
  ∀ (blocksize : Nat) (set : SubscriptionSet),
    blocksizes.sets[blocksize]? = some set →
      SetFilled channels heap ticks decimation blocksize set

def BlocksizeGroup.Owns (blocksizes : BlocksizeGroup) (blocksize address : Nat) :
    Prop :=
  ∃ set : SubscriptionSet,
    blocksizes.sets[blocksize]? = some set ∧ address ∈ set.members

theorem BlocksizeGroup.Filled.of_agree {heap after : Heap} {ticks : List Tick}
    {decimation : Nat} {blocksizes : BlocksizeGroup}
    (filled : blocksizes.Filled channels heap ticks decimation)
    (agree : ∀ blocksize address, blocksizes.Owns blocksize address →
      after address = heap address) :
    blocksizes.Filled channels after ticks decimation := by
  intro blocksize set found
  apply (filled blocksize set found).of_agree
  intro address member
  exact agree blocksize address ⟨set, found, member⟩

def DecimationGroup.Filled (channels : Nat → Channel) (heap : Heap)
    (ticks : List Tick) (decimations : DecimationGroup) : Prop :=
  ∀ (decimation : Nat) (blocksizes : BlocksizeGroup),
    decimations[decimation]? = some blocksizes →
      blocksizes.Filled channels heap ticks decimation

theorem DecimationGroup.Filled.of_agree {heap after : Heap} {ticks : List Tick}
    {decimations : DecimationGroup}
    (filled : DecimationGroup.Filled channels heap ticks decimations)
    (agree : ∀ decimation blocksize address,
      DecimationGroup.Owns decimations decimation blocksize address →
      after address = heap address) :
    DecimationGroup.Filled channels after ticks decimations := by
  intro decimation blocksizes found
  apply (filled decimation blocksizes found).of_agree
  intro blocksize address owns
  exact agree decimation blocksize address ⟨blocksizes, found, owns⟩

section Loops

variable {State Value : Type}

/-- A loop over the values of a map where every visit changes the heap only at
the subscriptions its value owns: what holds for a value and its part of the
heap is not disturbed by the other visits. -/
theorem updateAll_owned (map : TreeMap Nat Value)
    (visit : Nat → Value → State → Option (Value × State))
    (heapOf : State → Heap) (inv : State → Prop) (owns : Value → Nat → Prop)
    (pre : Nat → Value → Heap → Prop) (post : Nat → Value → Value → Heap → Prop)
    (state : State)
    (unique : ∀ (key other : Nat) left right address, map[key]? = some left →
      map[other]? = some right → owns left address → owns right address → key = other)
    (preLocal : ∀ key value heap after, pre key value heap →
      (∀ address, owns value address → after address = heap address) →
      pre key value after)
    (postLocal : ∀ key value result heap after, post key value result heap →
      (∀ address, owns value address → after address = heap address) →
      post key value result after)
    (visits : ∀ (key : Nat) value state, map[key]? = some value → inv state →
      pre key value (heapOf state) → ∃ result after,
        visit key value state = some (result, after) ∧ inv after ∧
        post key value result (heapOf after) ∧
        (heapOf state).Changes (owns value) (heapOf after))
    (holds : inv state)
    (start : ∀ (key : Nat) value, map[key]? = some value → pre key value (heapOf state)) :
    ∃ result after, updateAll visit map state = some (result, after) ∧ inv after ∧
      (∀ (key : Nat) value, map[key]? = some value →
        ∃ value', result[key]? = some value' ∧ post key value value' (heapOf after)) ∧
      (∀ (key : Nat) value', result[key]? = some value' →
        ∃ value, map[key]? = some value ∧ post key value value' (heapOf after)) ∧
      (heapOf state).Changes
        (fun address => ∃ (key : Nat) (value : Value), map[key]? = some value ∧ owns value address)
        (heapOf after) := by
  -- what one value owns no other visit touches
  obtain ⟨result, after, ran, ⟨stays, changes⟩, keys, each⟩ := updateAll_spec
    map visit
    (fun key value state => map[key]? = some value ∧ pre key value (heapOf state))
    (fun key result state => ∃ value, map[key]? = some value ∧
      post key value result (heapOf state))
    (fun key state after => (heapOf state).Changes
      (fun address => ∃ value, map[key]? = some value ∧ owns value address)
      (heapOf after))
    (fun now => inv now ∧ (heapOf state).Changes
      (fun address => ∃ (key : Nat) (value : Value), map[key]? = some value ∧ owns value address)
      (heapOf now))
    state
    (by
      rintro key value now - ⟨holds, changes⟩ ⟨found, ready⟩
      obtain ⟨result, after, ran, stays, left, moved⟩ :=
        visits key value now found holds ready
      refine ⟨result, after, ran, ⟨stays, changes.append (moved.mono ?_)⟩,
        ⟨value, found, left⟩, moved.mono ?_⟩
      · intro address owned
        exact ⟨key, value, found, owned⟩
      · intro address owned
        exact ⟨value, found, owned⟩)
    (by
      rintro key other value now after away moved ⟨found, ready⟩
      refine ⟨found, preLocal _ _ _ _ ready ?_⟩
      intro address owned
      apply moved.1
      rintro ⟨value', found', owned'⟩
      exact away (unique _ _ _ _ _ found' found owned' owned))
    (by
      rintro key other value now after away moved ⟨old, found, left⟩
      refine ⟨old, found, postLocal _ _ _ _ _ left ?_⟩
      intro address owned
      apply moved.1
      rintro ⟨value', found', owned'⟩
      exact away (unique _ _ _ _ _ found' found owned' owned))
    ⟨holds, .refl _ _⟩ (fun key value found => ⟨found, start key value found⟩)
  refine ⟨result, after, ran, stays, ?_, each, changes⟩
  intro key value found
  have known : (result[key]?).isSome := by
    rw [keys key, found]
    rfl
  obtain ⟨value', found'⟩ := Option.isSome_iff_exists.mp known
  obtain ⟨old, found'', left⟩ := each key value' found'
  rw [found] at found''
  cases found''
  exact ⟨value', found', left⟩

/-- A loop that deletes what its values own: each subscription is owned by one
value, so it is still live when its turn comes. -/
theorem forEach_deletes (map : TreeMap Nat Value)
    (visit : Nat → Value → State → Option State)
    (heapOf : State → Heap) (owns : Value → Nat → Prop) (state : State)
    (unique : ∀ (key other : Nat) left right address, map[key]? = some left →
      map[other]? = some right → owns left address → owns right address → key = other)
    (visits : ∀ (key : Nat) value state, map[key]? = some value →
      (∀ address, owns value address → (heapOf state address).isSome) →
      ∃ after, visit key value state = some after ∧
        ∀ address, ¬ owns value address → heapOf after address = heapOf state address)
    (start : ∀ (key : Nat) value, map[key]? = some value →
      ∀ address, owns value address → (heapOf state address).isSome) :
    ∃ after, forEach visit map state = some after ∧
      ∀ address, (∀ (key : Nat) value, map[key]? = some value → ¬ owns value address) →
        heapOf after address = heapOf state address := by
  obtain ⟨after, ran, frame, -⟩ := forEach_spec map visit
    (fun key value now => map[key]? = some value ∧
      ∀ address, owns value address → (heapOf now address).isSome)
    (fun _ _ _ => True)
    (fun key now after => ∀ address,
      (∀ value, map[key]? = some value → ¬ owns value address) →
      heapOf after address = heapOf now address)
    (fun now => ∀ address,
      (∀ (key : Nat) value, map[key]? = some value → ¬ owns value address) →
      heapOf now address = heapOf state address)
    state
    (by
      rintro key value now found frame ⟨-, live⟩
      obtain ⟨after, ran, kept⟩ := visits key value now found live
      refine ⟨after, ran, ?_, trivial, ?_⟩
      · intro address away
        rw [kept address (away key value found), frame address away]
      · intro address away
        exact kept address (away value found))
    (by
      rintro key other value now after apart kept ⟨found, live⟩
      refine ⟨found, ?_⟩
      intro address owned
      rw [kept address]
      · exact live address owned
      · intro value' found' owned'
        exact apart (unique _ _ _ _ _ found' found owned' owned))
    (by simp) (fun _ _ => rfl) (fun key value found => ⟨found, start key value found⟩)
  exact ⟨after, ran, frame⟩

variable {heapOf : State → Heap} {inv : State → Prop} {ticks more : List Tick}

/-- The loop over the blocksizes. -/
theorem updateSets_spec
    {visit : Nat → SubscriptionSet → State → Option (SubscriptionSet × State)}
    {decimation : Nat} {sets : TreeMap Nat SubscriptionSet} {state : State}
    (visits : ∀ (blocksize : Nat) set state, inv state →
      SetFilled channels (heapOf state) ticks decimation blocksize set →
      ∃ result after, visit blocksize set state = some (result, after) ∧
        inv after ∧ result.members = set.members ∧
        SetFilled channels (heapOf after) more decimation blocksize result ∧
        (heapOf state).Changes (· ∈ set.members) (heapOf after))
    (holds : inv state) {counter : Nat} (counter' : Nat)
    (filled : BlocksizeGroup.Filled channels (heapOf state) ticks decimation
      ⟨counter, sets⟩) :
    ∃ result after, updateAll visit sets state = some (result, after) ∧ inv after ∧
      BlocksizeGroup.Filled channels (heapOf after) more decimation
        ⟨counter', result⟩ ∧
      (∀ blocksize address, BlocksizeGroup.Owns ⟨counter', result⟩ blocksize address ↔
        BlocksizeGroup.Owns ⟨counter, sets⟩ blocksize address) ∧
      (heapOf state).Changes (fun address => ∃ blocksize,
        BlocksizeGroup.Owns ⟨counter, sets⟩ blocksize address) (heapOf after) := by
  obtain ⟨result, after, ran, stays, ahead, back, changes⟩ := updateAll_owned
    sets visit heapOf inv (fun set address => address ∈ set.members)
    (fun blocksize set heap => SetFilled channels heap ticks decimation blocksize set)
    (fun blocksize set result heap => result.members = set.members ∧
      SetFilled channels heap more decimation blocksize result)
    state
    (by
      -- A member knows its blocksize.
      intro blocksize other left right address foundLeft foundRight inLeft inRight
      obtain ⟨_, -, -, -, membersLeft⟩ := (filled blocksize left foundLeft).filling
      obtain ⟨_, -, -, -, membersRight⟩ := (filled other right foundRight).filling
      obtain ⟨s, found, -, size, -⟩ := membersLeft address inLeft
      obtain ⟨t, found', -, size', -⟩ := membersRight address inRight
      rw [found] at found'
      cases found'
      exact size.symm.trans size')
    (fun _ _ _ _ ready agree => ready.of_agree agree)
    (by
      rintro blocksize set result heap after ⟨same, left⟩ agree
      refine ⟨same, left.of_agree ?_⟩
      rw [same]
      exact agree)
    (by
      intro blocksize set now _ holds ready
      obtain ⟨result, after, ran, stays, same, left, moved⟩ :=
        visits blocksize set now holds ready
      exact ⟨result, after, ran, stays, ⟨same, left⟩, moved⟩)
    holds filled
  refine ⟨result, after, ran, stays, ?_, ?_, ?_⟩
  · intro blocksize set' found
    obtain ⟨set, -, -, left⟩ := back blocksize set' found
    exact left
  · intro blocksize address
    constructor
    · rintro ⟨set', found, member⟩
      obtain ⟨set, found', same, -⟩ := back blocksize set' found
      exact ⟨set, found', same ▸ member⟩
    · rintro ⟨set, found, member⟩
      obtain ⟨set', found', same, -⟩ := ahead blocksize set found
      exact ⟨set', found', same ▸ member⟩
  · refine changes.mono ?_
    rintro address ⟨blocksize, set, found, member⟩
    exact ⟨blocksize, set, found, member⟩

/-- What the body of the loop over the decimations has to do: sets filled by
`ticks` become sets filled by `more`, of the same subscriptions, and nothing
else on the heap changes. -/
def Visits (channels : Nat → Channel) (heapOf : State → Heap)
    (inv : State → Prop) (ticks more : List Tick) (decimation : Nat)
    (visit : BlocksizeGroup → State → Option (BlocksizeGroup × State)) : Prop :=
  ∀ blocksizes state, inv state →
    blocksizes.Filled channels (heapOf state) ticks decimation →
    ∃ result after, visit blocksizes state = some (result, after) ∧ inv after ∧
      result.Filled channels (heapOf after) more decimation ∧
      (∀ blocksize address,
        result.Owns blocksize address ↔ blocksizes.Owns blocksize address) ∧
      (heapOf state).Changes
        (fun address => ∃ blocksize, blocksizes.Owns blocksize address) (heapOf after)

/-- The loop over the decimations. -/
theorem updateDecimations_spec
    {visit : Nat → BlocksizeGroup → State → Option (BlocksizeGroup × State)}
    {decimations : DecimationGroup} {state : State}
    (visits : ∀ decimation,
      Visits channels heapOf inv ticks more decimation (visit decimation))
    (holds : inv state)
    (filled : DecimationGroup.Filled channels (heapOf state) ticks decimations) :
    ∃ result after, updateAll visit decimations state = some (result, after) ∧
      inv after ∧ DecimationGroup.Filled channels (heapOf after) more result ∧
      (∀ decimation blocksize address,
        DecimationGroup.Owns result decimation blocksize address ↔
          DecimationGroup.Owns decimations decimation blocksize address) ∧
      (heapOf state).Changes (fun address => ∃ decimation blocksize,
        DecimationGroup.Owns decimations decimation blocksize address)
        (heapOf after) := by
  obtain ⟨result, after, ran, stays, ahead, back, changes⟩ := updateAll_owned
    decimations visit heapOf inv
    (fun blocksizes address => ∃ blocksize, blocksizes.Owns blocksize address)
    (fun decimation blocksizes heap =>
      blocksizes.Filled channels heap ticks decimation)
    (fun decimation blocksizes result heap =>
      (∀ blocksize address,
        result.Owns blocksize address ↔ blocksizes.Owns blocksize address) ∧
      result.Filled channels heap more decimation)
    state
    (by
      -- A member knows its decimation.
      rintro decimation other left right address foundLeft foundRight
        ⟨b, setLeft, sideLeft, inLeft⟩ ⟨b', setRight, sideRight, inRight⟩
      obtain ⟨_, -, -, -, membersLeft⟩ :=
        (filled decimation left foundLeft b setLeft sideLeft).filling
      obtain ⟨_, -, -, -, membersRight⟩ :=
        (filled other right foundRight b' setRight sideRight).filling
      obtain ⟨s, found, rate, -⟩ := membersLeft address inLeft
      obtain ⟨t, found', rate', -⟩ := membersRight address inRight
      rw [found] at found'
      cases found'
      exact rate.symm.trans rate')
    (by
      intro decimation blocksizes heap after ready agree
      apply ready.of_agree
      intro blocksize address owns
      exact agree address ⟨blocksize, owns⟩)
    (by
      rintro decimation blocksizes result heap after ⟨same, left⟩ agree
      refine ⟨same, left.of_agree ?_⟩
      intro blocksize address owns
      exact agree address ⟨blocksize, (same blocksize address).mp owns⟩)
    (by
      intro decimation blocksizes now _ holds ready
      obtain ⟨result, after, ran, stays, left, same, moved⟩ :=
        visits decimation blocksizes now holds ready
      exact ⟨result, after, ran, stays, ⟨same, left⟩, moved⟩)
    holds filled
  refine ⟨result, after, ran, stays, ?_, ?_, ?_⟩
  · intro decimation blocksizes' found
    obtain ⟨blocksizes, -, -, left⟩ := back decimation blocksizes' found
    exact left
  · intro decimation blocksize address
    constructor
    · rintro ⟨blocksizes', found, owns⟩
      obtain ⟨blocksizes, found', same, -⟩ := back decimation blocksizes' found
      exact ⟨blocksizes, found', (same blocksize address).mp owns⟩
    · rintro ⟨blocksizes, found, owns⟩
      obtain ⟨blocksizes', found', same, -⟩ := ahead decimation blocksizes found
      exact ⟨blocksizes', found', (same blocksize address).mpr owns⟩
  · refine changes.mono ?_
    rintro address ⟨decimation, blocksizes, found, blocksize, owns⟩
    exact ⟨decimation, blocksize, blocksizes, found, owns⟩

/-- The three nested loops over `activeSignals`, as `rxPdo` and `sync` make
them. -/
theorem updateActive_spec
    {visit : Nat → Nat → BlocksizeGroup → State → Option (BlocksizeGroup × State)}
    {active : ActiveSignals} {state : State}
    (unique : ∀ {address g d b g' d' b'}, active.Owns g d b address →
      active.Owns g' d' b' address → g = g')
    (visits : ∀ group decimation,
      Visits channels heapOf inv ticks more decimation (visit group decimation))
    (holds : inv state)
    (filled : ∀ group decimation blocksize set,
      active.set? group decimation blocksize = some set →
      SetFilled channels (heapOf state) ticks decimation blocksize set) :
    ∃ result after, updateAll (fun group decimations state =>
        updateAll (visit group) decimations state) active state = some (result, after) ∧
      inv after ∧
      (∀ group decimation blocksize set,
        ActiveSignals.set? result group decimation blocksize = some set →
        SetFilled channels (heapOf after) more decimation blocksize set) ∧
      (∀ group decimation blocksize address,
        ActiveSignals.Owns result group decimation blocksize address ↔
          active.Owns group decimation blocksize address) ∧
      (heapOf state).Changes
        (fun address => ∃ g d b, active.Owns g d b address) (heapOf after) := by
  -- the loops over the groups and over their decimations
  obtain ⟨result, after, ran, stays, ahead, back, changes⟩ := updateAll_owned
    active (fun group decimations state => updateAll (visit group) decimations state)
    heapOf inv
    (fun decimations address => ∃ decimation blocksize,
      DecimationGroup.Owns decimations decimation blocksize address)
    (fun _ decimations heap => DecimationGroup.Filled channels heap ticks decimations)
    (fun _ decimations result heap =>
      (∀ decimation blocksize address,
        DecimationGroup.Owns result decimation blocksize address ↔
          DecimationGroup.Owns decimations decimation blocksize address) ∧
      DecimationGroup.Filled channels heap more result)
    state
    (by
      rintro group other left right address foundLeft foundRight
        ⟨d, b, inLeft⟩ ⟨d', b', inRight⟩
      exact unique (ActiveSignals.owns_iff.mpr ⟨left, foundLeft, inLeft⟩)
        (ActiveSignals.owns_iff.mpr ⟨right, foundRight, inRight⟩))
    (by
      intro group decimations heap after ready agree
      apply ready.of_agree
      intro decimation blocksize address owns
      exact agree address ⟨decimation, blocksize, owns⟩)
    (by
      rintro group decimations result heap after ⟨same, left⟩ agree
      refine ⟨same, left.of_agree ?_⟩
      intro decimation blocksize address owns
      exact agree address
        ⟨decimation, blocksize, (same decimation blocksize address).mp owns⟩)
    (by
      intro group decimations now _ holds ready
      obtain ⟨result, after, ran, stays, left, same, moved⟩ :=
        updateDecimations_spec (visits group) holds ready
      exact ⟨result, after, ran, stays, ⟨same, left⟩, moved⟩)
    holds
    (by
      intro group decimations found decimation blocksizes found' blocksize set found''
      exact filled group decimation blocksize set (ActiveSignals.set?_eq_some.mpr
        ⟨decimations, found, blocksizes, found', found''⟩))
  refine ⟨result, after, ran, stays, ?_, ?_, ?_⟩
  · intro group decimation blocksize set found
    obtain ⟨decimations', first, blocksizes, second, third⟩ :=
      ActiveSignals.set?_eq_some.mp found
    obtain ⟨decimations, -, -, left⟩ := back group decimations' first
    exact left decimation blocksizes second blocksize set third
  · intro group decimation blocksize address
    rw [ActiveSignals.owns_iff, ActiveSignals.owns_iff]
    constructor
    · rintro ⟨decimations', found, owns⟩
      obtain ⟨decimations, found', same, -⟩ := back group decimations' found
      exact ⟨decimations, found', (same decimation blocksize address).mp owns⟩
    · rintro ⟨decimations, found, owns⟩
      obtain ⟨decimations', found', same, -⟩ := ahead group decimations found
      exact ⟨decimations', found', (same decimation blocksize address).mpr owns⟩
  · refine changes.mono ?_
    rintro address ⟨group, decimations, found, decimation, blocksize, owns⟩
    exact ⟨group, decimation, blocksize,
      ActiveSignals.owns_iff.mpr ⟨decimations, found, owns⟩⟩

end Loops

namespace SubscriptionManager

/-- One decimation group in one tick: nothing where the counter is busy, one
more tick for every blocksize otherwise. -/
theorem visitDecimation_visits (tick : Tick) (ticks : List Tick)
    (group decimation : Nat) :
    Visits channels (fun state : Heap × List DataElement => state.1)
      (fun state => ∀ element ∈ state.2,
        element.Coherent channels (ticks ++ [tick]))
      ticks (ticks ++ [tick]) decimation
      (visitDecimation channels tick group decimation) := by
  rintro ⟨counter, sets⟩ ⟨heap, out⟩ holds filled
  unfold visitDecimation
  obtain ⟨busy, counted⟩ : ∃ counter', (BlocksizeGroup.busy ⟨counter, sets⟩ decimation).2
      = ⟨counter', sets⟩ := ⟨_, rfl⟩
  by_cases waits : (BlocksizeGroup.busy ⟨counter, sets⟩ decimation).1 = true
  · refine ⟨⟨busy, sets⟩, (heap, out), ?_, holds, ?_, fun _ _ => Iff.rfl, .refl _ _⟩
    · simp only [waits, if_true, counted]
    · intro blocksize set found
      exact (filled blocksize set found).mono (List.sublist_append_left ticks [tick])
  · have visits : ∀ (blocksize : Nat) set (state : Heap × List DataElement),
        (∀ element ∈ state.2, element.Coherent channels (ticks ++ [tick])) →
        SetFilled channels state.1 ticks decimation blocksize set →
        ∃ result after,
          visitSet channels tick group decimation blocksize set state =
            some (result, after) ∧
          (∀ element ∈ after.2, element.Coherent channels (ticks ++ [tick])) ∧
          result.members = set.members ∧
          SetFilled channels after.1 (ticks ++ [tick]) decimation blocksize result ∧
          state.1.Changes (· ∈ set.members) after.1 := by
      rintro blocksize set ⟨heap, out⟩ holds ready
      obtain ⟨set', after, printed, ran, same, left, moved, good⟩ :=
        visitSet_spec ready tick group out
      refine ⟨set', _, ran, ?_, same, left, moved⟩
      intro element member
      cases List.mem_append.mp member with
      | inl old => exact holds element old
      | inr new => exact good element new
    obtain ⟨result, after, ran, stays, left, same, changes⟩ :=
      updateSets_spec visits holds busy filled
    refine ⟨⟨busy, result⟩, after, ?_, stays, left, same, changes⟩
    simp only [waits, Bool.false_eq_true, if_false, counted, ran, Option.bind_eq_bind,
      Option.bind_some]

/-- One decimation group in `sync`: every set starts again. -/
theorem resetDecimation_visits (ticks : List Tick) (decimation : Nat) :
    Visits channels (fun heap : Heap => heap) (fun _ => True) ticks ticks decimation
      (resetDecimation decimation) := by
  rintro ⟨counter, sets⟩ heap - filled
  have visits : ∀ (blocksize : Nat) set (heap : Heap), True →
      SetFilled channels heap ticks decimation blocksize set →
      ∃ result after, resetSet blocksize set heap = some (result, after) ∧ True ∧
        result.members = set.members ∧
        SetFilled channels after ticks decimation blocksize result ∧
        heap.Changes (· ∈ set.members) after := by
    intro blocksize set heap _ filled
    obtain ⟨taken, -, -, -, holds⟩ := filled.filling
    obtain ⟨after, ran, changes, emptied⟩ := resetMembers_spec
      (SubscriptionSet.distinct set.members)
      (fun address member => holds address (TreeSet.mem_toList.mp member))
    refine ⟨{ set with timePtr := 0 }, after, ?_, trivial, rfl, ?_, ?_⟩
    · rw [resetSet, ran]
      rfl
    · refine .of_restart filled.time_length filled.nonempty ?_
      intro address member
      exact emptied address (TreeSet.mem_toList.mpr member)
    · refine changes.mono ?_
      intro address member
      exact TreeSet.mem_toList.mp member
  obtain ⟨result, after, ran, -, left, same, changes⟩ :=
    updateSets_spec visits trivial counter filled
  refine ⟨⟨counter, result⟩, after, ?_, trivial, left, same, changes⟩
  simp only [resetDecimation, ran, Option.bind_eq_bind, Option.bind_some]

end SubscriptionManager

/-- What holds of a manager between two actions of a run that has processed
`ticks`. -/
structure Blocks (channels : Nat → Channel) (ticks : List Tick)
    (m : SubscriptionManager) : Prop where
  keyed : ∀ {s c g a}, m.signalSubscriptionMap.find? s c g = some a →
    s = (channels c).signal
  live : ∀ {s c g a}, m.signalSubscriptionMap.find? s c g = some a →
    ∃ sub, m.heap a = some sub ∧ sub.channel = c
  single : ∀ {s c g s' c' g' a}, m.signalSubscriptionMap.find? s c g = some a →
    m.signalSubscriptionMap.find? s' c' g' = some a → c = c' ∧ g = g'
  filled : ∀ g d b set, m.activeSignals.set? g d b = some set →
    SetFilled channels m.heap ticks d b set
  registered : ∀ {g d b a}, m.activeSignals.Owns g d b a →
    ∃ s c, m.signalSubscriptionMap.find? s c g = some a
  idle : ∀ {s c g a sub}, m.signalSubscriptionMap.find? s c g = some a →
    m.heap a = some sub → (∀ d b, ¬ m.activeSignals.Owns g d b a) →
    Filled channels [] sub

namespace Blocks

variable {ticks : List Tick} {m : SubscriptionManager}

/-- Without subscriptions there is nothing to show. -/
theorem of_empty (heap : Heap) (subscribed : TreeSet Nat) : Blocks channels ticks
    { heap := heap, subscribed := subscribed } := by
  constructor
  case keyed =>
    intro s c g a found
    simp [SignalSubscriptionMap.find?] at found
  case live =>
    intro s c g a found
    simp [SignalSubscriptionMap.find?] at found
  case single =>
    intro s c g s' c' g' a found
    simp [SignalSubscriptionMap.find?] at found
  case filled =>
    intro g d b set found
    simp [ActiveSignals.set?] at found
  case registered =>
    rintro g d b a ⟨set, found, -⟩
    simp [ActiveSignals.set?] at found
  case idle =>
    intro s c g a sub found
    simp [SignalSubscriptionMap.find?] at found

theorem unique (blocks : Blocks channels ticks m) {a g d b g' d' b' : Nat}
    (left : m.activeSignals.Owns g d b a) (right : m.activeSignals.Owns g' d' b' a) :
    g = g' := by
  obtain ⟨s, c, found⟩ := blocks.registered left
  obtain ⟨s', c', found'⟩ := blocks.registered right
  exact (blocks.single found found').2

/-- A member is live and knows its decimation and blocksize. -/
theorem member (blocks : Blocks channels ticks m) {a g d b : Nat}
    (owns : m.activeSignals.Owns g d b a) :
    ∃ sub, m.heap a = some sub ∧ sub.decimation = d ∧ sub.blocksize = b := by
  obtain ⟨set, found, inside⟩ := owns
  obtain ⟨_, -, -, -, holds⟩ := (blocks.filled g d b set found).filling
  obtain ⟨sub, live, rate, size, -⟩ := holds a inside
  exact ⟨sub, live, rate, size⟩

/-- A pass over the active sets keeps everything but what is in the buffers. -/
theorem of_pass (blocks : Blocks channels ticks m) {more : List Tick}
    {active : ActiveSignals} {heap : Heap}
    (filled : ∀ g d b set, active.set? g d b = some set →
      SetFilled channels heap more d b set)
    (same : ∀ g d b a, active.Owns g d b a ↔ m.activeSignals.Owns g d b a)
    (changes : m.heap.Changes
      (fun a => ∃ g d b, m.activeSignals.Owns g d b a) heap) :
    Blocks channels more { m with activeSignals := active, heap := heap } where
  keyed := blocks.keyed
  live := by
    intro s c g a found
    obtain ⟨sub, live, channel⟩ := blocks.live found
    obtain ⟨sub', live', order⟩ := changes.2 a sub live
    exact ⟨sub', live', order.1.trans channel⟩
  single := blocks.single
  filled := filled
  registered := by
    intro g d b a owns
    exact blocks.registered ((same g d b a).mp owns)
  idle := by
    intro s c g a sub found live none_owns
    refine blocks.idle found ?_ (fun d b owns => none_owns d b ((same g d b a).mpr owns))
    rw [← live]
    refine (changes.1 a ?_).symm
    rintro ⟨g', d, b, owns⟩
    obtain ⟨s', c', found'⟩ := blocks.registered owns
    have here := (blocks.single found found').2
    subst here
    exact none_owns d b ((same g d b a).mpr owns)

theorem rxPdo (blocks : Blocks channels ticks m) (tick : Tick) :
    ∃ after printed, m.rxPdo channels false tick = some (after, printed) ∧
      Blocks channels (ticks ++ [tick]) after ∧
      ∀ element ∈ printed, element.Coherent channels (ticks ++ [tick]) := by
  obtain ⟨active, ⟨heap, out⟩, ran, good, filled, same, changes⟩ := updateActive_spec
    blocks.unique
    (fun group decimation =>
      SubscriptionManager.visitDecimation_visits tick ticks group decimation)
    (show ∀ element ∈ ((m.heap, []) : Heap × List DataElement).2, _ by simp)
    blocks.filled
  refine ⟨_, out, ?_, blocks.of_pass filled same changes, good⟩
  simp only [SubscriptionManager.rxPdo, Bool.false_eq_true, if_false, ran,
    Option.bind_eq_bind, Option.bind_some]

theorem sync (blocks : Blocks channels ticks m) :
    ∃ after, m.sync = some after ∧ Blocks channels ticks after := by
  obtain ⟨active, heap, ran, -, filled, same, changes⟩ := updateActive_spec
    blocks.unique
    (fun _ decimation => SubscriptionManager.resetDecimation_visits ticks decimation)
    trivial blocks.filled
  refine ⟨_, ?_, blocks.of_pass filled same changes⟩
  simp only [SubscriptionManager.sync]
  rw [ran]
  rfl

/-- A registered subscription that is in no set has an empty buffer. -/
theorem empty_outside (blocks : Blocks channels ticks m) {s c g a : Nat} {sub : Subscription}
    (found : m.signalSubscriptionMap.find? s c g = some a) (live : m.heap a = some sub)
    (outside : ∀ set, m.activeSignals.set? g sub.decimation sub.blocksize = some set →
      a ∉ set.members) : Filled channels [] sub := by
  apply blocks.idle found live
  intro d b owns
  obtain ⟨sub', live', rfl, rfl⟩ := blocks.member owns
  rw [live] at live'
  cases live'
  obtain ⟨set, known, member⟩ := owns
  exact outside set known member

/-- The set a subscription is put in: a new one, or the one that is there. -/
theorem joined_filled (blocks : Blocks channels ticks m) {s c g a : Nat}
    {sub : Subscription} (found : m.signalSubscriptionMap.find? s c g = some a)
    (live : m.heap a = some sub) {set' : SubscriptionSet}
    (joined : (m.activeSignals.activate g a sub).set? g sub.decimation sub.blocksize =
      some set') :
    SetFilled channels m.heap ticks sub.decimation sub.blocksize set' ∧
      ∀ x ∈ set'.members, m.activeSignals.Owns g sub.decimation sub.blocksize x ∨ x = a := by
  unfold ActiveSignals.activate at joined
  rw [ActiveSignals.set?_modify, if_pos ⟨rfl, rfl, rfl⟩] at joined
  cases before : m.activeSignals.set? g sub.decimation sub.blocksize with
  | none =>
      -- The set is new: one empty member and a fresh time array.
      have empty := blocks.empty_outside found live (by simp [before])
      rw [before] at joined
      simp only [Option.getD_none, TreeSet.isEmpty_emptyc, if_true] at joined
      cases joined
      have only : ∀ x, x ∈ (∅ : TreeSet Nat).insert a → x = a := by
        intro x member
        rcases SubscriptionSet.mem_insert_iff.mp member with same | none_left
        · exact same
        · simp at none_left
      refine ⟨.of_restart (by simp) TreeSet.isEmpty_insert ?_, fun x member => .inr (only x member)⟩
      intro x member
      cases only x member
      exact ⟨sub, live, rfl, rfl, empty⟩
  | some set =>
      have filled := blocks.filled _ _ _ _ before
      obtain ⟨taken, sub_ticks, length, times, holds⟩ := filled.filling
      rw [before] at joined
      simp only [Option.getD_some, filled.nonempty, Bool.false_eq_true, if_false] at joined
      cases joined
      refine ⟨⟨filled.time_length, filled.room, TreeSet.isEmpty_insert, taken,
        sub_ticks, length, times, ?_⟩, ?_⟩
      · intro x member
        by_cases old : x ∈ set.members
        · exact holds x old
        · cases (SubscriptionSet.mem_insert_iff.mp member).resolve_right old
          have empty := blocks.empty_outside found live (by
            rintro set' known
            rw [before] at known
            cases known
            exact old)
          exact ⟨sub, live, rfl, rfl, empty.of_empty (Nat.le_zero.mp empty.few) taken⟩
      · intro x member
        rcases SubscriptionSet.mem_insert_iff.mp member with rfl | old
        · exact .inr rfl
        · exact .inl ⟨set, before, old⟩

/-- No subscription leaves its set. -/
theorem activate_owns (blocks : Blocks channels ticks m) (g a : Nat) (sub : Subscription)
    {g' d b x : Nat} (owns : m.activeSignals.Owns g' d b x) :
    (m.activeSignals.activate g a sub).Owns g' d b x := by
  obtain ⟨set, before, member⟩ := owns
  unfold ActiveSignals.activate ActiveSignals.Owns
  rw [ActiveSignals.set?_modify]
  split
  case isFalse => exact ⟨set, before, member⟩
  case isTrue here =>
    obtain ⟨rfl, rfl, rfl⟩ := here
    refine ⟨_, rfl, ?_⟩
    have filled := blocks.filled _ _ _ _ before
    simp only [before, Option.getD_some, filled.nonempty, Bool.false_eq_true, if_false]
    exact SubscriptionSet.mem_insert_iff.mpr (.inr member)

/-- Putting a registered subscription into its active set: it is there
already, or it is empty and fits in at any time. -/
theorem activate (blocks : Blocks channels ticks m) {s c g a : Nat}
    {sub : Subscription} (found : m.signalSubscriptionMap.find? s c g = some a)
    (live : m.heap a = some sub) :
    Blocks channels ticks
      { m with activeSignals := m.activeSignals.activate g a sub } := by
  have sets : ∀ g' d' b' set',
      (m.activeSignals.activate g a sub).set? g' d' b' = some set' →
      SetFilled channels m.heap ticks d' b' set' ∧
        ∀ x ∈ set'.members, m.activeSignals.Owns g' d' b' x ∨ (x = a ∧ g' = g) := by
    intro g' d' b' set' found'
    by_cases here : g = g' ∧ sub.decimation = d' ∧ sub.blocksize = b'
    · obtain ⟨rfl, rfl, rfl⟩ := here
      obtain ⟨filled, members⟩ := blocks.joined_filled found live found'
      exact ⟨filled, fun x member => (members x member).imp_right fun same => ⟨same, rfl⟩⟩
    · unfold ActiveSignals.activate at found'
      rw [ActiveSignals.set?_modify, if_neg here] at found'
      exact ⟨blocks.filled g' d' b' set' found', fun x member => .inl ⟨set', found', member⟩⟩
  constructor
  case keyed =>
    exact blocks.keyed
  case live =>
    exact blocks.live
  case single =>
    exact blocks.single
  case filled =>
    intro g' d' b' set' found'
    exact (sets g' d' b' set' found').1
  case registered =>
    rintro g' d' b' x ⟨set', found', member⟩
    rcases (sets g' d' b' set' found').2 x member with owns | ⟨rfl, rfl⟩
    · exact blocks.registered owns
    · exact ⟨s, c, found⟩
  case idle =>
    intro s' c' g' x sub' found' live' none_owns
    refine blocks.idle found' live' ?_
    intro d b owns
    exact none_owns d b (blocks.activate_owns g a sub owns)

theorem newSignal (blocks : Blocks channels ticks m) (signal : Nat) :
    ∃ after, m.newSignal signal = some after ∧ Blocks channels ticks after := by
  unfold SubscriptionManager.newSignal
  cases known : m.signalSubscriptionMap[signal]? with
  | none => exact ⟨m, rfl, blocks⟩
  | some channelMap =>
      obtain ⟨active, ran, holds, -⟩ := forEach_spec channelMap
        (fun _ groups active => forEach (fun group address (active : ActiveSignals) => do
          let s ← m.heap address
          some (active.activate group address s)) groups active)
        (fun _ _ _ => True) (fun _ _ _ => True) (fun _ _ _ => True)
        (fun active => Blocks channels ticks { m with activeSignals := active })
        m.activeSignals
        (by
          intro channel groups active found blocks' _
          obtain ⟨after, ran, holds, -⟩ := forEach_spec groups
            (fun group address (active : ActiveSignals) => do
              let s ← m.heap address
              some (active.activate group address s))
            (fun _ _ _ => True) (fun _ _ _ => True) (fun _ _ _ => True)
            (fun active => Blocks channels ticks { m with activeSignals := active })
            active
            (by
              intro group address active found' blocks' _
              have registered : m.signalSubscriptionMap.find? signal channel group =
                  some address := SignalSubscriptionMap.find?_eq_some.mpr
                ⟨channelMap, known, groups, found, found'⟩
              obtain ⟨sub, live, -⟩ := blocks'.live registered
              refine ⟨active.activate group address sub, ?_,
                blocks'.activate registered live, trivial, trivial⟩
              rw [show m.heap address = some sub from live]
              rfl)
            (by simp) (by simp) blocks' (by simp)
          exact ⟨after, ran, holds, trivial, trivial⟩)
        (by simp) (by simp) blocks (by simp)
      refine ⟨{ m with activeSignals := active }, ?_, holds⟩
      dsimp only
      rw [ran]
      rfl

/-- The result of `remove`: the address is gone from the active sets and
nothing else is. -/
structure Removed (channels : Nat → Channel) (ticks : List Tick)
    (m : SubscriptionManager) (address : Nat) (after : SubscriptionManager) : Prop where
  registry : after.signalSubscriptionMap = m.signalSubscriptionMap
  frame : ∀ x, x ≠ address → after.heap x = m.heap x
  filled : ∀ g d b set, after.activeSignals.set? g d b = some set →
    SetFilled channels after.heap ticks d b set
  owns : ∀ g d b x, after.activeSignals.Owns g d b x ↔
    x ≠ address ∧ m.activeSignals.Owns g d b x

/-- Nothing to do where the subscription is in no active set. -/
theorem Removed.of_inactive (blocks : Blocks channels ticks m) {address : Nat}
    (inactive : ∀ g d b, ¬ m.activeSignals.Owns g d b address) :
    Removed channels ticks m address m where
  registry := rfl
  frame := fun _ _ => rfl
  filled := blocks.filled
  owns := by
    intro g d b x
    constructor
    · intro owns
      refine ⟨?_, owns⟩
      rintro rfl
      exact inactive g d b owns
    · exact And.right

/-- A registered subscription is in the set `remove` looks for, or in none. -/
theorem owned_place (blocks : Blocks channels ticks m) {s c group address : Nat}
    {sub : Subscription} (found : m.signalSubscriptionMap.find? s c group = some address)
    (live : m.heap address = some sub) {g d b : Nat}
    (owns : m.activeSignals.Owns g d b address) :
    g = group ∧ d = sub.decimation ∧ b = sub.blocksize := by
  obtain ⟨s', c', found'⟩ := blocks.registered owns
  obtain ⟨sub', live', rate, size⟩ := blocks.member owns
  rw [live] at live'
  cases live'
  exact ⟨(blocks.single found' found).2, rate.symm, size.symm⟩

/-- Where that set is missing there is nothing to do. -/
theorem remove_missing (blocks : Blocks channels ticks m) {s c group address : Nat}
    {sub : Subscription} (found : m.signalSubscriptionMap.find? s c group = some address)
    (live : m.heap address = some sub)
    (missing : m.activeSignals.set? group sub.decimation sub.blocksize = none) :
    Removed channels ticks m address m := by
  apply Removed.of_inactive blocks
  intro g d b owns
  obtain ⟨rfl, rfl, rfl⟩ := blocks.owned_place found live owns
  obtain ⟨set, known, -⟩ := owns
  rw [missing] at known
  cases known

/-- Where the set is there, the subscription leaves it, and no other one leaves. -/
theorem remove_set (blocks : Blocks channels ticks m) {s c group address : Nat}
    {sub : Subscription} (found : m.signalSubscriptionMap.find? s c group = some address)
    (live : m.heap address = some sub) {decimations : DecimationGroup}
    {blocksizes : BlocksizeGroup} {set : SubscriptionSet}
    (first : m.activeSignals[group]? = some decimations)
    (second : decimations[sub.decimation]? = some blocksizes)
    (third : blocksizes.sets[sub.blocksize]? = some set) :
    Removed channels ticks m address
      { m with
        heap := Function.update m.heap address none
        activeSignals := m.activeSignals.eraseFrom group decimations sub.decimation
          blocksizes sub.blocksize set address } := by
  have here : m.activeSignals.set? group sub.decimation sub.blocksize = some set :=
    ActiveSignals.set?_eq_some.mpr ⟨decimations, first, blocksizes, second, third⟩
  have sets := ActiveSignals.set?_eraseFrom sub.blocksize set address first second
  have agree : ∀ x, x ≠ address → Function.update m.heap address none x = m.heap x :=
    fun x away => Function.update_of_ne away _ _
  have owns : ∀ g d b x, ActiveSignals.Owns
      (m.activeSignals.eraseFrom group decimations sub.decimation
        blocksizes sub.blocksize set address) g d b x ↔
      x ≠ address ∧ m.activeSignals.Owns g d b x := by
    intro g d b x
    unfold ActiveSignals.Owns
    rw [sets]
    -- only the set of the subscription gets smaller
    by_cases path : group = g ∧ sub.decimation = d ∧ sub.blocksize = b
    · obtain ⟨rfl, rfl, rfl⟩ := path
      simp only [and_self, if_true, here]
      constructor
      · rintro ⟨set', found', member⟩
        split at found'
        · cases found'
        · cases found'
          obtain ⟨away, old⟩ := SubscriptionSet.mem_erase_iff.mp member
          exact ⟨away, set, rfl, old⟩
      · rintro ⟨away, _, known, member⟩
        cases known
        have stays := SubscriptionSet.mem_erase_iff.mpr ⟨away, member⟩
        refine ⟨{ set with members := set.members.erase address }, ?_, stays⟩
        rw [if_neg]
        -- it is not dropped, as another member is left
        intro empty
        exact TreeSet.isEmpty_iff_forall_not_mem.mp empty x stays
    · rw [if_neg path]
      constructor
      · intro ⟨set', found', member⟩
        refine ⟨?_, set', found', member⟩
        rintro rfl
        obtain ⟨rfl, rfl, rfl⟩ := blocks.owned_place found live ⟨set', found', member⟩
        exact path ⟨rfl, rfl, rfl⟩
      · exact And.right
  refine ⟨rfl, agree, ?_, owns⟩
  intro g d b set' found'
  have away : ∀ x ∈ set'.members, Function.update m.heap address none x = m.heap x := by
    intro x member
    exact agree x ((owns g d b x).mp ⟨set', found', member⟩).1
  simp only [sets] at found'
  split at found'
  case isFalse => exact (blocks.filled g d b set' found').of_agree away
  case isTrue path =>
    obtain ⟨rfl, rfl, rfl⟩ := path
    split at found'
    · cases found'
    · rename_i more
      cases found'
      have filled := blocks.filled _ _ _ _ here
      obtain ⟨taken, ordered, length, times, holds⟩ := filled.filling
      refine ⟨filled.time_length, filled.room, (Bool.not_eq_true _).mp more,
        taken, ordered, length, times, ?_⟩
      intro x member
      exact (holds x (SubscriptionSet.mem_erase_iff.mp member).2).of_eq (away x member)

theorem remove (blocks : Blocks channels ticks m) {s c group address : Nat}
    (found : m.signalSubscriptionMap.find? s c group = some address) :
    ∃ after, m.remove address group = some after ∧
      Removed channels ticks m address after := by
  obtain ⟨sub, live, -⟩ := blocks.live found
  have missing := blocks.remove_missing found live
  unfold SubscriptionManager.remove
  cases first : m.activeSignals[group]? with
  | none => exact ⟨m, rfl, missing (by simp [ActiveSignals.set?, first])⟩
  | some decimations =>
      simp only [live, Option.bind_eq_bind, Option.bind_some]
      cases second : decimations[sub.decimation]? with
      | none => exact ⟨m, rfl, missing (by simp [ActiveSignals.set?, first, second])⟩
      | some blocksizes =>
          cases third : blocksizes.sets[sub.blocksize]? with
          | none =>
              exact ⟨m, by simp only [third],
                missing (by simp [ActiveSignals.set?, first, second, third])⟩
          | some set =>
              simp only [third]
              exact ⟨_, rfl, blocks.remove_set found live first second third⟩

/-- The session stops using a registration whose subscription was removed. -/
theorem of_removed (blocks : Blocks channels ticks m) {s c group address : Nat}
    (found : m.signalSubscriptionMap.find? s c group = some address)
    {after : SubscriptionManager} (removed : Removed channels ticks m address after)
    {registry : SignalSubscriptionMap} {subscribed : TreeSet Nat}
    (same : ∀ s' c' g', registry.find? s' c' g' =
      if s = s' ∧ c = c' ∧ group = g' then none
      else m.signalSubscriptionMap.find? s' c' g') :
    Blocks channels ticks
      { after with signalSubscriptionMap := registry, subscribed := subscribed } := by
  have old : ∀ {s' c' g' a}, registry.find? s' c' g' = some a →
      m.signalSubscriptionMap.find? s' c' g' = some a ∧ a ≠ address := by
    intro s' c' g' a known
    rw [same] at known
    split at known
    · cases known
    · rename_i other
      refine ⟨known, ?_⟩
      rintro rfl
      obtain ⟨rfl, rfl⟩ := blocks.single found known
      exact other ⟨(blocks.keyed found).trans (blocks.keyed known).symm, rfl, rfl⟩
  constructor
  case keyed =>
    intro s' c' g' a known
    exact blocks.keyed (old known).1
  case live =>
    intro s' c' g' a known
    obtain ⟨sub, live, channel⟩ := blocks.live (old known).1
    exact ⟨sub, (removed.frame a (old known).2).trans live, channel⟩
  case single =>
    intro s' c' g' s'' c'' g'' a known known'
    exact blocks.single (old known).1 (old known').1
  case filled =>
    exact removed.filled
  case registered =>
    intro g d b a owns
    obtain ⟨away, owns'⟩ := (removed.owns g d b a).mp owns
    obtain ⟨s', c', known⟩ := blocks.registered owns'
    refine ⟨s', c', ?_⟩
    rw [same, if_neg]
    · exact known
    · rintro ⟨rfl, rfl, rfl⟩
      rw [found] at known
      exact away (Option.some.inj known).symm
  case idle =>
    intro s' c' g' a sub known live none_owns
    refine blocks.idle (old known).1 ((removed.frame a (old known).2).symm.trans live) ?_
    intro d b owns
    exact none_owns d b ((removed.owns g' d b a).mpr ⟨(old known).2, owns⟩)

theorem unsubscribe (blocks : Blocks channels ticks m) (channel group : Nat) :
    ∃ after, m.unsubscribe channels channel group = some after ∧
      Blocks channels ticks after := by
  unfold SubscriptionManager.unsubscribe
  dsimp only
  cases first : m.signalSubscriptionMap[(channels channel).signal]? with
  | none => exact ⟨m, rfl, blocks⟩
  | some channelMap =>
      dsimp only
      cases second : channelMap[channel]? with
      | none => exact ⟨m, rfl, blocks⟩
      | some groups =>
          dsimp only
          cases third : groups[group]? with
          | none => exact ⟨m, rfl, blocks⟩
          | some address =>
              have found := SignalSubscriptionMap.find?_eq_some.mpr
                ⟨channelMap, first, groups, second, third⟩
              obtain ⟨after, ran, removed⟩ := blocks.remove found
              dsimp only
              rw [ran]
              refine ⟨_, rfl, blocks.of_removed found removed ?_⟩
              rw [removed.registry]
              exact SignalSubscriptionMap.find?_eraseFrom group first second

/-- A new subscription is registered where there is none. -/
theorem of_created (blocks : Blocks channels ticks m) {address channel group : Nat}
    (free : m.heap address = none)
    (unused : m.signalSubscriptionMap.find? (channels channel).signal channel group =
      none) {registry : SignalSubscriptionMap} {subscribed : TreeSet Nat}
    (same : ∀ s' c' g', registry.find? s' c' g' =
      if (channels channel).signal = s' ∧ channel = c' ∧ group = g' then some address
      else m.signalSubscriptionMap.find? s' c' g')
    (decimation blocksize : Nat) (base64 : Bool) (precision : Nat) :
    Blocks channels ticks
      { m with
        heap := Function.update m.heap address (some (Subscription.create channels
          channel decimation blocksize base64 precision))
        signalSubscriptionMap := registry, subscribed := subscribed } := by
  have agree : ∀ {x sub}, m.heap x = some sub → Function.update m.heap address
      (some (Subscription.create channels channel decimation blocksize base64
        precision)) x = some sub := by
    intro x sub live
    rw [Function.update_of_ne]
    · exact live
    · rintro rfl
      rw [free] at live
      cases live
  -- the registry has one more entry, the new one
  have split_of : ∀ {s' c' g' a}, registry.find? s' c' g' = some a →
      ((channels channel).signal = s' ∧ channel = c' ∧ group = g' ∧ a = address) ∨
        m.signalSubscriptionMap.find? s' c' g' = some a := by
    intro s' c' g' a known
    rw [same] at known
    split at known
    · rename_i here
      exact .inl ⟨here.1, here.2.1, here.2.2, (Option.some.inj known).symm⟩
    · exact .inr known
  -- no registered subscription lies at the new address
  have other : ∀ {s' c' g' a}, m.signalSubscriptionMap.find? s' c' g' = some a →
      a ≠ address := by
    rintro s' c' g' a known rfl
    obtain ⟨sub, live, -⟩ := blocks.live known
    rw [free] at live
    cases live
  constructor
  case keyed =>
    intro s' c' g' a known
    rcases split_of known with ⟨rfl, rfl, -⟩ | old
    · rfl
    · exact blocks.keyed old
  case live =>
    intro s' c' g' a known
    rcases split_of known with ⟨rfl, rfl, -, rfl⟩ | old
    · exact ⟨_, Function.update_self .., rfl⟩
    · obtain ⟨sub, live, channel⟩ := blocks.live old
      exact ⟨sub, agree live, channel⟩
  case single =>
    intro s' c' g' s'' c'' g'' a known known'
    rcases split_of known with ⟨rfl, rfl, rfl, rfl⟩ | old
    · rcases split_of known' with ⟨rfl, rfl, rfl, -⟩ | old'
      · exact ⟨rfl, rfl⟩
      · exact absurd rfl (other old')
    · rcases split_of known' with ⟨rfl, rfl, rfl, rfl⟩ | old'
      · exact absurd rfl (other old)
      · exact blocks.single old old'
  case filled =>
    intro g d b set found
    refine (blocks.filled g d b set found).of_agree ?_
    intro x member
    obtain ⟨sub, live, -⟩ := blocks.member ⟨set, found, member⟩
    exact (agree live).trans live.symm
  case registered =>
    intro g d b a owns
    obtain ⟨s', c', known⟩ := blocks.registered owns
    refine ⟨s', c', ?_⟩
    rw [same, if_neg]
    · exact known
    · rintro ⟨rfl, rfl, rfl⟩
      rw [unused] at known
      cases known
  case idle =>
    intro s' c' g' a sub known live none_owns
    rcases split_of known with ⟨rfl, rfl, rfl, rfl⟩ | old
    · dsimp only at live
      rw [Function.update_self] at live
      cases live
      exact Filled.of_create _ _ _ _ _ _
    · refine blocks.idle old ?_ none_owns
      rw [← live]
      exact (Function.update_of_ne (other old) _ _).symm

theorem subscribe (blocks : Blocks channels ticks m)
    (channel group decimation blocksize : Nat) (base64 : Bool) (precision : Nat)
    {address : Nat} (free : m.heap address = none) (activates : Bool) :
    ∃ after, m.subscribe channels channel group decimation blocksize base64 precision
        address activates = some after ∧ Blocks channels ticks after := by
  -- First the old subscription goes, if there is one, then the new one comes.
  have created : ∃ middle, m.removeOld channels channel group = some middle ∧
      ∀ subscribed, Blocks channels ticks
        { middle with
          heap := Function.update middle.heap address (some (Subscription.create
            channels channel decimation blocksize base64 precision))
          signalSubscriptionMap := middle.signalSubscriptionMap.assign
            (channels channel).signal channel group address
          subscribed := subscribed } := by
    unfold SubscriptionManager.removeOld
    cases known : m.signalSubscriptionMap.find? (channels channel).signal channel
        group with
    | none =>
        refine ⟨m, rfl, fun subscribed => ?_⟩
        apply blocks.of_created free known
        exact m.signalSubscriptionMap.find?_assign _ channel group address
    | some old =>
        obtain ⟨middle, ran, removed⟩ := blocks.remove known
        obtain ⟨channelMap, first, groups, second, -⟩ :=
          SignalSubscriptionMap.find?_eq_some.mp known
        have erased := SignalSubscriptionMap.find?_eraseFrom group first second
        refine ⟨middle, ran, fun subscribed => ?_⟩
        have rest : Blocks channels ticks
            { middle with
              signalSubscriptionMap := (m.signalSubscriptionMap.eraseFrom
                (channels channel).signal channelMap channel groups group).1
              subscribed := subscribed } := blocks.of_removed known removed erased
        have free' : middle.heap address = none := by
          rw [removed.frame address]
          · exact free
          · rintro rfl
            obtain ⟨sub, live, -⟩ := blocks.live known
            rw [free] at live
            cases live
        have unused := erased (channels channel).signal channel group
        simp only [and_self, if_true] at unused
        apply rest.of_created free' unused
        intro s' c' g'
        rw [removed.registry, SignalSubscriptionMap.find?_assign, erased]
        split <;> rfl
  obtain ⟨middle, ran, after⟩ := created
  unfold SubscriptionManager.subscribe
  simp only [ran, Option.bind_eq_bind, Option.bind_some]
  cases activates with
  | false => exact ⟨_, rfl, after _⟩
  | true => exact (after _).newSignal _

theorem delete_groups {groups : SubscriptionGroup} (heap : Heap)
    (unique : ∀ g g' a : Nat, groups[g]? = some a → groups[g']? = some a → g = g')
    (live : ∀ g a : Nat, groups[g]? = some a → (heap a).isSome) :
    ∃ after, forEach (fun _ address heap => SubscriptionManager.delete heap address)
        groups heap = some after ∧
      ∀ a, (∀ g : Nat, groups[g]? ≠ some a) → after a = heap a := by
  obtain ⟨after, ran, frame⟩ := forEach_deletes groups
    (fun _ address heap => SubscriptionManager.delete heap address)
    (fun heap => heap) (fun address a => address = a) heap
    (by
      rintro g g' left right a there there' rfl rfl
      exact unique g g' _ there there')
    (by
      intro g address heap there alive
      refine ⟨Function.update heap address none, ?_, ?_⟩
      · rw [SubscriptionManager.delete, if_pos (alive address rfl)]
      · intro other apart
        exact Function.update_of_ne (Ne.symm apart) _ _)
    (by
      rintro g address there a rfl
      exact live g address there)
  refine ⟨after, ran, ?_⟩
  intro a away
  apply frame
  rintro g address there rfl
  exact away g there

theorem delete_channels {channelMap : ChannelSubscriptionMap} (signal : Nat)
    (state : Heap × TreeSet Nat)
    (unique : ∀ (c c' : Nat) (groups groups' : SubscriptionGroup) (g g' a : Nat),
      channelMap[c]? = some groups → groups[g]? = some a →
      channelMap[c']? = some groups' → groups'[g']? = some a → c = c' ∧ g = g')
    (live : ∀ (c : Nat) (groups : SubscriptionGroup) (g a : Nat),
      channelMap[c]? = some groups → groups[g]? = some a → (state.1 a).isSome) :
    ∃ after, forEach (fun _ groups (state : Heap × TreeSet Nat) => do
        let heap ← forEach (fun _ address heap => SubscriptionManager.delete heap address)
          groups state.1
        some (heap, state.2.erase signal)) channelMap state = some after ∧
      ∀ a, (∀ (c : Nat) (groups : SubscriptionGroup) (g : Nat),
          channelMap[c]? = some groups → groups[g]? ≠ some a) →
        after.1 a = state.1 a := by
  obtain ⟨after, ran, frame⟩ := forEach_deletes channelMap
    (fun _ groups (state : Heap × TreeSet Nat) => do
      let heap ← forEach
        (fun _ address heap => SubscriptionManager.delete heap address) groups state.1
      some (heap, state.2.erase signal))
    (fun state => state.1)
    (fun (groups : SubscriptionGroup) a => ∃ g : Nat, groups[g]? = some a) state
    (by
      rintro c c' left right a found found' ⟨g, there⟩ ⟨g', there'⟩
      exact (unique c c' left right g g' a found there found' there').1)
    (by
      intro c groups now found alive
      obtain ⟨heap, deleted, frame⟩ := delete_groups now.1
        (fun g g' a there there' => (unique c c groups groups g g' a found there found there').2)
        (fun g a there => alive a ⟨g, there⟩)
      refine ⟨(heap, now.2.erase signal), ?_, ?_⟩
      · rw [deleted]
        rfl
      · intro a away
        exact frame a fun g there => away ⟨g, there⟩)
    (by
      rintro c groups found a ⟨g, there⟩
      exact live c groups g a found there)
  refine ⟨after, ran, ?_⟩
  intro a away
  apply frame
  rintro c groups found ⟨g, there⟩
  exact away c groups g found there

/-- Every registered subscription is live and registered once, so each is deleted once. -/
theorem clear (blocks : Blocks channels ticks m) :
    ∃ after, m.clear = some after ∧ Blocks channels ticks after := by
  have registered : ∀ {s c g a : Nat} {channelMap : ChannelSubscriptionMap}
      {groups : SubscriptionGroup}, m.signalSubscriptionMap[s]? = some channelMap →
      channelMap[c]? = some groups → groups[g]? = some a →
      m.signalSubscriptionMap.find? s c g = some a := by
    intro s c g a channelMap groups first second there
    exact SignalSubscriptionMap.find?_eq_some.mpr ⟨channelMap, first, groups, second, there⟩
  obtain ⟨⟨heap, subscribed⟩, ran, -⟩ := forEach_deletes m.signalSubscriptionMap
    (fun signal channelMap state => forEach
      (fun _ groups (state : Heap × TreeSet Nat) => do
        let heap ← forEach (fun _ address heap => SubscriptionManager.delete heap address)
          groups state.1
        some (heap, state.2.erase signal)) channelMap state)
    (fun state => state.1)
    (fun (channelMap : ChannelSubscriptionMap) a => ∃ (c : Nat) (groups : SubscriptionGroup),
      channelMap[c]? = some groups ∧ ∃ g : Nat, groups[g]? = some a)
    (m.heap, m.subscribed)
    (by
      rintro s s' left right a first first' ⟨c, groups, second, g, there⟩
        ⟨c', groups', second', g', there'⟩
      have found := registered first second there
      have found' := registered first' second' there'
      rw [blocks.keyed found, blocks.keyed found', (blocks.single found found').1])
    (by
      intro s channelMap now first alive
      obtain ⟨after, deleted, frame⟩ := delete_channels s now
        (fun c c' groups groups' g g' a second there second' there' =>
          blocks.single (registered first second there) (registered first second' there'))
        (fun c groups g a second there => alive a ⟨c, groups, second, g, there⟩)
      refine ⟨after, deleted, ?_⟩
      intro a away
      apply frame
      intro c groups g second there
      exact away ⟨c, groups, second, g, there⟩)
    (by
      rintro s channelMap first a ⟨c, groups, second, g, there⟩
      obtain ⟨sub, live, -⟩ := blocks.live (registered first second there)
      exact Option.isSome_iff_exists.mpr ⟨sub, live⟩)
  refine ⟨{ heap := heap, subscribed := subscribed }, ?_, of_empty heap subscribed⟩
  unfold SubscriptionManager.clear
  rw [ran]
  rfl

/-- One action: it cannot fail, and it keeps `Blocks`. -/
theorem step (blocks : Blocks channels ticks m) (action : SubscriptionManager.Action)
    (allowed : m.Allowed action) :
    ∃ after printed, m.step channels action = some (after, printed) ∧
      Blocks channels (ticks ++ processed [action]) after ∧
      ∀ element ∈ printed,
        element.Coherent channels (ticks ++ processed [action]) := by
  cases action with
  | subscribe channel group decimation blocksize base64 precision address activates =>
      obtain ⟨after, ran, holds⟩ := blocks.subscribe channel group decimation blocksize
        base64 precision allowed activates
      refine ⟨after, [], ?_, ?_, by simp⟩
      · rw [SubscriptionManager.step, ran]
        rfl
      · simpa [processed] using holds
  | unsubscribe channel group =>
      obtain ⟨after, ran, holds⟩ := blocks.unsubscribe channel group
      refine ⟨after, [], ?_, ?_, by simp⟩
      · rw [SubscriptionManager.step, ran]
        rfl
      · simpa [processed] using holds
  | clear =>
      obtain ⟨after, ran, holds⟩ := blocks.clear
      refine ⟨after, [], ?_, ?_, by simp⟩
      · rw [SubscriptionManager.step, ran]
        rfl
      · simpa [processed] using holds
  | sync =>
      obtain ⟨after, ran, holds⟩ := blocks.sync
      refine ⟨after, [], ?_, ?_, by simp⟩
      · rw [SubscriptionManager.step, ran]
        rfl
      · simpa [processed] using holds
  | newSignal signal =>
      obtain ⟨after, ran, holds⟩ := blocks.newSignal signal
      refine ⟨after, [], ?_, ?_, by simp⟩
      · rw [SubscriptionManager.step, ran]
        rfl
      · simpa [processed] using holds
  | rxPdo quiet tick =>
      cases quiet with
      | true => exact ⟨m, [], rfl, by simpa [processed] using blocks, by simp⟩
      | false => exact blocks.rxPdo tick

end Blocks

theorem processed_append (front back : List SubscriptionManager.Action) :
    processed (front ++ back) = processed front ++ processed back := by
  induction front with
  | nil => rfl
  | cons action rest ih =>
      cases action with
      | rxPdo quiet tick => cases quiet <;> simp [processed, ih]
      | _ => simp [processed, ih]

theorem DataElement.Coherent.mono {ticks : List Tick} {element : DataElement}
    (coherent : element.Coherent channels ticks) (later : List Tick) :
    element.Coherent channels (ticks ++ later) := by
  unfold DataElement.Coherent at coherent ⊢
  split
  · rename_i event
    rwa [if_pos event] at coherent
  · rename_i block
    rw [if_neg block] at coherent
    obtain ⟨taken, sub, rest⟩ := coherent
    exact ⟨taken, sub.trans (List.sublist_append_left _ _), rest⟩

theorem ManagerRun.blocks {actions : List SubscriptionManager.Action}
    {m : SubscriptionManager} {out : List DataElement}
    (run : ManagerRun channels actions m out) :
    Blocks channels (processed actions) m ∧
      ∀ element ∈ out, element.Coherent channels (processed actions) := by
  induction run with
  | start => exact ⟨Blocks.of_empty _ _, by simp⟩
  | step action _ allowed ran ih =>
      obtain ⟨blocks, coherent⟩ := ih
      obtain ⟨after, printed, ran', holds, good⟩ := blocks.step action allowed
      rw [ran] at ran'
      cases ran'
      rw [processed_append]
      refine ⟨holds, ?_⟩
      intro element member
      cases List.mem_append.mp member with
      | inl old => exact (coherent element old).mono _
      | inr new => exact good element new

theorem Datum.Holds.block_eq {ticks : List Tick} {datum : Datum}
    (holds : datum.Holds channels ticks) (k : Nat) (inside : k < ticks.length) :
    datum.block (channels datum.c).memSize k =
      (ticks[k]).sample (channels datum.c) := by
  obtain ⟨-, bytes⟩ := holds
  unfold Datum.block
  rw [bytes]
  clear bytes
  induction ticks generalizing k with
  | nil => simp at inside
  | cons tick rest ih =>
      have size := tick.sample_length (channels datum.c)
      cases k with
      | zero =>
          simp only [Nat.zero_mul, List.drop_zero, List.map_cons, List.flatten_cons,
            List.getElem_cons_zero]
          exact List.take_left' size
      | succ k =>
          have skip : (k + 1) * (channels datum.c).memSize =
              (tick.sample (channels datum.c)).length +
                k * (channels datum.c).memSize := by
            rw [size, Nat.add_mul, Nat.one_mul, Nat.add_comm]
          simp only [List.map_cons, List.flatten_cons, List.getElem_cons_succ]
          rw [skip, List.drop_append]
          simp only [Nat.add_sub_cancel_left, List.drop_of_length_le (Nat.le_add_right _ _),
            List.nil_append]
          exact ih k (by simpa using inside)

/-- In every run no step leaves a buffer or a time array, and every `<F>`
element of a block group of `b` entries holds `b` blocks, the `k`-th of them
sampled in the tick whose stamp is the `k`-th entry of the time channel. -/
theorem ManagerRun.data_blocks {actions : List SubscriptionManager.Action}
    {m : SubscriptionManager} {out : List DataElement}
    (run : ManagerRun channels actions m out) :
    (∀ action, m.Allowed action →
      ∃ after printed, m.step channels action = some (after, printed)) ∧
    ∀ element ∈ out,
      (element.blocksize = 0 → ∀ datum ∈ element.datums, datum.name = .E) ∧
      (element.blocksize ≠ 0 → ∃ taken : List Tick,
        taken.Sublist (processed actions) ∧ taken.length = element.blocksize ∧
        element.time = taken.map (fun tick => some tick.nanoseconds) ∧
        ∀ datum ∈ element.datums, datum.name = .F ∧
          datum.nblocks = element.blocksize ∧
          datum.d.length = element.blocksize * (channels datum.c).memSize ∧
          ∀ (k : Nat) (inside : k < taken.length),
            datum.block (channels datum.c).memSize k =
              (taken[k]).sample (channels datum.c)) := by
  obtain ⟨blocks, coherent⟩ := run.blocks
  constructor
  · intro action allowed
    obtain ⟨after, printed, ran, -⟩ := blocks.step action allowed
    exact ⟨after, printed, ran⟩
  · intro element member
    have each := coherent element member
    unfold DataElement.Coherent at each
    constructor
    · intro event
      rwa [if_pos event] at each
    · intro block
      rw [if_neg block] at each
      obtain ⟨taken, sub, length, time, datums⟩ := each
      refine ⟨taken, sub, length, time, ?_⟩
      intro datum inside
      obtain ⟨name, holds⟩ := datums datum inside
      refine ⟨name, holds.1.trans length, ?_, holds.block_eq⟩
      have sizes : ∀ list : List Tick,
          ((list.map (Tick.sample · (channels datum.c))).flatten).length =
            list.length * (channels datum.c).memSize := by
        intro list
        induction list with
        | nil => simp
        | cons tick rest ih =>
            simp only [List.map_cons, List.flatten_cons, List.length_append, ih,
              Tick.sample_length, List.length_cons, Nat.add_mul, Nat.one_mul]
            omega
      rw [holds.2, sizes, length]

/-- Two ticks with a block group of two entries. -/
theorem ManagerRun.data_blocks_of_twoTicks :
    ∃ m out, ManagerRun (fun _ => ⟨0, 0, 1⟩)
        [.subscribe 0 1 1 2 false 16 0 true, .rxPdo false ⟨1, 2, fun _ _ => 7⟩,
          .rxPdo false ⟨1, 5, fun _ _ => 8⟩] m out ∧
      out.map (fun element => (element.time, element.datums.map Datum.d)) =
        [([some 1000000002, some 1000000005], [[7, 8]])] ∧
      ∀ element ∈ out, element.blocksize ≠ 0 →
        ∃ taken : List Tick, taken.length = element.blocksize := by
  have run : ∃ m out, ManagerRun (fun _ => ⟨0, 0, 1⟩)
      [.subscribe 0 1 1 2 false 16 0 true, .rxPdo false ⟨1, 2, fun _ _ => 7⟩,
        .rxPdo false ⟨1, 5, fun _ _ => 8⟩] m out ∧
      out.map (fun element => (element.time, element.datums.map Datum.d)) =
        [([some 1000000002, some 1000000005], [[7, 8]])] :=
    ⟨_, _, .step (.rxPdo false ⟨1, 5, fun _ _ => 8⟩)
      (.step (.rxPdo false ⟨1, 2, fun _ _ => 7⟩)
        (.step (.subscribe 0 1 1 2 false 16 0 true) .start rfl rfl) trivial rfl)
      trivial rfl, rfl⟩
  obtain ⟨m, out, run, printed⟩ := run
  refine ⟨m, out, run, printed, ?_⟩
  intro element member block
  obtain ⟨taken, -, length, -⟩ := (run.data_blocks.2 element member).2 block
  exact ⟨taken, length⟩

end PdServ
