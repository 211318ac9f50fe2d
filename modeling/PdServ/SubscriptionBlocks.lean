import PdServ.SubscriptionManager

/-!
The blocks of a subscription and the time array of its group. While a block
group fills up, its time array holds the stamps of the ticks taken so far, and
each member holds the samples of the last `nblocks` of these ticks. The state
between two actions is described by `Filled` for one subscription,
`SetFilled` for one blocksize group and `Blocks` for the whole manager.
-/

namespace PdServ

open Std TreeUpdate

/-- What never changes in a subscription after it was created. -/
def Subscription.SameOrder (s after : Subscription) : Prop :=
  after.channel = s.channel ∧ after.decimation = s.decimation ∧
    after.blocksize = s.blocksize

/-- The subscription holds the samples of the last `nblocks` of `ticks`. -/
structure Filled (channels : Nat → Channel) (ticks : List Tick)
    (s : Subscription) : Prop where
  buffer : s.data.length = entries s.blocksize * (channels s.channel).memSize
  offset : s.bufferOffset = (channels s.channel).offset
  few : s.nblocks ≤ ticks.length
  pointer : s.data_pptr = s.nblocks * (channels s.channel).memSize
  held : s.data.take s.data_pptr =
    ((ticks.drop (ticks.length - s.nblocks)).map
      (Tick.sample · (channels s.channel))).flatten

variable {channels : Nat → Channel}

theorem Subscription.SameOrder.refl (s : Subscription) : s.SameOrder s :=
  ⟨rfl, rfl, rfl⟩

theorem Subscription.SameOrder.trans {s t u : Subscription}
    (first : s.SameOrder t) (second : t.SameOrder u) : s.SameOrder u :=
  ⟨second.1.trans first.1, second.2.1.trans first.2.1,
    second.2.2.trans first.2.2⟩

theorem Tick.sample_length (tick : Tick) (channel : Channel) :
    (tick.sample channel).length = channel.memSize := by
  simp [Tick.sample]

theorem entries_of_block {blocksize : Nat} (block : blocksize ≠ 0) :
    entries blocksize = blocksize := by
  simp [entries, block]

theorem entries_pos (blocksize : Nat) : 0 < entries blocksize := by
  unfold entries
  split <;> omega

/-- An empty subscription fits any ticks. -/
theorem Filled.of_empty {ticks : List Tick} {s : Subscription}
    (filled : Filled channels ticks s) (empty : s.nblocks = 0)
    (others : List Tick) : Filled channels others s where
  buffer := filled.buffer
  offset := filled.offset
  few := by omega
  pointer := filled.pointer
  held := by simp [filled.pointer, empty]

/-- A new subscription, and one that was printed or reset, is empty. -/
theorem Filled.emptied {ticks : List Tick} {s : Subscription}
    (filled : Filled channels ticks s) (others : List Tick) :
    Filled channels others s.reset where
  buffer := filled.buffer
  offset := filled.offset
  few := Nat.zero_le _
  pointer := by simp [Subscription.reset]
  held := by simp [Subscription.reset]

theorem Filled.of_create (c decimation blocksize : Nat) (base64 : Bool)
    (precision : Nat) (ticks : List Tick) : Filled channels ticks
      (Subscription.create channels c decimation blocksize base64 precision) where
  buffer := by simp [Subscription.create]
  offset := rfl
  few := Nat.zero_le _
  pointer := by simp [Subscription.create]
  held := by simp [Subscription.create]

/-- Storing the sample of one more tick, where the buffer has room. -/
theorem Filled.store {ticks : List Tick} {s : Subscription}
    (filled : Filled channels ticks s) (room : s.nblocks < entries s.blocksize)
    (tick : Tick) :
    ∃ after, s.store (tick.sample (channels s.channel)) = some after ∧
      s.SameOrder after ∧ after.nblocks = s.nblocks + 1 ∧
      Filled channels (ticks ++ [tick]) after := by
  have size := tick.sample_length (channels s.channel)
  have last : (s.nblocks + 1) * (channels s.channel).memSize ≤ s.data.length := by
    rw [filled.buffer]
    exact Nat.mul_le_mul_right _ room
  have fits : s.data_pptr + (tick.sample (channels s.channel)).length ≤
      s.data.length := by
    rw [size, filled.pointer]
    rw [Nat.add_mul, Nat.one_mul] at last
    exact last
  have front : (s.data.take s.data_pptr).length = s.data_pptr := by
    rw [List.length_take]
    omega
  unfold Subscription.store
  rw [if_pos fits]
  refine ⟨_, rfl, ⟨rfl, rfl, rfl⟩, rfl, ?_⟩
  constructor
  case buffer =>
    simp only [List.length_append, List.length_drop, front]
    rw [← filled.buffer]
    omega
  case offset =>
    exact filled.offset
  case few =>
    simpa using filled.few
  case pointer =>
    simp only [size, filled.pointer, Nat.add_mul, Nat.one_mul]
  case held =>
    -- The buffer now starts with the old blocks followed by the new one.
    have enough := filled.few
    have begins : (s.data.take s.data_pptr ++ tick.sample (channels s.channel) ++
        s.data.drop (s.data_pptr + (tick.sample (channels s.channel)).length)).take
          (s.data_pptr + (tick.sample (channels s.channel)).length) =
        s.data.take s.data_pptr ++ tick.sample (channels s.channel) := by
      apply List.take_left'
      rw [List.length_append, front]
    rw [begins, filled.held]
    have length : (ticks ++ [tick]).length - (s.nblocks + 1) =
        ticks.length - s.nblocks := by
      simp
    rw [length, List.drop_append_of_le_length (by omega)]
    simp

theorem Subscription.newValue_spec {ticks : List Tick} {s : Subscription}
    (filled : Filled channels ticks s) (room : ticks.length < entries s.blocksize)
    (tick : Tick) :
    ∃ taken after,
      s.newValue channels (tick.getValue (channels s.channel).signal) =
        some (taken, after) ∧
      s.SameOrder after ∧ Filled channels (ticks ++ [tick]) after ∧
      (s.blocksize ≠ 0 → taken = true) ∧
      (s.blocksize = 0 → taken = false → after.nblocks = 0) := by
  have few := filled.few
  have value : ((List.range (channels s.channel).memSize).map fun i =>
      tick.getValue (channels s.channel).signal (s.bufferOffset + i)) =
      tick.sample (channels s.channel) := by
    rw [filled.offset]
    rfl
  simp only [Subscription.newValue, value]
  by_cases event : s.blocksize = 0
  · rw [if_pos event]
    have none_held : s.nblocks = 0 := by
      simp only [entries, event] at room
      simp at room
      simp [room] at few
      exact few
    split
    · refine ⟨false, _, rfl, ⟨rfl, rfl, rfl⟩, ?_, by simp [event], fun _ _ => none_held⟩
      constructor
      · exact filled.buffer
      · exact filled.offset
      · simp [none_held]
      · exact filled.pointer
      · simp [filled.pointer, none_held]
    · have ready : Filled channels ticks { s with trigger := s.trigger_start } :=
        ⟨filled.buffer, filled.offset, filled.few, filled.pointer, filled.held⟩
      obtain ⟨after, stored, same, -, held⟩ := ready.store
        (show s.nblocks < entries s.blocksize by omega) tick
      refine ⟨true, after, ?_, same, held, by simp, by simp⟩
      simp only [] at stored
      rw [stored]
      rfl
  · rw [if_neg event]
    obtain ⟨after, stored, same, -, held⟩ := filled.store
      (show s.nblocks < entries s.blocksize by omega) tick
    refine ⟨true, after, ?_, same, held, by simp, by simp [event]⟩
    rw [stored]
    rfl

/-- What a printed `<F>` element holds: the samples of `ticks`, in order. -/
def Datum.Holds (channels : Nat → Channel) (ticks : List Tick) (datum : Datum) :
    Prop :=
  datum.nblocks = ticks.length ∧
    datum.d = (ticks.map (Tick.sample · (channels datum.c))).flatten

theorem Subscription.print_spec {ticks : List Tick} {s : Subscription}
    (filled : Filled channels ticks s) (small : ticks.length ≤ entries s.blocksize)
    (full : s.blocksize ≠ 0 → ticks.length = s.blocksize) :
    ∃ datum, s.print channels = some (datum, s.reset) ∧
      ∀ printed, datum = some printed →
        if s.blocksize = 0 then printed.name = .E
        else printed.name = .F ∧ printed.Holds channels ticks := by
  have few := filled.few
  simp only [Subscription.print]
  by_cases complete : s.blocksize ≤ s.nblocks
  · have fits : s.nblocks * (channels s.channel).memSize ≤ s.data.length := by
      rw [filled.buffer]
      exact Nat.mul_le_mul_right _ (by omega)
    rw [if_pos complete, if_pos fits]
    refine ⟨_, rfl, ?_⟩
    intro printed same
    cases same
    by_cases event : s.blocksize = 0
    · simp [event]
    · have all := full event
      have count : s.nblocks = ticks.length := by omega
      have held := filled.held
      rw [filled.pointer, count, Nat.sub_self, List.drop_zero] at held
      simp only [if_neg event]
      exact ⟨trivial, count, by rw [count]; exact held⟩
  · rw [if_neg complete]
    exact ⟨none, rfl, by simp⟩

/-- A live subscription of decimation and blocksize that holds samples of
`ticks`. -/
def Heap.Holds (channels : Nat → Channel) (heap : Heap) (ticks : List Tick)
    (decimation blocksize address : Nat) : Prop :=
  ∃ s, heap address = some s ∧ s.decimation = decimation ∧
    s.blocksize = blocksize ∧ Filled channels ticks s

/-- The subscriptions of two heaps are the same up to what they hold; outside
of `changed` the heaps are equal. -/
def Heap.Changes (changed : Nat → Prop) (heap after : Heap) : Prop :=
  (∀ address, ¬ changed address → after address = heap address) ∧
    ∀ address s, heap address = some s →
      ∃ s', after address = some s' ∧ s.SameOrder s'

theorem Heap.Changes.refl (changed : Nat → Prop) (heap : Heap) :
    heap.Changes changed heap :=
  ⟨fun _ _ => rfl, fun _ s found => ⟨s, found, .refl s⟩⟩

theorem Heap.Changes.trans {first second : Nat → Prop} {heap middle after : Heap}
    (left : heap.Changes first middle) (right : middle.Changes second after) :
    heap.Changes (fun address => first address ∨ second address) after := by
  constructor
  · intro address away
    rw [right.1 address (away ∘ .inr), left.1 address (away ∘ .inl)]
  · intro address s found
    obtain ⟨s', found', same⟩ := left.2 address s found
    obtain ⟨s'', found'', same'⟩ := right.2 address s' found'
    exact ⟨s'', found'', same.trans same'⟩

theorem Heap.Changes.mono {small large : Nat → Prop} {heap after : Heap}
    (changes : heap.Changes small after) (more : ∀ a, small a → large a) :
    heap.Changes large after :=
  ⟨fun address away => changes.1 address (away ∘ more address), changes.2⟩

theorem Heap.Changes.update {heap : Heap} {address : Nat} {s s' : Subscription}
    (found : heap address = some s) (same : s.SameOrder s') :
    heap.Changes (· = address) (Function.update heap address (some s')) := by
  constructor
  · intro other away
    exact Function.update_of_ne away _ _
  · intro other t live
    by_cases here : other = address
    · subst here
      rw [found] at live
      cases live
      exact ⟨s', Function.update_self .., same⟩
    · exact ⟨t, by rw [Function.update_of_ne here]; exact live, .refl t⟩

theorem Heap.Holds.of_eq {heap after : Heap} {ticks : List Tick}
    {decimation blocksize address : Nat}
    (holds : heap.Holds channels ticks decimation blocksize address)
    (same : after address = heap address) :
    after.Holds channels ticks decimation blocksize address := by
  obtain ⟨s, found, rest⟩ := holds
  exact ⟨s, by rw [same]; exact found, rest⟩

namespace SubscriptionManager

/-- After the first loop every member holds the new tick as well. In a block
group the chain is all or nothing; in an event group who is not chained has
nothing to print. -/
theorem takeValues_spec {ticks : List Tick} {decimation blocksize : Nat}
    (room : ticks.length < entries blocksize) (tick : Tick) (print : Bool)
    {members : List Nat} (distinct : members.Nodup) {heap : Heap}
    (holds : ∀ address ∈ members,
      heap.Holds channels ticks decimation blocksize address) :
    ∃ printQ after, takeValues channels tick (blocksize == 0) print members heap =
        some (printQ, after) ∧
      heap.Changes (· ∈ members) after ∧ printQ.Sublist members ∧
      (∀ address ∈ members,
        after.Holds channels (ticks ++ [tick]) decimation blocksize address) ∧
      (blocksize ≠ 0 → printQ = if print then members else []) ∧
      (blocksize = 0 → ∀ address ∈ members, address ∉ printQ →
        after.Holds channels [] decimation blocksize address) := by
  induction members generalizing heap with
  | nil =>
      exact ⟨[], heap, rfl, .refl _ _, List.Sublist.refl _, by simp, by simp, by simp⟩
  | cons address rest ih =>
      have away := (List.nodup_cons.mp distinct).1
      obtain ⟨s, found, dec, size, filled⟩ := holds address List.mem_cons_self
      subst size
      obtain ⟨taken, s', ran, same, now, block, event⟩ :=
        Subscription.newValue_spec filled room tick
      -- the members are different subscriptions, so the others stay as they are
      have left : ∀ other ∈ rest, Heap.Holds channels
          (Function.update heap address (some s')) ticks decimation s.blocksize other :=
        fun other member => (holds other (List.mem_cons_of_mem _ member)).of_eq
          (Function.update_of_ne (ne_of_mem_of_not_mem member away) _ _)
      obtain ⟨printQ, after, rest_ran, changes, sub, later, queue, idle⟩ := ih
        (List.nodup_cons.mp distinct).2
        left
      have kept : after address = some s' := by
        rw [changes.1 address away, Function.update_self]
      have here : after.Holds channels (ticks ++ [tick]) decimation s.blocksize
          address := ⟨s', kept, same.2.1.trans dec, same.2.2, now⟩
      refine ⟨if (taken && s.blocksize == 0) || print then address :: printQ else printQ,
        after, ?_, ?_, ?_, ?_, ?_, ?_⟩
      · simp only [takeValues, found, ran, rest_ran, Option.bind_eq_bind,
          Option.bind_some]
      · refine ((Heap.Changes.update found same).trans changes).mono ?_
        intro a member
        exact List.mem_cons.mpr member
      · split
        · exact sub.cons_cons address
        · exact sub.cons address
      · intro other member
        cases List.mem_cons.mp member with
        | inl eq => exact eq ▸ here
        | inr member => exact later other member
      · intro isBlock
        rw [queue isBlock]
        have noEvent : (s.blocksize == 0) = false := by simpa using isBlock
        rw [noEvent]
        cases print <;> simp
      · intro isEvent other member out
        have flag : (s.blocksize == 0) = true := by simpa using isEvent
        rw [flag] at out
        cases List.mem_cons.mp member with
        | inl eq =>
            subst eq
            -- who is not chained had no new value
            have refused : taken = false := by
              cases taken with
              | false => rfl
              | true => simp at out
            exact ⟨s', kept, same.2.1.trans dec, same.2.2,
              now.of_empty (event isEvent refused) []⟩
        | inr member =>
            apply idle isEvent other member
            intro queued
            apply out
            split
            · exact List.mem_cons_of_mem _ queued
            · exact queued

theorem printValues_spec {ticks : List Tick} {decimation blocksize : Nat}
    (small : ticks.length ≤ entries blocksize)
    (full : blocksize ≠ 0 → ticks.length = blocksize)
    {printQ : List Nat} (distinct : printQ.Nodup) {heap : Heap}
    (holds : ∀ address ∈ printQ,
      heap.Holds channels ticks decimation blocksize address) :
    ∃ datums after, printValues channels printQ heap = some (datums, after) ∧
      heap.Changes (· ∈ printQ) after ∧
      (∀ address ∈ printQ,
        after.Holds channels [] decimation blocksize address) ∧
      ∀ datum ∈ datums, if blocksize = 0 then datum.name = .E
        else datum.name = .F ∧ datum.Holds channels ticks := by
  induction printQ generalizing heap with
  | nil => exact ⟨[], heap, rfl, .refl _ _, by simp, by simp⟩
  | cons address rest ih =>
      have away := (List.nodup_cons.mp distinct).1
      obtain ⟨s, found, dec, size, filled⟩ := holds address List.mem_cons_self
      subst size
      obtain ⟨datum, ran, good⟩ := Subscription.print_spec filled small full
      have same : s.SameOrder s.reset := ⟨rfl, rfl, rfl⟩
      have left : ∀ other ∈ rest, Heap.Holds channels
          (Function.update heap address (some s.reset)) ticks decimation s.blocksize
          other :=
        fun other member => (holds other (List.mem_cons_of_mem _ member)).of_eq
          (Function.update_of_ne (ne_of_mem_of_not_mem member away) _ _)
      obtain ⟨datums, after, rest_ran, changes, later, each⟩ := ih
        (List.nodup_cons.mp distinct).2
        left
      have kept : after address = some s.reset := by
        rw [changes.1 address away, Function.update_self]
      refine ⟨datum.toList ++ datums, after, ?_, ?_, ?_, ?_⟩
      · simp only [printValues, found, ran, rest_ran, Option.bind_eq_bind,
          Option.bind_some]
      · refine ((Heap.Changes.update found same).trans changes).mono ?_
        intro a member
        exact List.mem_cons.mpr member
      · intro other member
        cases List.mem_cons.mp member with
        | inl eq => exact eq ▸ ⟨s.reset, kept, dec, rfl, filled.emptied []⟩
        | inr member => exact later other member
      · intro printed member
        cases List.mem_append.mp member with
        | inl first => exact good printed (by simpa using first)
        | inr rest => exact each printed rest

theorem resetMembers_spec {ticks : List Tick} {decimation blocksize : Nat}
    {members : List Nat} (distinct : members.Nodup) {heap : Heap}
    (holds : ∀ address ∈ members,
      heap.Holds channels ticks decimation blocksize address) :
    ∃ after, resetMembers members heap = some after ∧
      heap.Changes (· ∈ members) after ∧
      ∀ address ∈ members,
        after.Holds channels [] decimation blocksize address := by
  induction members generalizing heap with
  | nil => exact ⟨heap, rfl, .refl _ _, by simp⟩
  | cons address rest ih =>
      have away := (List.nodup_cons.mp distinct).1
      obtain ⟨s, found, dec, size, filled⟩ := holds address List.mem_cons_self
      have same : s.SameOrder s.reset := ⟨rfl, rfl, rfl⟩
      have left : ∀ other ∈ rest, Heap.Holds channels
          (Function.update heap address (some s.reset)) ticks decimation blocksize
          other :=
        fun other member => (holds other (List.mem_cons_of_mem _ member)).of_eq
          (Function.update_of_ne (ne_of_mem_of_not_mem member away) _ _)
      obtain ⟨after, rest_ran, changes, later⟩ := ih
        (List.nodup_cons.mp distinct).2
        left
      have kept : after address = some s.reset := by
        rw [changes.1 address away, Function.update_self]
      refine ⟨after, by simp only [resetMembers, found, rest_ran,
        Option.bind_eq_bind, Option.bind_some], ?_, ?_⟩
      · refine ((Heap.Changes.update found same).trans changes).mono ?_
        intro a member
        exact List.mem_cons.mpr member
      · intro other member
        cases List.mem_cons.mp member with
        | inl eq => exact eq ▸ ⟨s.reset, kept, dec, size, filled.emptied []⟩
        | inr member => exact later other member

end SubscriptionManager

/-- One blocksize group between two ticks: `taken` are the ticks since its
time pointer was reset. -/
structure SetFilled (channels : Nat → Channel) (heap : Heap) (ticks : List Tick)
    (decimation blocksize : Nat) (set : SubscriptionSet) : Prop where
  time_length : set.time.length = entries blocksize
  room : set.timePtr < entries blocksize
  nonempty : set.members.isEmpty = false
  filling : ∃ taken : List Tick, taken.Sublist ticks ∧ taken.length = set.timePtr ∧
    set.time.take set.timePtr = taken.map (fun tick => some tick.nanoseconds) ∧
    ∀ address ∈ set.members, heap.Holds channels taken decimation blocksize address

/-- Every value of a `<data>` element of a block group is a block of the ticks
whose stamps are in its time channel. -/
def DataElement.Coherent (channels : Nat → Channel) (ticks : List Tick)
    (element : DataElement) : Prop :=
  if element.blocksize = 0 then ∀ datum ∈ element.datums, datum.name = .E
  else ∃ taken : List Tick, taken.Sublist ticks ∧
    taken.length = element.blocksize ∧
    element.time = taken.map (fun tick => some tick.nanoseconds) ∧
    ∀ datum ∈ element.datums, datum.name = .F ∧ datum.Holds channels taken

theorem SetFilled.of_agree {heap after : Heap} {ticks : List Tick}
    {decimation blocksize : Nat} {set : SubscriptionSet}
    (filled : SetFilled channels heap ticks decimation blocksize set)
    (agree : ∀ address ∈ set.members, after address = heap address) :
    SetFilled channels after ticks decimation blocksize set := by
  obtain ⟨taken, sub, length, times, holds⟩ := filled.filling
  exact ⟨filled.time_length, filled.room, filled.nonempty, taken, sub, length, times,
    fun address member => (holds address member).of_eq (agree address member)⟩

theorem SetFilled.mono {heap : Heap} {ticks more : List Tick}
    {decimation blocksize : Nat} {set : SubscriptionSet}
    (filled : SetFilled channels heap ticks decimation blocksize set)
    (extends' : ticks.Sublist more) :
    SetFilled channels heap more decimation blocksize set := by
  obtain ⟨taken, sub, rest⟩ := filled.filling
  exact ⟨filled.time_length, filled.room, filled.nonempty, taken,
    sub.trans extends', rest⟩

/-- The state right after `timePtr = time` with empty members. -/
theorem SetFilled.of_restart {heap : Heap} {ticks : List Tick}
    {decimation blocksize : Nat} {members : TreeSet Nat} {time : List (Option Nat)}
    (time_length : time.length = entries blocksize)
    (nonempty : members.isEmpty = false)
    (holds : ∀ address ∈ members,
      heap.Holds channels [] decimation blocksize address) :
    SetFilled channels heap ticks decimation blocksize
      { members := members, time := time, timePtr := 0 } :=
  ⟨time_length, entries_pos blocksize, nonempty, [], List.nil_sublist _, rfl, rfl,
    holds⟩

theorem take_set_succ {Value : Type} (list : List Value) {index : Nat}
    (inside : index < list.length) (value : Value) :
    (list.set index value).take (index + 1) = list.take index ++ [value] := by
  rw [List.take_add_one, List.take_set_of_le (Nat.le_refl index)]
  simp [inside]

theorem SubscriptionSet.distinct (members : TreeSet Nat) : members.toList.Nodup := by
  refine TreeSet.distinct_toList.imp ?_
  intro left right differ same
  exact differ (by rw [same]; exact ReflCmp.compare_self)

theorem SubscriptionSet.mem_insert_iff {members : TreeSet Nat} {x address : Nat} :
    x ∈ members.insert address ↔ x = address ∨ x ∈ members := by
  rw [TreeSet.mem_insert, LawfulEqCmp.compare_eq_iff_eq]
  exact or_congr_left eq_comm

theorem SubscriptionSet.mem_erase_iff {members : TreeSet Nat} {x address : Nat} :
    x ∈ members.erase address ↔ x ≠ address ∧ x ∈ members := by
  rw [TreeSet.mem_erase, Ne, LawfulEqCmp.compare_eq_iff_eq]
  exact and_congr_left' (not_congr eq_comm)

theorem SubscriptionSet.toList_ne_nil {members : TreeSet Nat}
    (nonempty : members.isEmpty = false) : members.toList ≠ [] := by
  intro none_left
  have empty : members.isEmpty = true := by
    rw [TreeSet.isEmpty_iff_forall_not_mem]
    intro address member
    rw [← TreeSet.mem_toList, none_left] at member
    cases member
  rw [nonempty] at empty
  cases empty

namespace SubscriptionManager

/-- What is left of a group whose queue was printed. -/
theorem printGroup_spec {heap middle : Heap} {seen ticks : List Tick}
    {decimation blocksize : Nat} {members : TreeSet Nat} {time : List (Option Nat)}
    {printQ : List Nat} (small : seen.length ≤ entries blocksize)
    (full : blocksize ≠ 0 → seen.length = blocksize)
    (time_length : time.length = entries blocksize) (nonempty : members.isEmpty = false)
    (changed : heap.Changes (· ∈ members) middle) (queued : printQ.Sublist members.toList)
    (later : ∀ address ∈ members, middle.Holds channels seen decimation blocksize address)
    (idle : ∀ address ∈ members, address ∉ printQ →
      middle.Holds channels [] decimation blocksize address) :
    ∃ datums after, printValues channels printQ middle = some (datums, after) ∧
      SetFilled channels after ticks decimation blocksize
        { members := members, time := time, timePtr := 0 } ∧
      heap.Changes (· ∈ members) after ∧
      ∀ datum ∈ datums, if blocksize = 0 then datum.name = .E
        else datum.name = .F ∧ datum.Holds channels seen := by
  obtain ⟨datums, after, printed, more, emptied, names⟩ := printValues_spec small full
    (queued.nodup (SubscriptionSet.distinct members))
    (fun address member => later address (TreeSet.mem_toList.mp (queued.subset member)))
  refine ⟨datums, after, printed, ?_, ?_, names⟩
  · refine .of_restart time_length nonempty ?_
    intro address member
    by_cases chained : address ∈ printQ
    · exact emptied address chained
    · exact (idle address member chained).of_eq (more.1 address chained)
  · refine (changed.trans more).mono ?_
    rintro address (member | member)
    · exact member
    · exact TreeSet.mem_toList.mp (queued.subset member)

/-- One blocksize group in one tick. -/
theorem visitSet_spec {heap : Heap} {ticks : List Tick}
    {decimation blocksize : Nat} {set : SubscriptionSet}
    (filled : SetFilled channels heap ticks decimation blocksize set)
    (tick : Tick) (group : Nat) (out : List DataElement) :
    ∃ set' after printed,
      visitSet channels tick group decimation blocksize set (heap, out) =
        some (set', after, out ++ printed) ∧
      set'.members = set.members ∧
      SetFilled channels after (ticks ++ [tick]) decimation blocksize set' ∧
      heap.Changes (· ∈ set.members) after ∧
      ∀ element ∈ printed, element.Coherent channels (ticks ++ [tick]) := by
  obtain ⟨taken, sub, length, times, holds⟩ := filled.filling
  have room := filled.room
  have inside : set.timePtr < set.time.length := filled.time_length ▸ room
  have sub' : (taken ++ [tick]).Sublist (ticks ++ [tick]) := sub.append_right [tick]
  -- The time array with the stamp of this tick.
  have stamped : (set.time.set set.timePtr (some tick.nanoseconds)).take
      (set.timePtr + 1) =
        (taken ++ [tick]).map (fun tick => some tick.nanoseconds) := by
    rw [take_set_succ set.time inside, times, List.map_append]
    rfl
  have stamped_length :
      (set.time.set set.timePtr (some tick.nanoseconds)).length = entries blocksize := by
    rw [List.length_set]
    exact filled.time_length
  obtain ⟨printQ, middle, ran, changes, queued, later, queue, idle⟩ := takeValues_spec
    (length ▸ room) tick
    (blocksize != 0 && blocksize == if blocksize = 0 then set.timePtr
      else set.timePtr + 1)
    (SubscriptionSet.distinct set.members)
    (fun address member => holds address (TreeSet.mem_toList.mp member))
  have changed : heap.Changes (· ∈ set.members) middle :=
    changes.mono fun address member => TreeSet.mem_toList.mp member
  have holding : ∀ address ∈ set.members,
      middle.Holds channels (taken ++ [tick]) decimation blocksize address :=
    fun address member => later address (TreeSet.mem_toList.mpr member)
  simp only [visitSet, if_pos inside, ran, Option.bind_eq_bind, Option.bind_some]
  by_cases event : blocksize = 0
  · -- An event group: the time pointer never moves.
    have start : set.timePtr = 0 := by
      simp only [entries, event] at room
      simp at room
      exact room
    have quiet : ∀ address ∈ set.members, address ∉ printQ →
        middle.Holds channels [] decimation blocksize address :=
      fun address member out => idle event address (TreeSet.mem_toList.mpr member) out
    by_cases nothing : printQ = []
    · rw [if_pos nothing]
      refine ⟨{ set with
        time := set.time.set set.timePtr (some tick.nanoseconds), timePtr := 0 },
        middle, [], ?_, rfl, ?_, changed, by simp⟩
      · rw [if_pos event, start, List.append_nil]
      refine .of_restart stamped_length filled.nonempty ?_
      intro address member
      exact quiet address member (by simp [nothing])
    · rw [if_neg nothing, if_pos (Nat.le_of_eq stamped_length.symm)]
      have first : taken = [] := List.eq_nil_of_length_eq_zero (length.trans start)
      obtain ⟨datums, after, printed, restarted, more, names⟩ := printGroup_spec
        (by rw [first]; exact entries_pos blocksize) (fun block => absurd event block)
        stamped_length filled.nonempty changed queued holding quiet
      rw [printed]
      refine ⟨{ set with
        time := set.time.set set.timePtr (some tick.nanoseconds), timePtr := 0 },
        after, [_], rfl, rfl, restarted, more, ?_⟩
      intro element member
      simp only [List.mem_singleton] at member
      subst member
      simp only [DataElement.Coherent, if_pos event]
      simpa [event] using names
  · -- A block group: print exactly when the array is full.
    have size := entries_of_block event
    rw [if_neg event] at queue ⊢
    have chain := queue event
    by_cases full : blocksize = set.timePtr + 1
    · have flag : (blocksize != 0 && blocksize == set.timePtr + 1) = true := by
        rw [← full]
        simpa using event
      rw [flag, if_pos rfl] at chain
      subst chain
      rw [if_neg (SubscriptionSet.toList_ne_nil filled.nonempty),
        if_pos (Nat.le_of_eq stamped_length.symm)]
      have count : (taken ++ [tick]).length = blocksize := by
        rw [List.length_append, length, full]
        rfl
      obtain ⟨datums, after, printed, restarted, more, names⟩ := printGroup_spec
        (by rw [count]; exact Nat.le_of_eq size.symm) (fun _ => count)
        stamped_length filled.nonempty changed queued holding
        (fun address member out => absurd (TreeSet.mem_toList.mpr member) out)
      rw [printed]
      refine ⟨{ set with
        time := set.time.set set.timePtr (some tick.nanoseconds), timePtr := 0 },
        after, [_], rfl, rfl, restarted, more, ?_⟩
      intro element member
      simp only [List.mem_singleton] at member
      subst member
      simp only [DataElement.Coherent, if_neg event]
      refine ⟨taken ++ [tick], sub', count, ?_, ?_⟩
      · rw [size, full]
        exact stamped
      · simpa [event] using names
    · have flag : (blocksize != 0 && blocksize == set.timePtr + 1) = false := by
        simp [full]
      rw [flag] at chain
      simp only [Bool.false_eq_true, if_false] at chain
      rw [if_pos chain]
      refine ⟨{ set with
        time := set.time.set set.timePtr (some tick.nanoseconds)
        timePtr := set.timePtr + 1 },
        middle, [], ?_, rfl, ?_, changed, by simp⟩
      · rw [List.append_nil]
      refine ⟨stamped_length, ?_, filled.nonempty, taken ++ [tick], sub', ?_, stamped, ?_⟩
      · show set.timePtr + 1 < entries blocksize
        omega
      · simp [length]
      · exact holding

end SubscriptionManager

end PdServ
