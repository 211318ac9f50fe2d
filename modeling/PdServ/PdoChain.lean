import PdServ.Linked
import PdServ.PdoStores

/-!
The PDOs in the cyclic memory. Those of the current lap are linked from the
begin of the memory to the PDO published last, so a session that comes new can
walk along them.
-/

namespace PdServ

/-- What a session that stands on the first of these PDOs can read. It does not
look at the list of a SignalList PDO it stands on already. -/
structure Readable (m : Memory) (list : List Published) : Prop where
  linked : Linked (Pdo.next m) (list.map Published.address)
  apart : list.Pairwise fun a b => Areas.Apart (a.address, a.size) (b.address, b.size)
  first : ∀ pdo ∈ list.head?, pdo.Header m ∧ (pdo.isData = true → pdo.Body m)
  rest : ∀ pdo ∈ list.tail, pdo.Header m ∧ pdo.Body m

namespace Task.Publishes

variable {S : Setup} {task after : Task} {new : Published}
  {stores : List (Nat × List UInt8)}

theorem outside (publishes : Publishes S task after new stores) {a : Nat}
    (apart : a < new.address ∨ new.address + new.size ≤ a)
    (unlinked : a < task.rt.nextTxPdo ∨ task.rt.nextTxPdo + 8 ≤ a) :
    after.shmem.memory a = task.shmem.memory a := by
  rw [publishes.memory, Memory.putWord]
  rw [Memory.write_outside _ _ (by simpa using unlinked)]
  apply Memory.store_outside
  intro range member
  obtain ⟨low, high⟩ := publishes.within range member
  dsimp only at low high
  omega

theorem unlinked (publishes : Publishes S task after new stores) {a : Nat}
    (unlinked : a < task.rt.nextTxPdo ∨ task.rt.nextTxPdo + 8 ≤ a) :
    after.shmem.memory a = task.shmem.memory.store stores a := by
  rw [publishes.memory, Memory.putWord]
  exact Memory.write_outside _ _ (by simpa using unlinked)

/-- A PDO that fits behind the begin of the memory lies inside. -/
theorem inside (publishes : Publishes S task after new stores)
    (small : new.size ≤ 72 + 8 * S.memSize) :
    new.address + new.size ≤ S.txMemEnd := by
  have placed := publishes.placed
  have room := S.room
  split at placed <;> omega

theorem address_lt (publishes : Publishes S task after new stores)
    (small : new.size ≤ 72 + 8 * S.memSize) : new.address < 2 ^ 64 := by
  have inside := publishes.inside small
  have top := S.txMemEnd_lt
  omega

/-- A PDO that the pointer to it does not hit can be read. -/
theorem readable_alone (publishes : Publishes S task after new stores)
    (behind : new.address + 72 ≤ task.rt.nextTxPdo)
    (data : new.isData = true → new.address + new.size ≤ task.rt.nextTxPdo) :
    Readable after.shmem.memory [new] := by
  constructor
  case linked =>
    change after.shmem.memory.word (new.address + 64) 8 = 0
    rw [← publishes.ends]
    apply Memory.word_congr
    intro a low high
    exact publishes.unlinked (by omega)
  case apart =>
    exact List.pairwise_singleton _ _
  case first =>
    intro pdo member
    cases member
    constructor
    · apply publishes.header.congr
      intro a low high
      exact publishes.unlinked (by omega)
    · intro isData
      have above := data isData
      apply publishes.body.congr
      intro a low high
      exact publishes.unlinked (by omega)
  case rest =>
    intro pdo member
    cases member

end Task.Publishes

namespace Readable

variable {m : Memory} {list front rest : List Published} {pdo last new : Published}

theorem tail (readable : Readable m (pdo :: rest)) : Readable m rest := by
  constructor
  case linked =>
    exact readable.linked.tail
  case apart =>
    exact (List.pairwise_cons.mp readable.apart).2
  case first =>
    intro first member
    have held := readable.rest first (List.mem_of_mem_head? member)
    exact ⟨held.1, fun _ => held.2⟩
  case rest =>
    intro other member
    exact readable.rest other (List.mem_of_mem_tail member)

variable {S : Setup} {task after : Task} {stores : List (Nat × List UInt8)}

/-- What could be read before can be read when a PDO is published apart from it,
and so can the new PDO. -/
theorem publish (readable : Readable task.shmem.memory (front ++ [last]))
    (publishes : Task.Publishes S task after new stores)
    (small : new.size ≤ 72 + 8 * S.memSize)
    (nextTxPdo : task.rt.nextTxPdo = last.address + 64)
    (apart : ∀ pdo ∈ front ++ [last],
      Areas.Apart (pdo.address, pdo.size) (new.address, new.size)) :
    Readable after.shmem.memory (front ++ [last, new]) := by
  have room := last.size_ge
  have lastApart := apart last (by simp)
  have frontApart : ∀ pdo ∈ front,
      Areas.Apart (pdo.address, pdo.size) (last.address, last.size) := by
    intro pdo member
    exact (List.pairwise_append.mp readable.apart).2.2 pdo member last (List.mem_singleton_self _)
  dsimp only [Areas.Apart] at lastApart frontApart apart
  -- of the old PDOs only the last one is written to, and there only its link
  have frontSame : ∀ pdo ∈ front, ∀ a, pdo.address ≤ a → a < pdo.address + pdo.size →
      after.shmem.memory a = task.shmem.memory a := by
    intro pdo member a low high
    have one := frontApart pdo member
    have other := apart pdo (List.mem_append_left _ member)
    apply publishes.outside <;> omega
  have lastSame : ∀ a, last.address ≤ a → a < last.address + last.size →
      a < last.address + 64 ∨ last.address + 72 ≤ a →
      after.shmem.memory a = task.shmem.memory a := by
    intro a low high unlinked
    apply publishes.outside <;> omega
  have newSame : ∀ a, new.address ≤ a → a < new.address + new.size →
      after.shmem.memory a = task.shmem.memory.store stores a := by
    intro a low high
    apply publishes.unlinked
    omega
  have newRoom := new.size_ge
  have held : ∀ pdo ∈ front ++ [last], (pdo.Header task.shmem.memory →
      pdo.Header after.shmem.memory) ∧
      (pdo.Body task.shmem.memory → pdo.Body after.shmem.memory) := by
    intro pdo member
    have sized := pdo.size_ge
    rcases List.mem_append.mp member with old | only
    · constructor
      · intro header
        exact header.congr fun a low high => frontSame pdo old a low (by omega)
      · intro body
        exact body.congr fun a low high => frontSame pdo old a (by omega) high
    · rw [List.mem_singleton] at only
      subst only
      constructor
      · intro header
        exact header.congr fun a low high => lastSame a low (by omega) (.inl high)
      · intro body
        exact body.congr fun a low high => lastSame a (by omega) high (.inr low)
  have newHeld : new.Header after.shmem.memory ∧ new.Body after.shmem.memory := by
    constructor
    · exact publishes.header.congr fun a low high => newSame a low (by omega)
    · exact publishes.body.congr fun a low high => newSame a (by omega) high
  have together : front ++ [last, new] = (front ++ [last]) ++ [new] := by simp
  constructor
  case linked =>
    have linked := readable.linked
    simp only [List.map_append, List.map_cons, List.map_nil] at linked ⊢
    apply linked.push
    · intro cell member
      obtain ⟨pdo, here, rfl⟩ := List.mem_map.mp member
      have sized := pdo.size_ge
      apply Memory.word_congr
      intro a low high
      exact frontSame pdo here a (by omega) (by omega)
    · rw [publishes.memory, nextTxPdo, Pdo.next, Memory.word_putWord_self]
      exact Nat.mod_eq_of_lt (publishes.address_lt small)
    · rw [← publishes.ends]
      apply Memory.word_congr
      intro a low high
      exact newSame a (by omega) (by omega)
  case apart =>
    rw [together]
    apply List.pairwise_append.mpr
    refine ⟨readable.apart, List.pairwise_singleton _ _, ?_⟩
    intro pdo member other only
    rw [List.mem_singleton] at only
    subst only
    exact apart pdo member
  case first =>
    intro pdo member
    rw [together, List.head?_append_of_ne_nil _ (by simp)] at member
    obtain ⟨header, body⟩ := readable.first pdo member
    have keeps := held pdo (List.mem_of_mem_head? member)
    exact ⟨keeps.1 header, fun isData => keeps.2 (body isData)⟩
  case rest =>
    intro pdo member
    rw [together, List.tail_append_of_ne_nil (by simp)] at member
    rcases List.mem_append.mp member with old | only
    · obtain ⟨header, body⟩ := readable.rest pdo old
      have keeps := held pdo (List.mem_of_mem_tail old)
      exact ⟨keeps.1 header, keeps.2 body⟩
    · rw [List.mem_singleton] at only
      subst only
      exact newHeld

end Readable

/-! ### Laps -/

/-- The PDOs of the current lap, from the begin of the memory to the last one. -/
structure Lap (S : Setup) (task : Task) (front : List Published) (last : Published) :
    Prop where
  readable : Readable task.shmem.memory (front ++ [last])
  begins : ∀ pdo ∈ (front ++ [last]).head?, pdo.address = S.txMemBegin
  inside : ∀ pdo ∈ front ++ [last],
    S.txMemBegin ≤ pdo.address ∧ pdo.address + pdo.size ≤ last.address + last.size
  bound : last.address + last.size ≤ S.txMemEnd
  nextTxPdo : task.rt.nextTxPdo = last.address + 64
  txPdo : task.rt.txPdo = ptr_align (last.address + last.size)

namespace Lap

variable {S : Setup} {task after : Task} {front : List Published} {last new : Published}
  {stores : List (Nat × List UInt8)}

/-- Only the first PDO of the lap begins where the memory does. -/
theorem last_address (lap : Lap S task front last) :
    front = [] ∧ last.address = S.txMemBegin ∨ S.txMemBegin + 72 ≤ last.address := by
  cases front with
  | nil => exact .inl ⟨rfl, lap.begins last rfl⟩
  | cons first front =>
      right
      have begins := lap.begins first rfl
      have apart := (List.pairwise_cons.mp lap.readable.apart).1 last (by simp)
      have above := (lap.inside last (by simp)).1
      have sized := first.size_ge
      have sized' := last.size_ge
      dsimp only [Areas.Apart] at apart
      omega

/-- The next PDO continues the lap or begins a new one. The first two PDOs of a
lap fit, so the last PDO of the old lap lies behind the members of the first
PDO of the new one. -/
theorem publish (lap : Lap S task front last)
    (publishes : Task.Publishes S task after new stores)
    (two : last.size + new.size ≤ 144 + 9 * S.memSize)
    (one : last.size ≤ 72 + 8 * S.memSize) (small : new.size ≤ 72 + 8 * S.memSize)
    (data : new.isData = true → new.size ≤ 72 + S.memSize) :
    Lap S after (front ++ [last]) new ∨ Lap S after [] new := by
  have room := S.room
  have sized := new.size_ge
  have placed := publishes.placed
  have inside := publishes.inside small
  have aligned := le_ptr_align (last.address + last.size)
  have aligned' := ptr_align_lt (last.address + last.size)
  have txPdo := lap.txPdo
  have nextTxPdo := lap.nextTxPdo
  have place := lap.last_address
  split at placed
  · right
    have behind : S.txMemBegin + 72 ≤ last.address := by omega
    constructor
    case readable =>
      apply publishes.readable_alone
      · omega
      · intro isData
        have short := data isData
        omega
    case begins =>
      intro pdo member
      cases member
      exact placed
    case inside =>
      intro pdo member
      rw [List.nil_append, List.mem_singleton] at member
      subst member
      exact ⟨placed.ge, Nat.le_refl _⟩
    case bound =>
      exact inside
    case nextTxPdo =>
      exact publishes.nextTxPdo
    case txPdo =>
      exact publishes.txPdo
  · left
    have above : ∀ pdo ∈ front ++ [last], pdo.address + pdo.size ≤ new.address := by
      intro pdo member
      have := (lap.inside pdo member).2
      omega
    constructor
    case readable =>
      rw [List.append_assoc]
      exact lap.readable.publish publishes small nextTxPdo
        fun pdo member => .inl (above pdo member)
    case begins =>
      rw [List.head?_append_of_ne_nil _ (by simp)]
      exact lap.begins
    case inside =>
      intro pdo member
      rcases List.mem_append.mp member with old | only
      · have low := (lap.inside pdo old).1
        have high := above pdo old
        omega
      · rw [List.mem_singleton] at only
        subst only
        have low := (lap.inside last (by simp)).1
        omega
    case bound =>
      exact inside
    case nextTxPdo =>
      exact publishes.nextTxPdo
    case txPdo =>
      exact publishes.txPdo

end Lap

/-! ### Runs -/

/-- How many bytes a PDO of this task can take. -/
structure Published.Sized (S : Setup) (pdo : Published) : Prop where
  small : pdo.size ≤ 72 + 8 * S.memSize
  data : pdo.isData = true → pdo.size ≤ 72 + S.memSize

namespace Task

variable {S : Setup} {task after : Task} {events new : List TaskEvent}

theorem Follows.sized (follows : Follows S task events) :
    ∀ pdo ∈ pdos events, pdo.Sized S := by
  intro pdo member
  obtain ⟨event, happened, same⟩ := List.mem_filterMap.mp member
  have told := follows.told event happened
  cases event with
  | changed entry lists => cases same
  | processed entry => cases same
  | signals pdo =>
      cases same
      obtain ⟨part, early, -, signals⟩ := told
      have fit := (follows.log.part early).listsFit
      have count := fit.length_le_size.trans fit.size_le
      rw [← signals] at count
      refine ⟨?_, ?_⟩
      · dsimp only [Published.size]
        omega
      · intro isData
        cases isData
  | data pdo =>
      cases same
      obtain ⟨part, early, -, copied, bytes⟩ := told
      have fit := (follows.log.part early).listsFit
      have size := fit.size_le
      rw [← copied, ← length_sampled S pdo.values, ← bytes] at size
      refine ⟨?_, ?_⟩
      · dsimp only [Published.size]
        omega
      · intro _
        exact Nat.add_le_add_left size 72

/-- The memory of the PDOs in the course of a run. Between two turns of the
real-time process the last PDO is a Data PDO. -/
structure Streams (S : Setup) (task : Task) (events : List TaskEvent) : Prop where
  seqNo : task.rt.seqNo < 2 ^ 32
  start : pdos events = [] →
    task.rt.txPdo = S.txMemBegin ∧ task.rt.nextTxPdo = S.txMemEnd - 16
  lap : pdos events ≠ [] → ∃ earlier front last,
    pdos events = earlier ++ (front ++ [last]) ∧ Lap S task front last
  paused : (∀ t, task.phase ≠ .copying t) →
    ∀ last ∈ (pdos events).getLast?, last.isData = true

namespace Streams

theorem init : Streams S (Task.init S) [] where
  seqNo := Nat.two_pow_pos 32
  start := by
    intro _
    exact ⟨rfl, congrArg (· - 16) S.txMemEnd_aligned⟩
  lap := fun nonempty => absurd rfl nonempty
  paused := by
    intro _ last member
    cases member

/-- A step that touches neither the memory nor what the real-time process
keeps for it. -/
theorem quiet (streams : Streams S task events) (none_new : pdos new = [])
    (memory : after.shmem.memory = task.shmem.memory)
    (rt : after.rt.seqNo = task.rt.seqNo ∧ after.rt.txPdo = task.rt.txPdo ∧
      after.rt.nextTxPdo = task.rt.nextTxPdo)
    (phase : (∀ t, after.phase ≠ .copying t) → ∀ t, task.phase ≠ .copying t) :
    Streams S after (events ++ new) := by
  obtain ⟨seqNo, txPdo, nextTxPdo⟩ := rt
  have same : pdos (events ++ new) = pdos events := by
    rw [pdos_append, none_new, List.append_nil]
  constructor
  case seqNo =>
    rw [seqNo]
    exact streams.seqNo
  case start =>
    rw [same, txPdo, nextTxPdo]
    exact streams.start
  case lap =>
    rw [same]
    intro nonempty
    obtain ⟨earlier, front, last, split, lap⟩ := streams.lap nonempty
    refine ⟨earlier, front, last, split, ?_, lap.begins, lap.inside, lap.bound, ?_, ?_⟩
    · rw [memory]
      exact lap.readable
    · rw [nextTxPdo]
      exact lap.nextTxPdo
    · rw [txPdo]
      exact lap.txPdo
  case paused =>
    rw [same]
    exact fun idle => streams.paused (phase idle)

theorem publish {pdo : Published} {stores : List (Nat × List UInt8)}
    (streams : Streams S task events) (publishes : Publishes S task after pdo stores)
    (only : pdos new = [pdo])
    (old : ∀ other ∈ pdos events, other.Sized S) (sized : pdo.Sized S)
    (turn : pdo.isData = true ∨ ∀ last ∈ (pdos events).getLast?, last.isData = true)
    (seqNo : after.rt.seqNo < 2 ^ 32)
    (phase : pdo.isData = false → ∃ t, after.phase = .copying t) :
    Streams S after (events ++ new) := by
  have longer : pdos (events ++ new) = pdos events ++ [pdo] := by
    rw [pdos_append, only]
  have room := S.room
  have sizes := sized.small
  constructor
  case seqNo =>
    exact seqNo
  case start =>
    intro none_there
    simp [longer] at none_there
  case lap =>
    intro _
    rw [longer]
    by_cases none_there : pdos events = []
    · obtain ⟨txPdo, nextTxPdo⟩ := streams.start none_there
      have address : pdo.address = S.txMemBegin := by
        have placed := publishes.placed
        split at placed <;> omega
      refine ⟨[], [], pdo, by simp [none_there], ?_, ?_, ?_, ?_, ?_, ?_⟩
      · apply publishes.readable_alone
        · omega
        · intro _
          omega
      · intro other member
        cases member
        exact address
      · intro other member
        rw [List.nil_append, List.mem_singleton] at member
        subst member
        exact ⟨address.ge, Nat.le_refl _⟩
      · exact publishes.inside sized.small
      · exact publishes.nextTxPdo
      · exact publishes.txPdo
    · obtain ⟨earlier, front, last, split, lap⟩ := streams.lap none_there
      have lastSized := old last (by simp [split])
      have lastSmall := lastSized.small
      have two : last.size + pdo.size ≤ 144 + 9 * S.memSize := by
        rcases turn with isData | before
        · have := sized.data isData
          omega
        · have := lastSized.data (before last (by simp [split]))
          omega
      rcases lap.publish publishes two lastSmall sized.small sized.data with goes_on | begins
      · exact ⟨earlier, front ++ [last], pdo, by simp [split], goes_on⟩
      · exact ⟨earlier ++ (front ++ [last]), [], pdo, by simp [split], begins⟩
  case paused =>
    intro idle last member
    rw [longer, List.getLast?_append] at member
    cases member
    cases isData : pdo.isData with
    | true => exact isData
    | false =>
        obtain ⟨t, copying⟩ := phase isData
        exact absurd copying (idle t)

end Streams

theorem Publishes.phase {pdo : Published} {stores : List (Nat × List UInt8)}
    (publishes : Publishes S task after pdo stores) (phase : RtPhase) :
    Publishes S task { after with phase := phase } pdo stores :=
  ⟨publishes.placed, publishes.within, publishes.header, publishes.body, publishes.ends,
    publishes.memory, publishes.nextTxPdo, publishes.txPdo⟩

/-- A step without a PDO leaves the memory alone, and the lists of the real-time
process too unless it is at the changes. -/
structure Quiet (S : Setup) (task after : Task) (new : List TaskEvent) : Prop where
  none_new : pdos new = []
  memory : after.shmem.memory = task.shmem.memory
  seqNo : after.rt.seqNo = task.rt.seqNo
  txPdo : after.rt.txPdo = task.rt.txPdo
  nextTxPdo : after.rt.nextTxPdo = task.rt.nextTxPdo
  copying : (∀ t, after.phase ≠ .copying t) → ∀ t, task.phase ≠ .copying t
  draining : (∀ t, after.phase ≠ .draining t) → ∀ t, task.phase ≠ .draining t
  lists : (∀ t, after.phase ≠ .draining t) →
    after.rt.signalListId = task.rt.signalListId ∧ copied S after.rt = copied S task.rt

structure PublishesSignals (S : Setup) (task after : Task) (new : List TaskEvent)
    (pdo : SignalsPdo) : Prop where
  told : new = [.signals pdo]
  turn : ∃ t, task.phase = .draining t ∧ after.phase = .copying t
  seqNo : after.rt.seqNo = task.rt.seqNo
  signalListId : pdo.signalListId = task.rt.signalListId
  signals : pdo.signals = (List.range 4).flatMap (copied S task.rt)
  lists : after.rt.signalListId = task.rt.signalListId ∧
    copied S after.rt = copied S task.rt
  publishes : Publishes S task after (.signals pdo) (signalsStores S task)

structure PublishesData (S : Setup) (task after : Task) (new : List TaskEvent)
    (pdo : DataPdo) : Prop where
  told : new = [.data pdo]
  turn : ∃ t, task.phase = .copying t ∧ after.phase = .idle ∧ pdo.time = t.getD ⟨0, 0⟩
  number : pdo.seqNo = task.rt.seqNo
  seqNo : after.rt.seqNo = (task.rt.seqNo + 1) % 2 ^ 32
  signalListId : pdo.signalListId = task.rt.signalListId
  copied : pdo.copied = copied S task.rt
  lists : after.rt.signalListId = task.rt.signalListId ∧
    Task.copied S after.rt = Task.copied S task.rt
  publishes : ∃ stores, Publishes S task after (.data pdo) stores

/-- All that a step can do to the memory of the PDOs. -/
theorem step_cases {action : Action} (follows : Follows S task events)
    (seqNo : task.rt.seqNo < 2 ^ 32) (done : task.step S action = some (after, new)) :
    Quiet S task after new ∨ (∃ pdo, PublishesSignals S task after new pdo) ∨
      ∃ pdo, PublishesData S task after new pdo := by
  cases action with
  | subscribe cs st insert =>
      simp only [step] at done
      split at done
      · obtain ⟨⟨result, after', new'⟩, done, same⟩ := Option.map_eq_some_iff.mp done
        cases same
        obtain ⟨-, ⟨-, -, rfl, rfl⟩ | ⟨_, _, -, -, -, rfl, rfl⟩⟩ := subscribe_cases done
        · exact .inl ⟨rfl, rfl, rfl, rfl, rfl, id, id, fun _ => ⟨rfl, rfl⟩⟩
        · exact .inl ⟨rfl, rfl, rfl, rfl, rfl, id, id, fun _ => ⟨rfl, rfl⟩⟩
      · cases done
  | updateStatistics statistics =>
      simp only [step] at done
      split at done <;> cases done
      exact .inl ⟨rfl, rfl, rfl, rfl, rfl, id, id, fun _ => ⟨rfl, rfl⟩⟩
  | rt_update t =>
      simp only [step] at done
      split at done <;> cases done
      next idle =>
      refine .inl ⟨rfl, rfl, rfl, rfl, rfl, ?_, ?_, fun _ => ⟨rfl, rfl⟩⟩ <;>
        · intro _ t
          rw [idle]
          exact RtPhase.noConfusion
  | processSignalList =>
      simp only [step] at done
      split at done
      · next t draining =>
        split at done <;> cases done
        have kept : (applyEntry S task.rt (task.shmem.signalList
            (Ring.next S.ringSize task.shmem.signalListRp))).seqNo = task.rt.seqNo ∧
            (applyEntry S task.rt (task.shmem.signalList
              (Ring.next S.ringSize task.shmem.signalListRp))).txPdo = task.rt.txPdo ∧
            (applyEntry S task.rt (task.shmem.signalList
              (Ring.next S.ringSize task.shmem.signalListRp))).nextTxPdo =
              task.rt.nextTxPdo := by
          unfold applyEntry
          dsimp only
          split <;> exact ⟨rfl, rfl, rfl⟩
        exact .inl ⟨rfl, rfl, kept.1, kept.2.1, kept.2.2, id, id,
          fun none_left => absurd draining (none_left t)⟩
      · cases done
  | calculateCopyList =>
      simp only [step] at done
      split at done
      · next t draining =>
        split at done <;> cases done
        obtain ⟨pdo, told, id, signals, publishes⟩ := follows.calculateCopyList_publishes
        exact .inr (.inl ⟨pdo, told, ⟨t, draining, rfl⟩, rfl, id, signals, ⟨rfl, rfl⟩,
          publishes.phase _⟩)
      · cases done
  | copyData values =>
      simp only [step] at done
      split at done <;> cases done
      next t copying =>
      obtain ⟨pdo, told, time, number, id, copied, publishes⟩ :=
        follows.copyData_publishes seqNo t values
      exact .inr (.inr ⟨pdo, told, ⟨t, copying, rfl, time⟩, number, rfl, id, copied,
        ⟨rfl, rfl⟩, _, publishes.phase _⟩)

theorem Streams.step {action : Action} (streams : Streams S task events)
    (follows : Follows S task events) (done : task.step S action = some (after, new)) :
    Streams S after (events ++ new) := by
  have later := (follows.step done).sized
  rw [pdos_append] at later
  have old : ∀ other ∈ pdos events, other.Sized S :=
    fun other member => later other (List.mem_append_left _ member)
  rcases step_cases follows streams.seqNo done with quiet | ⟨pdo, signals⟩ | ⟨pdo, data⟩
  · exact streams.quiet quiet.none_new quiet.memory ⟨quiet.seqNo, quiet.txPdo, quiet.nextTxPdo⟩
      quiet.copying
  · obtain ⟨t, draining, copying⟩ := signals.turn
    have before := streams.paused (by simp [draining])
    rw [signals.told] at later ⊢
    apply streams.publish signals.publishes rfl old
      (later _ (by simp [pdos, TaskEvent.pdo?])) (.inr before)
    · rw [signals.seqNo]
      exact streams.seqNo
    · intro _
      exact ⟨t, copying⟩
  · obtain ⟨stores, publishes⟩ := data.publishes
    rw [data.told] at later ⊢
    apply streams.publish publishes rfl old (later _ (by simp [pdos, TaskEvent.pdo?]))
      (.inl rfl)
    · rw [data.seqNo]
      exact Nat.mod_lt _ (Nat.two_pow_pos 32)
    · intro isSignals
      cases isSignals

end Task

theorem TaskRun.streams {S : Setup} {task : Task} {events : List TaskEvent}
    (run : TaskRun S task events) : Task.Streams S task events := by
  induction run with
  | start => exact Task.Streams.init
  | step action run done ih => exact ih.step run.follows done

namespace Task.Streams

variable {S : Setup} {task after : Task} {events : List TaskEvent}

theorem place_inside (streams : Streams S task events) :
    S.txMemBegin ≤ task.rt.txPdo ∧ S.txMemBegin ≤ task.rt.nextTxPdo ∧
      task.rt.nextTxPdo + 8 ≤ S.txMemEnd := by
  have room := S.room
  by_cases none_there : pdos events = []
  · obtain ⟨txPdo, nextTxPdo⟩ := streams.start none_there
    omega
  · obtain ⟨earlier, front, last, -, lap⟩ := streams.lap none_there
    have sized := last.size_ge
    have low := (lap.inside last (by simp)).1
    have bound := lap.bound
    have aligned := le_ptr_align (last.address + last.size)
    have txPdo := lap.txPdo
    have nextTxPdo := lap.nextTxPdo
    omega

/-- Publishing a PDO changes nothing outside the memory of the PDOs. -/
theorem stores_inside {pdo : Published} {stores : List (Nat × List UInt8)}
    (streams : Streams S task events) (publishes : Publishes S task after pdo stores)
    (sized : pdo.Sized S) {place : Nat} :
    ∀ range ∈ stores ++ [(task.rt.nextTxPdo, Memory.encode 8 place)],
      Areas.Within S.txMemBegin S.txMemEnd (range.1, range.2.length) := by
  obtain ⟨txPdo, low, high⟩ := streams.place_inside
  have inside := publishes.inside sized.small
  have above : S.txMemBegin ≤ pdo.address := by
    have placed := publishes.placed
    split at placed <;> omega
  intro range member
  rcases List.mem_append.mp member with own | link
  · exact (publishes.within range own).mono above inside
  · rw [List.mem_singleton] at link
    subst link
    constructor
    · exact low
    · rw [Memory.encode_length]
      exact high

/-- The PDOs from the begin of the memory to the last one, without a cycle. -/
theorem chain (streams : Streams S task events) :
    ∀ last ∈ (pdos events).getLast?, ∃ chain : List Nat,
      chain.head? = some S.txMemBegin ∧ chain.getLast? = some last.address ∧
      chain.Nodup ∧ Linked (Pdo.next task.shmem.memory) chain ∧
      ∀ p ∈ chain, S.txMemBegin ≤ p ∧ p < S.txMemEnd := by
  intro last member
  have some_pdos : pdos events ≠ [] := by
    rintro none_there
    simp [none_there] at member
  obtain ⟨earlier, front, newest, split, lap⟩ := streams.lap some_pdos
  obtain rfl : newest = last := by simpa [split] using member
  refine ⟨(front ++ [newest]).map Published.address, ?_, ?_, ?_, lap.readable.linked, ?_⟩
  · cases front with
    | nil => exact congrArg some (lap.begins newest rfl)
    | cons first front => exact congrArg some (lap.begins first rfl)
  · simp
  · apply List.Pairwise.map Published.address _ lap.readable.apart
    intro a b apart same
    have left := a.size_ge
    have right := b.size_ge
    dsimp only [Areas.Apart] at apart
    omega
  · intro p member
    obtain ⟨pdo, here, rfl⟩ := List.mem_map.mp member
    have sized := pdo.size_ge
    have inside := lap.inside pdo here
    have bound := lap.bound
    omega

end Task.Streams

/-! ### Data PDOs in memory -/

/-- When this Data PDO was published, its members and its body were in the memory of the PDOs,
and the PDO before it was linked to it. -/
def Task.Written (S : Setup) (events : List TaskEvent) (pdo : DataPdo) : Prop :=
  ∃ task before after, TaskRun S task before ∧ before ++ [.data pdo] <+: events ∧
    task.step S (.copyData pdo.values) = some (after, [.data pdo]) ∧
    Published.Header after.shmem.memory (.data pdo) ∧
    Published.Body after.shmem.memory (.data pdo) ∧
    ∀ last ∈ (Task.pdos before).getLast?, Pdo.next after.shmem.memory last.address = pdo.address

/-- Only `copyData` publishes a Data PDO. -/
theorem Task.step_data {S : Setup} {task after : Task} {action : Action}
    {new : List TaskEvent} (done : task.step S action = some (after, new)) {pdo : DataPdo}
    (member : .data pdo ∈ pdos new) :
    new = [.data pdo] ∧ action = .copyData pdo.values ∧
      ∃ t, task.phase = .copying t ∧ pdo.time = t.getD ⟨0, 0⟩ := by
  cases action with
  | subscribe cs st insert =>
      simp only [step] at done
      split at done
      · obtain ⟨⟨result, after', new'⟩, done, same⟩ := Option.map_eq_some_iff.mp done
        cases same
        obtain ⟨-, ⟨-, -, rfl, -⟩ | ⟨_, _, -, -, -, rfl, -⟩⟩ := subscribe_cases done
        · cases member
        · cases member
      · cases done
  | updateStatistics statistics | rt_update t =>
      simp only [step] at done
      split at done <;> cases done
      cases member
  | processSignalList =>
      simp only [step] at done
      split at done
      · split at done <;> cases done
        cases member
      · cases done
  | calculateCopyList =>
      simp only [step] at done
      split at done
      · split at done <;> cases done
        simp [calculateCopyList, pdos, TaskEvent.pdo?] at member
      · cases done
  | copyData values =>
      simp only [step] at done
      split at done <;> cases done
      next t copying =>
      obtain rfl := Published.data.inj (List.mem_singleton.mp member)
      exact ⟨rfl, rfl, t, copying, rfl⟩

theorem Task.Written.mono {S : Setup} {events : List TaskEvent} {pdo : DataPdo}
    (written : Written S events pdo) (new : List TaskEvent) : Written S (events ++ new) pdo := by
  obtain ⟨task, before, after, run, early, rest⟩ := written
  exact ⟨task, before, after, run, early.trans (List.prefix_append _ _), rest⟩

/-- The PDO published last can be read. -/
theorem Task.Streams.last_readable {S : Setup} {task : Task} {events : List TaskEvent}
    {pdo : DataPdo} (streams : Streams S task events)
    (newest : (pdos events).getLast? = some (.data pdo)) :
    Published.Header task.shmem.memory (.data pdo) ∧
      Published.Body task.shmem.memory (.data pdo) := by
  have some_pdos : pdos events ≠ [] := by
    intro none_there
    rw [none_there] at newest
    cases newest
  obtain ⟨earlier, front, last, split, lap⟩ := streams.lap some_pdos
  obtain rfl : last = .data pdo := by simpa [split] using newest
  cases front with
  | nil =>
      obtain ⟨header, body⟩ := lap.readable.first _ rfl
      exact ⟨header, body rfl⟩
  | cons first front =>
      exact lap.readable.rest _ (List.mem_append_right _ (List.mem_singleton_self _))

/-- `copyData` links the PDO before to the new one. -/
theorem Task.Streams.linked {S : Setup} {task after : Task} {events : List TaskEvent}
    {pdo : Published} {stores : List (Nat × List UInt8)} (streams : Streams S task events)
    (publishes : Publishes S task after pdo stores) (sized : pdo.Sized S) :
    ∀ last ∈ (pdos events).getLast?, Pdo.next after.shmem.memory last.address = pdo.address := by
  intro last newest
  have some_pdos : pdos events ≠ [] := by
    intro none_there
    rw [none_there] at newest
    cases newest
  obtain ⟨earlier, front, last', split, lap⟩ := streams.lap some_pdos
  obtain rfl : last' = last := by simpa [split] using newest
  rw [Pdo.next, publishes.memory, lap.nextTxPdo, Memory.word_putWord_self]
  exact Nat.mod_eq_of_lt (publishes.address_lt sized.small)

theorem TaskRun.written {S : Setup} {task : Task} {events : List TaskEvent}
    (run : TaskRun S task events) {pdo : DataPdo} (member : .data pdo ∈ Task.pdos events) :
    Task.Written S events pdo := by
  induction run with
  | start => cases member
  | @step task before action after new run done ih =>
      rw [Task.pdos_append] at member
      rcases List.mem_append.mp member with old | fresh
      · exact (ih old).mono new
      · obtain ⟨rfl, rfl, -⟩ := Task.step_data done fresh
        have run' := TaskRun.step _ run done
        have newest : (Task.pdos (before ++ [.data pdo])).getLast? = some (.data pdo) := by
          rw [Task.pdos_append]
          exact List.getLast?_concat
        obtain ⟨header, body⟩ := run'.streams.last_readable newest
        refine ⟨task, before, after, run, List.prefix_refl _, done, header, body, ?_⟩
        have sized := run'.follows.sized _ (List.mem_of_getLast? newest)
        rcases Task.step_cases run.follows run.streams.seqNo done with
          quiet | ⟨_, signals⟩ | ⟨_, data⟩
        · cases quiet.none_new
        · cases signals.told
        · obtain ⟨stores, publishes⟩ := data.publishes
          cases data.told
          exact run.streams.linked publishes sized

/-- Every Data PDO carries the signals of the list with its number, in the memory of the PDOs
too when it is published, and what waits in the ring is never overwritten. -/
theorem TaskRun.data_carries_lists {S : Setup} {task : Task} {events : List TaskEvent}
    (run : TaskRun S task events) (few : (Task.published events).length < 2 ^ 32) :
    (∀ pdo, .data pdo ∈ events →
      pdo.bytes = Task.sampled S pdo.values pdo.copied ∧ Task.Written S events pdo ∧
      (pdo.signalListId = 0 → ∀ w, pdo.copied w = []) ∧
      (pdo.signalListId ≠ 0 → ∃ entry lists, .changed entry lists ∈ events ∧
        entry.signalListId = pdo.signalListId) ∧
      ∀ entry lists, .changed entry lists ∈ events →
        entry.signalListId = pdo.signalListId → pdo.copied = lists) ∧
    Task.processed events <+: Task.published events ∧
    ∀ (i : Nat) (h : i < (Task.pending events).length),
      task.shmem.signalList (Ring.index S.ringSize task.shmem.signalListRp (i + 1)) =
        (Task.pending events)[i] := by
  have follows := run.follows
  refine ⟨?_, follows.behind, ?_⟩
  · intro pdo member
    obtain ⟨part, early, id, copied, bytes⟩ := follows.told _ member
    have short := early.length_le
    rw [Nat.mod_eq_of_lt (by omega)] at id
    refine ⟨bytes, run.written (List.mem_filterMap.mpr ⟨_, member, rfl⟩), ?_, ?_, ?_⟩
    · intro zero w
      have : part = [] := List.eq_nil_of_length_eq_zero (by omega)
      rw [copied, this]
      rfl
    · intro nonzero
      rcases List.eq_nil_or_concat part with rfl | ⟨front, last, rfl⟩
      · exact absurd id nonzero
      · rw [List.concat_eq_append] at early id
        obtain ⟨rest, split⟩ := early
        rw [List.append_assoc, List.singleton_append] at split
        have listed : last ∈ Task.published events := by
          rw [← split]
          simp
        obtain ⟨event, happened, told⟩ := List.mem_filterMap.mp listed
        obtain ⟨-, -, number⟩ := follows.log.entry split.symm
        cases event with
        | changed entry lists =>
            cases told
            refine ⟨last, lists, happened, ?_⟩
            rw [number, id]
            simp only [List.length_concat, List.length_append, List.length_singleton] at short ⊢
            omega
        | processed entry => cases told
        | signals pdo => cases told
        | data pdo => cases told
    · intro entry lists changed same
      obtain ⟨front, first, rfl⟩ := follows.told _ changed
      have bound := first.length_le
      obtain ⟨rest, split⟩ := first
      rw [List.append_assoc, List.singleton_append] at split
      obtain ⟨-, -, number⟩ := follows.log.entry split.symm
      have longer : (front ++ [entry]).length = part.length := by
        simp only [List.length_append, List.length_singleton] at bound ⊢
        omega
      have first : front ++ [entry] <+: Task.published events :=
        ⟨rest, by simpa using split⟩
      have together : front ++ [entry] = part :=
        (List.prefix_of_prefix_length_le first early longer.le).eq_of_length longer
      rw [copied, together]
  · intro i h
    apply (follows.ring ?_).held i h
    intro none_there
    have waiting : (Task.pending events)[i] ∈ Task.published events :=
      List.mem_of_mem_drop (List.getElem_mem h)
    have known := follows.known waiting
    simp [none_there] at known

theorem TaskRun.data_carries_lists_firstCycle :
    ∃ pdo entry lists, .data pdo ∈ firstCycle.2 ∧ .changed entry lists ∈ firstCycle.2 ∧
      pdo.signalListId = 1 ∧ pdo.copied = lists ∧ lists 0 = [0] ∧
      Task.Written oneSignal firstCycle.2 pdo := by
  have carries := TaskRun.data_carries_lists firstCycle_run (by decide)
  refine ⟨_, _, _, List.mem_append_right _ (List.mem_singleton_self _),
    List.mem_cons_self, rfl, ?_, rfl, ?_⟩
  · exact (carries.1 _ (List.mem_append_right _ (List.mem_singleton_self _))).2.2.2.2 _ _
      List.mem_cons_self rfl
  · exact (carries.1 _ (List.mem_append_right _ (List.mem_singleton_self _))).2.1

/-- All that the real-time process stores for its PDOs lies in the memory it was
given, and the PDOs of a lap lead from the begin of this memory to the last one. -/
theorem TaskRun.stays_inside {S : Setup} {task : Task} {events : List TaskEvent}
    (run : TaskRun S task events) :
    (∀ t, task.phase = .draining t →
      task.shmem.signalListRp = task.shmem.signalListWp →
      (task.calculateCopyList S).1.shmem.memory =
        task.shmem.memory.store (Task.calculateStores S task) ∧
      ∀ range ∈ Task.calculateStores S task,
        Areas.Within S.txMemBegin S.txMemEnd (range.1, range.2.length)) ∧
    (∀ t values, task.phase = .copying t →
      (task.copyData S t values).1.shmem.memory =
        task.shmem.memory.store (Task.copyStores S task t values) ∧
      ∀ range ∈ Task.copyStores S task t values,
        Areas.Within S.txMemBegin S.txMemEnd (range.1, range.2.length)) ∧
    ∀ last ∈ (Task.pdos events).getLast?, ∃ chain : List Nat,
      chain.head? = some S.txMemBegin ∧ chain.getLast? = some last.address ∧
      chain.Nodup ∧ Linked (Pdo.next task.shmem.memory) chain ∧
      ∀ p ∈ chain, S.txMemBegin ≤ p ∧ p < S.txMemEnd := by
  have follows := run.follows
  have streams := run.streams
  refine ⟨?_, ?_, streams.chain⟩
  · intro t _ _
    refine ⟨Task.calculateCopyList_memory S task, ?_⟩
    obtain ⟨pdo, told, -, -, publishes⟩ := follows.calculateCopyList_publishes
    have later := (follows.calculateCopyList (.copying t)).sized
    rw [Task.pdos_append, told] at later
    exact streams.stores_inside publishes (later _ (by simp [Task.pdos, TaskEvent.pdo?]))
  · intro t values _
    refine ⟨Task.copyData_memory S task t values, ?_⟩
    obtain ⟨pdo, told, -, -, -, -, publishes⟩ :=
      follows.copyData_publishes streams.seqNo t values
    have later := (follows.copyData .idle t values).sized
    rw [Task.pdos_append, told] at later
    exact streams.stores_inside publishes (later _ (by simp [Task.pdos, TaskEvent.pdo?]))

theorem TaskRun.stays_inside_firstCycle :
    ∃ chain : List Nat, chain.head? = some oneSignal.txMemBegin ∧
      chain.getLast? = some (oneSignal.txMemBegin + 80) ∧
      Linked (Pdo.next firstCycle.1.shmem.memory) chain := by
  have inside := TaskRun.stays_inside firstCycle_run
  obtain ⟨chain, first, last, -, linked, -⟩ := inside.2.2 _ (by rfl)
  exact ⟨chain, first, last, linked⟩

end PdServ
