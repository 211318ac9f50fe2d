import PdServ.Areas
import PdServ.TaskLists
import Mathlib.Algebra.Order.BigOperators.Group.List
import Mathlib.Algebra.Order.Ring.Nat

/-!
What the real-time process stores when it publishes a PDO: the members and the
body of the PDO at its place in the cyclic memory, and then the pointer to it
in the PDO published before. The sizes of all PDOs follow from the signals of
the task.
-/

namespace PdServ

/-! ### Published PDOs -/

inductive Published where
  | signals (pdo : SignalsPdo)
  | data (pdo : DataPdo)

namespace Published

def address : Published → Nat
  | .signals pdo => pdo.address
  | .data pdo => pdo.address

def signalListId : Published → Nat
  | .signals pdo => pdo.signalListId
  | .data pdo => pdo.signalListId

/-- With all bytes behind `data` or `signalIdx`. -/
def size : Published → Nat
  | .signals pdo => 72 + 8 * pdo.signals.length
  | .data pdo => 72 + pdo.bytes.length

theorem size_ge (pdo : Published) : 72 ≤ pdo.size := by
  cases pdo <;> exact Nat.le_add_right ..

def isData : Published → Bool
  | .signals _ => false
  | .data _ => true

/-- The members of the PDO in memory, `next` apart. -/
def Header (m : Memory) : Published → Prop
  | .signals pdo =>
      Pdo.type m pdo.address = Pdo.SignalList ∧
      Pdo.signalListId m pdo.address = pdo.signalListId ∧
      Pdo.count m pdo.address = pdo.signals.length
  | .data pdo =>
      Pdo.type m pdo.address = Pdo.Data ∧
      Pdo.signalListId m pdo.address = pdo.signalListId ∧
      Pdo.count m pdo.address = pdo.bytes.length ∧
      Pdo.seqNo m pdo.address = pdo.seqNo ∧
      Pdo.tv_sec m pdo.address = pdo.time.tv_sec.toNat ∧
      Pdo.tv_nsec m pdo.address = pdo.time.tv_nsec.toNat ∧
      Pdo.exec_time m pdo.address = pdo.taskStatistics.exec_time.toNat ∧
      Pdo.cycle_time m pdo.address = pdo.taskStatistics.cycle_time.toNat ∧
      Pdo.overrun m pdo.address = pdo.taskStatistics.overrun.toNat

/-- The bytes behind `next`. -/
def Body (m : Memory) : Published → Prop
  | .signals pdo => ∀ (i : Nat) (h : i < pdo.signals.length),
      Pdo.signalIdx m pdo.address i = pdo.signals[i]
  | .data pdo => m.read (pdo.address + 72) pdo.bytes.length = pdo.bytes

theorem Header.congr {pdo : Published} {m m' : Memory} (header : pdo.Header m)
    (same : ∀ a, pdo.address ≤ a → a < pdo.address + 64 → m' a = m a) : pdo.Header m' := by
  have word : ∀ offset count, offset + count ≤ 64 →
      m'.word (pdo.address + offset) count = m.word (pdo.address + offset) count := by
    intro offset count inside
    apply Memory.word_congr
    intro a low high
    exact same a (by omega) (by omega)
  cases pdo with
  | signals pdo =>
      obtain ⟨type, id, count⟩ := header
      exact ⟨(word 0 4 (by decide)).trans type, (word 4 4 (by decide)).trans id,
        (word 8 8 (by decide)).trans count⟩
  | data pdo =>
      obtain ⟨type, id, count, seqNo, sec, nsec, exec, cycle, overrun⟩ := header
      exact ⟨(word 0 4 (by decide)).trans type, (word 4 4 (by decide)).trans id,
        (word 8 8 (by decide)).trans count, (word 16 4 (by decide)).trans seqNo,
        (word 24 8 (by decide)).trans sec, (word 32 8 (by decide)).trans nsec,
        (word 40 8 (by decide)).trans exec, (word 48 8 (by decide)).trans cycle,
        (word 56 4 (by decide)).trans overrun⟩

theorem Body.congr {pdo : Published} {m m' : Memory} (body : pdo.Body m)
    (same : ∀ a, pdo.address + 72 ≤ a → a < pdo.address + pdo.size → m' a = m a) :
    pdo.Body m' := by
  cases pdo with
  | signals pdo =>
      intro i h
      rw [← body i h]
      apply Memory.word_congr
      intro a low high
      simp only [address, size] at same
      exact same a (by omega) (by omega)
  | data pdo =>
      refine (Memory.read_congr ?_).trans body
      intro a low high
      simp only [address, size] at same
      exact same a low (by omega)

end Published

/-- The PDO an event tells of. -/
def TaskEvent.pdo? : TaskEvent → Option Published
  | .signals pdo => some (.signals pdo)
  | .data pdo => some (.data pdo)
  | _ => none

/-- The PDOs published, in order. -/
def Task.pdos (events : List TaskEvent) : List Published :=
  events.filterMap TaskEvent.pdo?

@[simp] theorem Task.pdos_append (events new : List TaskEvent) :
    Task.pdos (events ++ new) = Task.pdos events ++ Task.pdos new :=
  List.filterMap_append ..

/-! ### Sizes -/

theorem ptr_align_of_aligned {p : Nat} (aligned : p % 8 = 0) : ptr_align p = p := by
  unfold ptr_align
  omega

namespace Setup

variable (S : Setup)

theorem txMemBegin_eq : S.txMemBegin = S.shmem + 16 + 48 * S.signals.length := by
  have aligned := S.aligned
  unfold txMemBegin ringSize
  rw [ptr_align_of_aligned (p := S.shmem + 16) (by omega),
    ptr_align_of_aligned (by omega)]
  omega

theorem txMemBegin_pos : 0 < S.txMemBegin := by
  rw [txMemBegin_eq]
  have := S.notNull
  omega

/-- There is room for ten of the largest Data PDOs. -/
theorem room : S.txMemBegin + 10 * (80 + S.memSize) ≤ S.txMemEnd := by
  have ten : (80 + S.memSize) * 10 ≤ (80 + S.memSize) * max S.bufferCount 10 :=
    Nat.mul_le_mul_left _ (Nat.le_max_right ..)
  have above := le_ptr_align S.getShmemSpace
  rw [txMemBegin_eq]
  unfold txMemEnd
  unfold getShmemSpace at above ⊢
  omega

theorem txMemEnd_lt : S.txMemEnd < 2 ^ 64 := S.inside

theorem txMemEnd_aligned : ptr_align S.txMemEnd = S.txMemEnd := by
  have aligned := S.aligned
  apply ptr_align_of_aligned
  unfold txMemEnd ptr_align
  omega

theorem sizeOf_pos {s : Nat} (known : s < S.signals.length) : 0 < S.sizeOf s := by
  unfold sizeOf
  rw [List.getElem?_eq_getElem known]
  exact (S.signals[s]).memSize_pos

theorem memSize_eq : ((List.range S.signals.length).map S.sizeOf).sum = S.memSize := by
  have same : (List.range S.signals.length).map S.sizeOf = S.signals.map Signal.memSize := by
    apply List.ext_getElem
    · simp
    · intro i short long
      have known : i < S.signals.length := by simpa using long
      simp [sizeOf, known]
  rw [same, memSize]

end Setup

namespace ListsFit

variable {S : Setup} {lists : Nat → List Nat}

theorem all_nodup (fit : ListsFit S lists) : ((List.range 4).flatMap lists).Nodup := by
  apply List.nodup_flatMap.mpr
  refine ⟨fun w _ => fit.nodup w, ?_⟩
  apply List.Pairwise.imp _ List.nodup_range
  intro v w other s left right
  exact other ((fit.bins v s left).1.symm.trans (fit.bins w s right).1)

theorem all_known (fit : ListsFit S lists) :
    ∀ s ∈ (List.range 4).flatMap lists, s < S.signals.length := by
  intro s member
  obtain ⟨w, -, here⟩ := List.mem_flatMap.mp member
  exact (fit.bins w s here).2

theorem size_le (fit : ListsFit S lists) :
    (((List.range 4).flatMap lists).map S.sizeOf).sum ≤ S.memSize := by
  have within : (List.range 4).flatMap lists ⊆ List.range S.signals.length :=
    fun s member => List.mem_range.mpr (fit.all_known s member)
  obtain ⟨list, same, part⟩ := fit.all_nodup.subperm within
  calc (((List.range 4).flatMap lists).map S.sizeOf).sum
      = (list.map S.sizeOf).sum := ((same.map S.sizeOf).sum_nat).symm
    _ ≤ ((List.range S.signals.length).map S.sizeOf).sum :=
      (part.map S.sizeOf).sum_le_sum fun size _ => Nat.zero_le size
    _ = S.memSize := S.memSize_eq

theorem length_le_size (fit : ListsFit S lists) :
    ((List.range 4).flatMap lists).length ≤
      (((List.range 4).flatMap lists).map S.sizeOf).sum := by
  have positive : ∀ size ∈ ((List.range 4).flatMap lists).map S.sizeOf, 1 ≤ size := by
    intro size member
    obtain ⟨s, here, rfl⟩ := List.mem_map.mp member
    exact S.sizeOf_pos (fit.all_known s here)
  have least := List.length_le_sum_of_one_le _ positive
  rwa [List.length_map] at least

end ListsFit

theorem Task.length_sampled (S : Setup) (values : Nat → Nat → Byte)
    (lists : Nat → List Nat) :
    (sampled S values lists).length = (((List.range 4).flatMap lists).map S.sizeOf).sum := by
  unfold sampled
  rw [List.length_flatMap]
  simp

/-! ### Publications -/

namespace Task

variable (S : Setup)

/-- Where `calculateCopyList` puts its PDO. -/
def signalsPlace (task : Task) : Nat :=
  let n := ((List.range 4).map task.rt.signalTypeCount).sum
  if task.rt.txPdo + 72 + 8 * n ≥ S.txMemEnd then S.txMemBegin else task.rt.txPdo

/-- Where `copyData` puts its PDO. -/
def dataPlace (task : Task) : Nat :=
  if task.rt.txPdo + 72 + task.rt.signalMemSize ≥ S.txMemEnd then S.txMemBegin
  else task.rt.txPdo

/-- The members and the body of a SignalList PDO, in the order of the stores. -/
def signalsStores (task : Task) : List (Nat × List UInt8) :=
  let rt := task.rt
  let txPdo := signalsPlace S task
  [(txPdo + 64, Memory.encode 8 0),
    (txPdo, Memory.encode 4 Pdo.Empty),
    (txPdo + 4, Memory.encode 4 rt.signalListId),
    (txPdo + 8, Memory.encode 8 ((List.range 4).map rt.signalTypeCount).sum),
    (txPdo + 72, ((List.range 4).flatMap (copied S rt)).flatMap (Memory.encode 8)),
    (txPdo, Memory.encode 4 Pdo.SignalList)]

/-- The members and the body of a Data PDO, in the order of the stores. -/
def dataStores (task : Task) (t : Option Timespec) (values : Nat → Nat → Byte) :
    List (Nat × List UInt8) :=
  let rt := task.rt
  let txPdo := dataPlace S task
  let time := t.getD ⟨0, 0⟩
  let bytes := sampled S values (copied S rt)
  [(txPdo + 64, Memory.encode 8 0),
    (txPdo, Memory.encode 4 Pdo.Empty),
    (txPdo + 4, Memory.encode 4 rt.signalListId),
    (txPdo + 16, Memory.encode 4 rt.seqNo),
    (txPdo + 40, Memory.encode 8 rt.taskStatistics.exec_time.toNat),
    (txPdo + 48, Memory.encode 8 rt.taskStatistics.cycle_time.toNat),
    (txPdo + 56, Memory.encode 4 rt.taskStatistics.overrun.toNat),
    (txPdo + 24, Memory.encode 8 time.tv_sec.toNat),
    (txPdo + 32, Memory.encode 8 time.tv_nsec.toNat),
    (txPdo + 72, bytes),
    (txPdo, Memory.encode 4 Pdo.Data),
    (txPdo + 8, Memory.encode 8 bytes.length)]

/-- All that `calculateCopyList` stores in shared memory. -/
def calculateStores (task : Task) : List (Nat × List UInt8) :=
  signalsStores S task ++ [(task.rt.nextTxPdo, Memory.encode 8 (signalsPlace S task))]

/-- All that `copyData` stores in shared memory. -/
def copyStores (task : Task) (t : Option Timespec) (values : Nat → Nat → Byte) :
    List (Nat × List UInt8) :=
  dataStores S task t values ++
    [(task.rt.nextTxPdo, Memory.encode 8 (dataPlace S task))]

theorem calculateCopyList_memory (task : Task) :
    (task.calculateCopyList S).1.shmem.memory =
      task.shmem.memory.store (calculateStores S task) := rfl

theorem copyData_memory (task : Task) (t : Option Timespec) (values : Nat → Nat → Byte) :
    (task.copyData S t values).1.shmem.memory =
      task.shmem.memory.store (copyStores S task t values) := rfl

/-- What the publication of a PDO does. The stores of its members and its body
come first, `nextTxPdo` is set last. -/
structure Publishes (task after : Task) (new : Published)
    (stores : List (Nat × List UInt8)) : Prop where
  placed : new.address =
    if task.rt.txPdo + new.size ≥ S.txMemEnd then S.txMemBegin else task.rt.txPdo
  within : ∀ range ∈ stores,
    Areas.Within new.address (new.address + new.size) (range.1, range.2.length)
  header : new.Header (task.shmem.memory.store stores)
  body : new.Body (task.shmem.memory.store stores)
  ends : Pdo.next (task.shmem.memory.store stores) new.address = 0
  memory : after.shmem.memory =
    (task.shmem.memory.store stores).putWord task.rt.nextTxPdo 8 new.address
  nextTxPdo : after.rt.nextTxPdo = new.address + 64
  txPdo : after.rt.txPdo = ptr_align (new.address + new.size)

variable {S} {task : Task} {events : List TaskEvent}

theorem Follows.count_eq (follows : Follows S task events) :
    ((List.range 4).map task.rt.signalTypeCount).sum =
      ((List.range 4).flatMap (copied S task.rt)).length := by
  rw [List.length_flatMap, follows.copied_eq]
  congr 1
  exact List.map_congr_left fun w _ => follows.rt.count w

theorem Follows.copied_fit (follows : Follows S task events) :
    ListsFit S (copied S task.rt) := by
  rw [follows.copied_eq]
  exact (follows.log.part follows.behind).listsFit

theorem Follows.length_bytes (follows : Follows S task events)
    (values : Nat → Nat → Byte) :
    (sampled S values (copied S task.rt)).length = task.rt.signalMemSize := by
  rw [length_sampled, follows.rt.memSize, follows.copied_eq]

theorem Follows.signalListId_lt (follows : Follows S task events) :
    task.rt.signalListId < 2 ^ 32 := by
  rw [follows.applied]
  exact Nat.mod_lt _ (by decide)

theorem Follows.calculateCopyList_publishes (follows : Follows S task events) :
    ∃ pdo, (task.calculateCopyList S).2 = [.signals pdo] ∧
      pdo.signalListId = task.rt.signalListId ∧
      pdo.signals = (List.range 4).flatMap (copied S task.rt) ∧
      Publishes S task (task.calculateCopyList S).1 (.signals pdo) (signalsStores S task) := by
  have count := follows.count_eq
  have fit := follows.copied_fit
  have bound := fit.length_le_size.trans fit.size_le
  have room := S.room
  have top := S.txMemEnd_lt
  have id := follows.signalListId_lt
  refine ⟨⟨signalsPlace S task, task.rt.signalListId,
    (List.range 4).flatMap (copied S task.rt)⟩, rfl, rfl, rfl, ?_⟩
  have same : task.shmem.memory.store (signalsStores S task) = (task.shmem.memory
      |>.putWord (signalsPlace S task + 64) 8 0
      |>.putWord (signalsPlace S task) 4 Pdo.Empty
      |>.putWord (signalsPlace S task + 4) 4 task.rt.signalListId
      |>.putWord (signalsPlace S task + 8) 8 ((List.range 4).map task.rt.signalTypeCount).sum
      |>.write (signalsPlace S task + 72)
        (((List.range 4).flatMap (copied S task.rt)).flatMap (Memory.encode 8))
      |>.putWord (signalsPlace S task) 4 Pdo.SignalList) := rfl
  constructor
  case placed =>
    simp only [Published.address, Published.size, signalsPlace, count, Nat.add_assoc]
    rfl
  case within =>
    intro range member
    simp only [signalsStores, List.mem_cons, List.not_mem_nil, or_false] at member
    dsimp only [Areas.Within, Published.address, Published.size]
    rcases member with rfl | rfl | rfl | rfl | rfl | rfl <;>
      simp only [Memory.encode_length, Memory.length_flatMap_encode] <;> omega
  case header =>
    rw [same]
    refine ⟨?_, ?_, ?_⟩ <;> dsimp only [Pdo.type, Pdo.signalListId, Pdo.count] <;>
      simp (disch := omega) only [Memory.word_putWord_apart, Memory.word_putWord_self,
        Memory.word_write_apart]
    · rfl
    · exact Nat.mod_eq_of_lt id
    · rw [count]
      exact Nat.mod_eq_of_lt (by omega)
  case body =>
    rw [same]
    intro i h
    have known := fit.all_known _ (List.getElem_mem h)
    have countable := S.countable
    dsimp only [Pdo.signalIdx]
    rw [Memory.word_putWord_apart _ _ (by omega), Memory.word_write_array _ _ _ _ h]
    exact Nat.mod_eq_of_lt (by omega)
  case ends =>
    rw [same]
    dsimp only [Pdo.next, Published.address]
    simp (disch := omega) only [Memory.word_putWord_apart, Memory.word_putWord_self,
      Memory.word_write_apart, Nat.zero_mod]
  case memory =>
    rfl
  case nextTxPdo =>
    rfl
  case txPdo =>
    exact congrArg ptr_align (Nat.add_assoc ..)

theorem Follows.copyData_publishes (follows : Follows S task events)
    (seqNo : task.rt.seqNo < 2 ^ 32) (t : Option Timespec) (values : Nat → Nat → Byte) :
    ∃ pdo, (task.copyData S t values).2 = [.data pdo] ∧ pdo.time = t.getD ⟨0, 0⟩ ∧
      pdo.seqNo = task.rt.seqNo ∧ pdo.signalListId = task.rt.signalListId ∧
      pdo.copied = copied S task.rt ∧
      Publishes S task (task.copyData S t values).1 (.data pdo)
        (dataStores S task t values) := by
  have fit := follows.copied_fit
  have length := follows.length_bytes values
  have sampled := length_sampled S values (copied S task.rt)
  have bound := fit.size_le
  have room := S.room
  have top := S.txMemEnd_lt
  have id := follows.signalListId_lt
  refine ⟨_, rfl, rfl, rfl, rfl, rfl, ?_⟩
  have same : task.shmem.memory.store (dataStores S task t values) = (task.shmem.memory
      |>.putWord (dataPlace S task + 64) 8 0
      |>.putWord (dataPlace S task) 4 Pdo.Empty
      |>.putWord (dataPlace S task + 4) 4 task.rt.signalListId
      |>.putWord (dataPlace S task + 16) 4 task.rt.seqNo
      |>.putWord (dataPlace S task + 40) 8 task.rt.taskStatistics.exec_time.toNat
      |>.putWord (dataPlace S task + 48) 8 task.rt.taskStatistics.cycle_time.toNat
      |>.putWord (dataPlace S task + 56) 4 task.rt.taskStatistics.overrun.toNat
      |>.putWord (dataPlace S task + 24) 8 (t.getD ⟨0, 0⟩).tv_sec.toNat
      |>.putWord (dataPlace S task + 32) 8 (t.getD ⟨0, 0⟩).tv_nsec.toNat
      |>.write (dataPlace S task + 72) (Task.sampled S values (copied S task.rt))
      |>.putWord (dataPlace S task) 4 Pdo.Data
      |>.putWord (dataPlace S task + 8) 8
        (Task.sampled S values (copied S task.rt)).length) := rfl
  constructor
  case placed =>
    simp only [Published.address, Published.size, length, Nat.add_assoc]
  case within =>
    intro range member
    simp only [dataStores, List.mem_cons, List.not_mem_nil, or_false] at member
    change Areas.Within (dataPlace S task) (dataPlace S task +
      (72 + (Task.sampled S values (copied S task.rt)).length)) _
    dsimp only [Areas.Within]
    rcases member with rfl | rfl | rfl | rfl | rfl | rfl | rfl | rfl | rfl | rfl | rfl | rfl <;>
      simp only [Memory.encode_length] <;> omega
  case header =>
    rw [same]
    change Published.Header _ (.data ⟨dataPlace S task, _, _, _, _, _, _, _⟩)
    refine ⟨?_, ?_, ?_, ?_, ?_, ?_, ?_, ?_, ?_⟩ <;>
      dsimp only [Pdo.type, Pdo.signalListId, Pdo.count, Pdo.seqNo, Pdo.tv_sec, Pdo.tv_nsec,
        Pdo.exec_time, Pdo.cycle_time, Pdo.overrun] <;>
      simp (disch := omega) only [Memory.word_putWord_apart, Memory.word_putWord_self,
        Memory.word_write_apart]
    · rfl
    · exact Nat.mod_eq_of_lt id
    · exact Nat.mod_eq_of_lt (by omega)
    · exact Nat.mod_eq_of_lt seqNo
    · exact Nat.mod_eq_of_lt (UInt64.toNat_lt _)
    · exact Nat.mod_eq_of_lt (UInt64.toNat_lt _)
    · exact Nat.mod_eq_of_lt (UInt64.toNat_lt _)
    · exact Nat.mod_eq_of_lt (UInt64.toNat_lt _)
    · exact Nat.mod_eq_of_lt (UInt32.toNat_lt _)
  case body =>
    rw [same]
    change Memory.read _ (dataPlace S task + 72) _ = _
    rw [Memory.read_putWord_apart _ _ (by omega), Memory.read_putWord_apart _ _ (by omega)]
    exact Memory.read_write_self _ _ _
  case ends =>
    rw [same]
    change Pdo.next _ (dataPlace S task) = 0
    dsimp only [Pdo.next]
    simp (disch := omega) only [Memory.word_putWord_apart, Memory.word_putWord_self,
      Memory.word_write_apart, Nat.zero_mod]
  case memory =>
    rfl
  case nextTxPdo =>
    rfl
  case txPdo =>
    exact congrArg ptr_align (Nat.add_assoc ..)

end Task

end PdServ
