import PdServ.Memory
import PdServ.Ring
import PdServ.XmlParser
import Mathlib.Data.Finset.Basic

/-!
`Task` of the library: one list of subscribed signals, kept twice. The
non-real-time process changes its copy in `subscribe` and sends each change
through a ring in shared memory; the real-time process applies the changes in
`rt_update` and streams the values of its signals as process data objects
(PDOs) into a cyclic memory area. Both processes take steps in any order; one
`subscribe` is one step, `rt_update` takes one step for every change and every
PDO. A signal is known by its index, and its address is never null.
-/

namespace PdServ

/-! ### Signals and memory -/

/-- A signal has at least one byte. -/
structure Signal where
  memSize : Nat
  memSize_pos : 0 < memSize
  /-- `dtype.align()`, at most `DataType::maxWidth` -/
  align : Nat
  align_le : align ≤ 8
deriving DecidableEq

/-- `Signal::dataTypeIndex` -/
def dataTypeIndex : List Nat := [3, 3, 2, 3, 1, 3, 3, 3, 0]

/-- The bin of a signal in the copy lists. -/
def Signal.bin (s : Signal) : Nat := (dataTypeIndex[s.align]?).getD 3

theorem Signal.bin_lt (s : Signal) : s.bin < 4 := by
  have bound := s.align_le
  unfold bin
  generalize s.align = a at bound
  have : ∀ a, a ≤ 8 → (dataTypeIndex[a]?).getD 3 < 4 := by decide
  exact this a bound

/-- `ptr_align`: up to a multiple of the size of a pointer. -/
def ptr_align (p : Nat) : Nat := (p + 7) / 8 * 8

theorem le_ptr_align (p : Nat) : p ≤ ptr_align p := by
  unfold ptr_align
  omega

theorem ptr_align_lt (p : Nat) : ptr_align p < p + 8 := by
  unfold ptr_align
  omega

/-- A task after `prepare`: its signals, the memory it was given, and the
number of PDOs the buffer time asks for. A session reads its lists into arrays
on the stack, so the signals are counted by an `int`. -/
structure Setup where
  signals : List Signal
  shmem : Nat
  bufferCount : Nat
  aligned : shmem % 8 = 0
  notNull : 0 < shmem
  countable : signals.length < 2 ^ 31
  inside : shmem + ptr_align (16 + 2 * signals.length * 24 +
    (80 + (signals.map Signal.memSize).sum) * max bufferCount 10) < 2 ^ 64

namespace Setup

variable (S : Setup)

/-- The sum over all signals, as `addSignal` counts it. -/
def memSize : Nat := (S.signals.map Signal.memSize).sum

/-- `getShmemSpace`; `sizeof(SignalList)` is 24, `sizeof(Pdo)` 80. -/
def getShmemSpace : Nat :=
  16 + 2 * S.signals.length * 24 + (80 + S.memSize) * max S.bufferCount 10

/-- Number of entries of the change ring. -/
def ringSize : Nat := 2 * S.signals.length

def txMemBegin : Nat := ptr_align (ptr_align (S.shmem + 16) + S.ringSize * 24)

def txMemEnd : Nat := S.shmem + ptr_align S.getShmemSpace

/-- The bin of the signal with this index. -/
def bin (s : Nat) : Nat := (S.signals[s]?).elim 3 Signal.bin

def sizeOf (s : Nat) : Nat := (S.signals[s]?).elim 0 Signal.memSize

end Setup

/-! ### Process data objects -/

structure Timespec where
  tv_sec : UInt64
  tv_nsec : UInt64
deriving DecidableEq

/-- `TaskStatistics`, the two doubles as their bits. -/
structure TaskStatistics where
  exec_time : UInt64
  cycle_time : UInt64
  overrun : UInt32
deriving DecidableEq

/-! The members of a `Pdo` at an address. -/

namespace Pdo

abbrev Empty : Nat := 0
abbrev SignalList : Nat := 1008051969
abbrev Data : Nat := 1006101981

def type (m : Memory) (p : Nat) : Nat := m.word p 4
def signalListId (m : Memory) (p : Nat) : Nat := m.word (p + 4) 4
def count (m : Memory) (p : Nat) : Nat := m.word (p + 8) 8
def seqNo (m : Memory) (p : Nat) : Nat := m.word (p + 16) 4
def tv_sec (m : Memory) (p : Nat) : Nat := m.word (p + 24) 8
def tv_nsec (m : Memory) (p : Nat) : Nat := m.word (p + 32) 8
def exec_time (m : Memory) (p : Nat) : Nat := m.word (p + 40) 8
def cycle_time (m : Memory) (p : Nat) : Nat := m.word (p + 48) 8
def overrun (m : Memory) (p : Nat) : Nat := m.word (p + 56) 4
def next (m : Memory) (p : Nat) : Nat := m.word (p + 64) 8
/-- `(&pdo->signalIdx)[i]` -/
def signalIdx (m : Memory) (p i : Nat) : Nat := m.word (p + 72 + 8 * i) 8

end Pdo

/-! ### The state of a task -/

/-- `SignalList::action` -/
inductive ListAction where
  | Insert
  | Remove
deriving DecidableEq

/-- An entry of the change ring. -/
structure SignalList where
  action : ListAction
  signalListId : Nat
  signalPosition : Nat
  signal : Nat
deriving DecidableEq

/-- Shared memory: the change ring with its two positions, and the memory of
the PDOs. It is clear in the beginning. -/
structure Shmem where
  signalList : Nat → SignalList := fun _ => ⟨.Insert, 0, 0, 0⟩
  signalListRp : Nat := 0
  signalListWp : Nat := 0
  memory : Memory := fun _ => 0

/-- The members used by the non-real-time process, with what the signals
themselves store there. -/
structure NrtTask where
  signalTypeCount : Nat → Nat := fun _ => 0
  signalCopyList : Nat → Nat → Nat := fun _ _ => 0
  signalListId : Nat := 0
  sessions : Nat → Finset Nat := fun _ => ∅
  subscriptionId : Nat → Nat := fun _ => 0
  copyListPos : Nat → Nat := fun _ => 0

/-- The members used by the real-time process. An empty place of the copy list
has no source, which marks its end. -/
structure RtTask where
  signalTypeCount : Nat → Nat := fun _ => 0
  signalMemSize : Nat := 0
  copyList : Nat → Nat → Option Nat := fun _ _ => none
  signalListId : Nat := 0
  seqNo : Nat := 0
  taskStatistics : TaskStatistics := ⟨0, 0, 0⟩
  txPdo : Nat
  nextTxPdo : Nat

/-- Where `rt_update` stands, with the time it was given. -/
inductive RtPhase where
  | idle
  | draining (t : Option Timespec)
  | copying (t : Option Timespec)

structure Task where
  nrt : NrtTask := {}
  shmem : Shmem := {}
  rt : RtTask
  phase : RtPhase := .idle

/-- A published SignalList PDO. -/
structure SignalsPdo where
  address : Nat
  signalListId : Nat
  signals : List Nat

/-- A published Data PDO, with the signals copied bin by bin, the memory of the
signals at this moment and the bytes taken from there. -/
structure DataPdo where
  address : Nat
  signalListId : Nat
  seqNo : Nat
  time : Timespec
  taskStatistics : TaskStatistics
  copied : Nat → List Nat
  values : Nat → Nat → Byte
  bytes : List Byte

/-- What an observer notes. -/
inductive TaskEvent where
  /-- `subscribe` changed the list: the entry of the ring, and `signalCopyList`
  right after. -/
  | changed (entry : SignalList) (lists : Nat → List Nat)
  | processed (entry : SignalList)
  | signals (pdo : SignalsPdo)
  | data (pdo : DataPdo)

namespace Task

variable (S : Setup)

/-- After `prepare`, `rt_init` and `nrt_init`. -/
def init : Task where
  rt :=
    { txPdo := S.txMemBegin
      nextTxPdo := ptr_align S.txMemEnd - 16 }

/-! ### The non-real-time process -/

/-- `signalCopyList[w][0 .. signalTypeCount[w])` -/
def NrtLists (nrt : NrtTask) (w : Nat) : List Nat :=
  (List.range (nrt.signalTypeCount w)).map (nrt.signalCopyList w)

/-- `getSignalList`: the signals of all bins, and the id written last. -/
def getSignalList (task : Task) : List Nat × Nat :=
  ((List.range 4).flatMap (NrtLists task.nrt),
    (task.shmem.signalList task.shmem.signalListWp).signalListId)

/-- The signal goes behind the last one of its bin. -/
def insertLast (nrt : NrtTask) (w cs : Nat) : NrtTask :=
  let i := nrt.signalTypeCount w
  { nrt with
    signalTypeCount := Function.update nrt.signalTypeCount w (i + 1)
    signalCopyList := Function.update nrt.signalCopyList w
      (Function.update (nrt.signalCopyList w) i cs)
    copyListPos := Function.update nrt.copyListPos cs i }

/-- The signal is replaced with the last one of its bin. -/
def replaceWithLast (nrt : NrtTask) (w cs : Nat) : NrtTask :=
  let position := nrt.copyListPos cs
  let i := nrt.signalTypeCount w - 1
  let last := nrt.signalCopyList w i
  { nrt with
    signalTypeCount := Function.update nrt.signalTypeCount w i
    signalCopyList := Function.update nrt.signalCopyList w
      (Function.update (nrt.signalCopyList w) position last)
    copyListPos := Function.update nrt.copyListPos last position }

/-- `sessions.insert(st)` or `sessions.erase(st)` -/
def changeSessions (nrt : NrtTask) (cs st : Nat) (insert : Bool) : NrtTask :=
  { nrt with
    sessions := Function.update nrt.sessions cs
      (if insert then Insert.insert st (nrt.sessions cs) else (nrt.sessions cs).erase st) }

/-- Another session needs the signal as well, or none needed it before. -/
def unchanged (nrt : NrtTask) (cs st : Nat) (insert : Bool) : Bool :=
  if insert then nrt.sessions cs ≠ ∅
  else nrt.sessions cs = ∅ ∨ (nrt.sessions cs).erase st ≠ ∅

/-- The change `subscribe` makes when it does not return early, and the entry
of the ring for it. -/
def change (nrt : NrtTask) (old : SignalList) (cs : Nat) (insert : Bool) :
    NrtTask × SignalList :=
  let w := S.bin cs
  let id := (nrt.signalListId + 1) % 2 ^ 32
  let changed := if insert then insertLast nrt w cs else replaceWithLast nrt w cs
  ({ changed with
      signalListId := id
      subscriptionId := Function.update nrt.subscriptionId cs id },
    { signal := cs
      action := if insert then .Insert else .Remove
      signalListId := id
      signalPosition := if insert then old.signalPosition else nrt.copyListPos cs })

/-- `subscribe`; no step while the ring is full. The slot behind the last entry
is written in any case, but published only with a change. -/
def subscribe (task : Task) (cs st : Nat) (insert : Bool) :
    Option (Bool × Task × List TaskEvent) :=
  let nrt := task.nrt
  let shmem := task.shmem
  let wp := Ring.next S.ringSize shmem.signalListWp
  if wp = shmem.signalListRp then none
  else
    let sessions := changeSessions nrt cs st insert
    if unchanged nrt cs st insert then
      let entry := { shmem.signalList wp with signal := cs }
      some (true, { task with
        nrt := sessions
        shmem := { shmem with
          signalList := Function.update shmem.signalList wp entry } }, [])
    else
      let (changed, entry) := change S sessions (shmem.signalList wp) cs insert
      some (false, { task with
        nrt := changed
        shmem := { shmem with
          signalList := Function.update shmem.signalList wp entry
          signalListWp := wp } }, [.changed entry (NrtLists changed)])

/-! ### The real-time process -/

/-- What an entry of the ring does to the copy list. -/
def applyEntry (rt : RtTask) (entry : SignalList) : RtTask :=
  let signal := entry.signal
  let w := S.bin signal
  let rt := { rt with signalListId := entry.signalListId }
  match entry.action with
  | .Insert =>
      let i := rt.signalTypeCount w
      { rt with
        signalTypeCount := Function.update rt.signalTypeCount w (i + 1)
        copyList := Function.update rt.copyList w
          (Function.update (rt.copyList w) i (some signal))
        signalMemSize := rt.signalMemSize + S.sizeOf signal }
  | .Remove =>
      let i := rt.signalTypeCount w - 1
      { rt with
        signalTypeCount := Function.update rt.signalTypeCount w i
        copyList := Function.update rt.copyList w
          (Function.update
            (Function.update (rt.copyList w) entry.signalPosition (rt.copyList w i))
            i none)
        signalMemSize := rt.signalMemSize - S.sizeOf signal }

/-- `processSignalList`, for the entry behind the one read last. -/
def processSignalList (task : Task) : Task × List TaskEvent :=
  let shmem := task.shmem
  let sp := Ring.next S.ringSize shmem.signalListRp
  let entry := shmem.signalList sp
  ({ task with
      rt := applyEntry S task.rt entry
      shmem := { shmem with signalListRp := sp } }, [.processed entry])

/-- The signals of one bin up to the end mark. No list is longer than all
signals. -/
def scan (places : Nat → Option Nat) : (left i : Nat) → List Nat
  | 0, _ => []
  | left + 1, i =>
      match places i with
      | none => []
      | some signal => signal :: scan places left (i + 1)

def copied (rt : RtTask) (w : Nat) : List Nat :=
  scan (rt.copyList w) (S.signals.length + 1) 0

/-- `*nextTxPdo = txPdo`, and the position of the next PDO behind this one. -/
def publish (task : Task) (rt : RtTask) (m : Memory) (txPdo end_ : Nat) : Task :=
  { task with
    rt := { rt with nextTxPdo := txPdo + 64, txPdo := ptr_align end_ }
    shmem := { task.shmem with memory := m.putWord rt.nextTxPdo 8 txPdo } }

/-- `calculateCopyList`: publish the list of the signals. -/
def calculateCopyList (task : Task) : Task × List TaskEvent :=
  let rt := task.rt
  let n := ((List.range 4).map rt.signalTypeCount).sum
  let txPdo := if rt.txPdo + 72 + 8 * n ≥ S.txMemEnd then S.txMemBegin else rt.txPdo
  let idx := (List.range 4).flatMap (copied S rt)
  let m := task.shmem.memory
    |>.putWord (txPdo + 64) 8 0
    |>.putWord txPdo 4 Pdo.Empty
    |>.putWord (txPdo + 4) 4 rt.signalListId
    |>.putWord (txPdo + 8) 8 n
    |>.write (txPdo + 72) (idx.flatMap (Memory.encode 8))
    |>.putWord txPdo 4 Pdo.SignalList
  (task.publish rt m txPdo (txPdo + 72 + 8 * idx.length),
    [.signals ⟨txPdo, rt.signalListId, idx⟩])

/-- The bytes `copyData` takes from the addresses of the signals. -/
def sampled (values : Nat → Nat → Byte) (lists : Nat → List Nat) : List Byte :=
  ((List.range 4).flatMap lists).flatMap fun s =>
    (List.range (S.sizeOf s)).map (values s)

/-- `copyData`; `values` is the memory of the signals at this moment. -/
def copyData (task : Task) (t : Option Timespec) (values : Nat → Nat → Byte) :
    Task × List TaskEvent :=
  let rt := task.rt
  let txPdo := if rt.txPdo + 72 + rt.signalMemSize ≥ S.txMemEnd then S.txMemBegin
    else rt.txPdo
  let time := t.getD ⟨0, 0⟩
  let bytes := sampled S values (copied S rt)
  let m := task.shmem.memory
    |>.putWord (txPdo + 64) 8 0
    |>.putWord txPdo 4 Pdo.Empty
    |>.putWord (txPdo + 4) 4 rt.signalListId
    |>.putWord (txPdo + 16) 4 rt.seqNo
    |>.putWord (txPdo + 40) 8 rt.taskStatistics.exec_time.toNat
    |>.putWord (txPdo + 48) 8 rt.taskStatistics.cycle_time.toNat
    |>.putWord (txPdo + 56) 4 rt.taskStatistics.overrun.toNat
    |>.putWord (txPdo + 24) 8 time.tv_sec.toNat
    |>.putWord (txPdo + 32) 8 time.tv_nsec.toNat
    |>.write (txPdo + 72) bytes
    |>.putWord txPdo 4 Pdo.Data
    |>.putWord (txPdo + 8) 8 bytes.length
  (task.publish { rt with seqNo := (rt.seqNo + 1) % 2 ^ 32 } m txPdo
      (txPdo + 72 + bytes.length),
    [.data
      { address := txPdo
        signalListId := rt.signalListId
        seqNo := rt.seqNo
        time := time
        taskStatistics := rt.taskStatistics
        copied := copied S rt
        values := values
        bytes := bytes }])

/-! ### Steps -/

/-- What a task can do next. -/
inductive Action where
  | subscribe (cs st : Nat) (insert : Bool)
  | updateStatistics (statistics : TaskStatistics)
  | rt_update (t : Option Timespec)
  | processSignalList
  | calculateCopyList
  | copyData (values : Nat → Nat → Byte)

/-- One step; none where it is not the turn of this action. -/
def step (task : Task) : Action → Option (Task × List TaskEvent)
  | .subscribe cs st insert =>
      if cs < S.signals.length then
        (task.subscribe S cs st insert).map fun result => result.2
      else none
  | .updateStatistics statistics =>
      match task.phase with
      | .idle => some ({ task with
          rt := { task.rt with taskStatistics := statistics } }, [])
      | _ => none
  | .rt_update t =>
      match task.phase with
      | .idle => some ({ task with
          phase := if task.shmem.signalListRp = task.shmem.signalListWp then .copying t
            else .draining t }, [])
      | _ => none
  | .processSignalList =>
      match task.phase with
      | .draining _ =>
          if task.shmem.signalListRp = task.shmem.signalListWp then none
          else some (task.processSignalList S)
      | _ => none
  | .calculateCopyList =>
      match task.phase with
      | .draining t =>
          if task.shmem.signalListRp = task.shmem.signalListWp then
            let (task, events) := task.calculateCopyList S
            some ({ task with phase := .copying t }, events)
          else none
      | _ => none
  | .copyData values =>
      match task.phase with
      | .copying t =>
          let (task, events) := task.copyData S t values
          some ({ task with phase := .idle }, events)
      | _ => none

end Task

/-- A run of a task, with everything that happened. -/
inductive TaskRun (S : Setup) : Task → List TaskEvent → Prop
  | start : TaskRun S (Task.init S) []
  | step {task events} (action : Task.Action) {after new} :
      TaskRun S task events → task.step S action = some (after, new) →
      TaskRun S after (events ++ new)

end PdServ
