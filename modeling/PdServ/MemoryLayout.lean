import PdServ.Areas
import PdServ.ParameterTree
import PdServ.Task

/-!
`Main::prefork_init`: the shared memory is sized in one pass over parameters,
tasks and events, and given out in another. The mapping starts on a page and
has the size asked for.
-/

namespace PdServ

mutual
/-- `DataType::align`; that of a primary type is its size. -/
def DataType.align : DataType → Nat
  | .primary kind => kind.size
  | .compound _ fieldList => FieldList.align 1 fieldList
/-- The largest alignment among the fields, `n` being that of those before. -/
def FieldList.align (n : Nat) : FieldList → Nat
  | .nil => n
  | .cons _ type _ _ rest =>
      let n1 := type.align
      FieldList.align (if n < n1 then n1 else n) rest
end

/-- A task with the sizes of its signals, and the number of PDOs that the
buffer time asks for. -/
structure StreamTask where
  signals : List Nat
  bufferCount : Nat

namespace StreamTask

def signalMemSize (task : StreamTask) : Nat := task.signals.sum

/-- `Task::getShmemSpace` -/
def getShmemSpace (task : StreamTask) : Nat :=
  16 + 2 * task.signals.length * 24 +
    (80 + task.signalMemSize) * max task.bufferCount 10

/-- What `Task::prepare` makes of its region. -/
structure Prepared where
  signalListRp : Nat
  signalListWp : Nat
  signalList : Nat
  signalListEnd : Nat
  txMemBegin : Nat
  txMemEnd : Nat
  nextTxPdo : Nat

/-- `Task::prepare` -/
def prepare (task : StreamTask) (shmem shmem_end : Nat) : Prepared :=
  let signalListRp := ptr_align shmem
  let signalListWp := signalListRp + 8
  let signalList := ptr_align (signalListWp + 8)
  let signalListEnd := signalList + 2 * task.signals.length * 24
  { signalListRp := signalListRp
    signalListWp := signalListWp
    signalList := signalList
    signalListEnd := signalListEnd
    txMemBegin := ptr_align signalListEnd
    txMemEnd := shmem_end
    nextTxPdo := ptr_align shmem_end - 16 }

end StreamTask

/-- What `prefork_init` is run on; an event is its number of elements. -/
structure Application where
  parameters : List MainParameter
  tasks : List StreamTask
  events : List Nat

/-- The container of a parameter. -/
def MainParameter.bin (p : MainParameter) : Nat := (dataTypeIndex[p.dtype.align]?).getD 3

/-- Where `prefork_init` puts everything. -/
structure Layout where
  shmem_len : Nat
  shmAddr : List Nat
  signalData : Nat
  /-- The arguments of every `Task::prepare`. -/
  tasks : List (Nat × Nat)
  eventDataWp : Nat
  eventDataStart : Nat
  eventDataEnd : Nat

namespace Application

variable (app : Application)

/-- The largest signal of any task. -/
def maxSignalSize : Nat :=
  app.tasks.foldl (fun largest task =>
    task.signals.foldl (fun largest s => if s > largest then s else largest) largest) 0

/-- The sizes, each in the place behind that of its container. -/
def countSizes (parameters : List MainParameter) : Nat → Nat :=
  parameters.foldl (fun offset p =>
    Function.update offset (p.bin + 1) (offset (p.bin + 1) + p.memSize)) fun _ => 0

/-- `for (i = 1; i < 5; ++i) parameterDataOffset[i] += parameterDataOffset[i-1];` -/
def accumulate (offset : Nat → Nat) : Nat → Nat :=
  [1, 2, 3, 4].foldl (fun offset i =>
    Function.update offset i (offset i + offset (i - 1))) offset

def parameterDataOffset : Nat → Nat := accumulate (countSizes app.parameters)

def eventCount : Nat := app.events.sum

def taskMemSize (task : StreamTask) : Nat := ptr_align task.getShmemSpace

def shmem_len : Nat :=
  app.maxSignalSize + app.parameterDataOffset 4 + 40 * 10 * app.eventCount + 8 +
    (app.tasks.map taskMemSize).sum + (10 + app.tasks.length) * 8

/-- Give every parameter the place its container has reached. -/
def placeParameters (parameterData : Nat) : (Nat → Nat) → List MainParameter → List Nat
  | _, [] => []
  | offset, p :: rest =>
      (parameterData + offset p.bin) ::
        placeParameters parameterData
          (Function.update offset p.bin (offset p.bin + p.memSize)) rest

/-- Prepare every task, from `buf` on; the regions, and what is left of `buf`. -/
def placeTasks : Nat → List StreamTask → List (Nat × Nat) × Nat
  | buf, [] => ([], buf)
  | buf, task :: rest =>
      let (regions, behind) := placeTasks (ptr_align (buf + taskMemSize task)) rest
      ((buf, buf + taskMemSize task) :: regions, behind)

/-- `Main::prefork_init` for a mapping at `shmem`; none is `ENOMEM`. -/
def prefork_init (shmem : Nat) : Option Layout :=
  let parameterData := ptr_align shmem
  let signalData := ptr_align (parameterData + app.parameterDataOffset 4)
  let buf := ptr_align (signalData + app.maxSignalSize)
  let (tasks, buf) := placeTasks buf app.tasks
  let eventDataWp := ptr_align buf
  let eventDataStart := ptr_align (eventDataWp + 8)
  let eventDataEnd := eventDataStart + 40 * 10 * app.eventCount
  if eventDataEnd + 40 > shmem + app.shmem_len then none
  else some
    { shmem_len := app.shmem_len
      shmAddr := placeParameters parameterData app.parameterDataOffset app.parameters
      signalData := signalData
      tasks := tasks
      eventDataWp := eventDataWp
      eventDataStart := eventDataStart
      eventDataEnd := eventDataEnd }

end Application

/-! ### Alignment of types -/

theorem ptr_align_dvd (p : Nat) : 8 ∣ ptr_align p := Nat.dvd_mul_left ..

theorem ptr_align_eq {p : Nat} (aligned : 8 ∣ p) : ptr_align p = p := by
  unfold ptr_align
  omega

/-- Alignments are powers of two up to the largest primary type. -/
def IsAlign (n : Nat) : Prop := n = 1 ∨ n = 2 ∨ n = 4 ∨ n = 8

mutual
theorem DataType.isAlign_align : (type : DataType) → IsAlign type.align
  | .primary kind => by
      cases kind <;> simp [DataType.align, Primary.size, IsAlign]
  | .compound _ fieldList => by
      rw [DataType.align]
      exact FieldList.isAlign_align (.inl rfl) fieldList
theorem FieldList.isAlign_align {n : Nat} (before : IsAlign n) :
    (fieldList : FieldList) → IsAlign (fieldList.align n)
  | .nil => by
      rw [FieldList.align]
      exact before
  | .cons _ type _ _ rest => by
      rw [FieldList.align]
      split
      · exact FieldList.isAlign_align type.isAlign_align rest
      · exact FieldList.isAlign_align before rest
end

/-- The alignment of a container. -/
def width (w : Nat) : Nat := 8 / 2 ^ w

theorem MainParameter.bin_lt (p : MainParameter) : p.bin < 4 := by
  rcases p.dtype.isAlign_align with same | same | same | same <;>
    simp [bin, same, dataTypeIndex]

theorem MainParameter.width_bin (p : MainParameter) : width p.bin = p.dtype.align := by
  rcases p.dtype.isAlign_align with same | same | same | same <;>
    simp [bin, width, same, dataTypeIndex]

namespace Application

variable {app : Application}

/-- The size of all parameters in a container. -/
abbrev binSize (parameters : List MainParameter) (w : Nat) : Nat :=
  Areas.total MainParameter.bin MainParameter.memSize parameters w

theorem countSizes_eq (parameters : List MainParameter) :
    countSizes parameters 0 = 0 ∧
      ∀ w, countSizes parameters (w + 1) = binSize parameters w := by
  suffices general : ∀ offset : Nat → Nat,
      (parameters.foldl (fun offset p =>
        Function.update offset (p.bin + 1) (offset (p.bin + 1) + p.memSize)) offset) 0 =
          offset 0 ∧
      ∀ w, (parameters.foldl (fun offset p =>
        Function.update offset (p.bin + 1) (offset (p.bin + 1) + p.memSize)) offset) (w + 1) =
          offset (w + 1) + binSize parameters w by
    simpa [countSizes] using general fun _ => 0
  induction parameters with
  | nil => exact fun offset => ⟨rfl, fun w => rfl⟩
  | cons p rest ih =>
      intro offset
      obtain ⟨first, others⟩ := ih
        (Function.update offset (p.bin + 1) (offset (p.bin + 1) + p.memSize))
      simp only [List.foldl_cons]
      constructor
      · rw [first, Function.update_of_ne (by omega)]
      · intro w
        rw [others]
        simp only [binSize, Areas.total]
        by_cases same : p.bin = w
        · subst same
          rw [Function.update_self, if_pos rfl]
          omega
        · rw [Function.update_of_ne (by omega), if_neg same]
          omega

theorem parameterDataOffset_eq (app : Application) :
    let size := binSize app.parameters
    app.parameterDataOffset 0 = 0 ∧ app.parameterDataOffset 1 = size 0 ∧
      app.parameterDataOffset 2 = size 0 + size 1 ∧
      app.parameterDataOffset 3 = size 0 + size 1 + size 2 ∧
      app.parameterDataOffset 4 = size 0 + size 1 + size 2 + size 3 := by
  obtain ⟨first, others⟩ := countSizes_eq app.parameters
  have one := others 0
  have two := others 1
  have three := others 2
  have four := others 3
  simp only [Nat.reduceAdd] at one two three four
  simp [parameterDataOffset, accumulate, Function.update, first, one, two, three, four]
  omega

theorem parameterDataOffset_le {w v : Nat} (less : w < v) (bin : v ≤ 4) :
    app.parameterDataOffset w + binSize app.parameters w ≤ app.parameterDataOffset v := by
  obtain ⟨zero, one, two, three, four⟩ := parameterDataOffset_eq app
  have cases : v = 1 ∨ v = 2 ∨ v = 3 ∨ v = 4 := by omega
  have cases' : w = 0 ∨ w = 1 ∨ w = 2 ∨ w = 3 := by omega
  rcases cases with rfl | rfl | rfl | rfl <;>
    rcases cases' with rfl | rfl | rfl | rfl <;> omega

/-! ### The parameters -/

theorem placeParameters_eq (base : Nat) (offset : Nat → Nat)
    (parameters : List MainParameter) :
    (placeParameters base offset parameters).zip (parameters.map MainParameter.memSize) =
      Areas.place MainParameter.bin MainParameter.memSize (fun w => base + offset w)
        parameters := by
  induction parameters generalizing offset with
  | nil => rfl
  | cons p rest ih =>
      have moved : (fun w => base +
          Function.update offset p.bin (offset p.bin + p.memSize) w) =
          Function.update (fun w => base + offset w) p.bin
            (base + offset p.bin + p.memSize) := by
        funext w
        by_cases same : w = p.bin
        · subst same
          simp [Nat.add_assoc]
        · simp [same]
      simp only [placeParameters, List.map_cons, List.zip_cons_cons, Areas.place]
      rw [ih, moved]

theorem length_placeParameters (base : Nat) (offset : Nat → Nat)
    (parameters : List MainParameter) :
    (placeParameters base offset parameters).length = parameters.length := by
  induction parameters generalizing offset with
  | nil => rfl
  | cons p rest ih => simp [placeParameters, ih]

/-- The places of the parameters behind `base`. -/
def parameterAreas (app : Application) (base : Nat) : List Areas.Area :=
  (placeParameters base app.parameterDataOffset app.parameters).zip
    (app.parameters.map MainParameter.memSize)

theorem parameterAreas_within (base : Nat) : ∀ a ∈ app.parameterAreas base,
    Areas.Within base (base + app.parameterDataOffset 4) a := by
  intro a member
  rw [parameterAreas, placeParameters_eq] at member
  obtain ⟨w, ⟨p, there, same⟩, low, high⟩ := Areas.place_within a member
  subst same
  have last : app.parameterDataOffset p.bin + binSize app.parameters p.bin ≤
      app.parameterDataOffset 4 := parameterDataOffset_le p.bin_lt (Nat.le_refl 4)
  simp only [binSize] at last
  constructor <;> omega

theorem parameterAreas_pairwise (base : Nat) :
    (app.parameterAreas base).Pairwise Areas.Apart := by
  rw [parameterAreas, placeParameters_eq]
  apply Areas.place_pairwise
  intro p _ other _ less
  have behind : app.parameterDataOffset p.bin + binSize app.parameters p.bin ≤
      app.parameterDataOffset other.bin := parameterDataOffset_le less other.bin_lt.le
  simp only [binSize] at behind
  omega

/-- The places of the containers are aligned when the sizes of the types are. -/
theorem total_dvd (width : Nat → Nat) {parameters : List MainParameter}
    (sizes : ∀ p ∈ parameters, width p.bin ∣ p.memSize) (w : Nat) :
    width w ∣ binSize parameters w := by
  induction parameters with
  | nil => exact Nat.dvd_zero _
  | cons p rest ih =>
      simp only [binSize, Areas.total]
      apply Nat.dvd_add
      · split
        · next same =>
          subst same
          exact sizes p List.mem_cons_self
        · exact Nat.dvd_zero _
      · exact ih fun other member => sizes other (List.mem_cons_of_mem _ member)

theorem parameterDataOffset_dvd
    (sizes : ∀ p ∈ app.parameters, width p.bin ∣ p.memSize) {w : Nat} (bin : w < 4) :
    width w ∣ app.parameterDataOffset w := by
  obtain ⟨zero, one, two, three, -⟩ := parameterDataOffset_eq app
  have first := total_dvd width sizes 0
  have second := total_dvd width sizes 1
  have third := total_dvd width sizes 2
  simp only [width] at *
  have cases : w = 0 ∨ w = 1 ∨ w = 2 ∨ w = 3 := by omega
  rcases cases with rfl | rfl | rfl | rfl <;> omega

theorem parameters_aligned {base : Nat} (aligned : 8 ∣ base)
    (sizes : ∀ p ∈ app.parameters, p.dtype.align ∣ p.dtype.size)
    {i : Nat} {p : MainParameter} (found : app.parameters[i]? = some p) :
    ∃ a, (placeParameters base app.parameterDataOffset app.parameters)[i]? = some a ∧
      p.dtype.align ∣ a := by
  have sizes' : ∀ p ∈ app.parameters, width p.bin ∣ p.memSize := by
    intro p member
    rw [p.width_bin]
    exact Nat.dvd_mul_left_of_dvd (sizes p member) _
  have bases : ∀ p ∈ app.parameters, width p.bin ∣ base + app.parameterDataOffset p.bin := by
    intro p _
    apply Nat.dvd_add
    · have divides : width p.bin ∣ 8 := by
        rw [p.width_bin]
        rcases p.dtype.isAlign_align with same | same | same | same <;> rw [same] <;> decide
      exact Nat.dvd_trans divides aligned
    · exact parameterDataOffset_dvd sizes' p.bin_lt
  obtain ⟨a, here, divides⟩ : ∃ a, (Areas.place MainParameter.bin MainParameter.memSize
      (fun w => base + app.parameterDataOffset w) app.parameters)[i]? = some a ∧
      width p.bin ∣ a.1 := Areas.place_aligned width sizes' bases i p found
  rw [p.width_bin] at divides
  rw [← placeParameters_eq, List.getElem?_zip_eq_some] at here
  exact ⟨a.1, here.1, divides⟩

/-! ### The tasks -/

/-- A region of a task begins aligned and has the size the task asked for. -/
def GivenTo (task : StreamTask) (region : Nat × Nat) : Prop :=
  8 ∣ region.1 ∧ region.2 = region.1 + taskMemSize task

/-- A region as start and length. -/
def regionArea (region : Nat × Nat) : Areas.Area := (region.1, region.2 - region.1)

theorem placeTasks_spec (tasks : List StreamTask) {buf : Nat} (aligned : 8 ∣ buf) :
    let placed := placeTasks buf tasks
    placed.2 = buf + (tasks.map taskMemSize).sum ∧ 8 ∣ placed.2 ∧
      List.Forall₂ GivenTo tasks placed.1 ∧
      (placed.1.map regionArea).Pairwise Areas.Apart ∧
      ∀ a ∈ placed.1.map regionArea, Areas.Within buf placed.2 a := by
  induction tasks generalizing buf with
  | nil => exact ⟨rfl, aligned, .nil, List.Pairwise.nil, by simp [placeTasks]⟩
  | cons task rest ih =>
      have whole : 8 ∣ taskMemSize task := ptr_align_dvd _
      have next : 8 ∣ buf + taskMemSize task := Nat.dvd_add aligned whole
      obtain ⟨behind, aligned', given, apart, within⟩ := ih next
      simp only [placeTasks, ptr_align_eq next, List.map_cons, List.sum_cons]
      have above : ∀ a ∈ (placeTasks (buf + taskMemSize task) rest).1.map regionArea,
          Areas.Within (buf + (buf + taskMemSize task - buf))
            (placeTasks (buf + taskMemSize task) rest).2 a := by
        intro a member
        rw [Nat.add_sub_cancel_left]
        exact within a member
      refine ⟨by omega, aligned', .cons ⟨aligned, rfl⟩ given,
        Areas.pairwise_cons apart above, ?_⟩
      intro a member
      rcases List.mem_cons.mp member with rfl | member
      · simp only [regionArea, Areas.Within]
        omega
      · exact (within a member).mono (Nat.le_add_right ..) (Nat.le_refl _)

/-- In the region it is given, a task has its two pointers, the ring of changes
and at least ten Data PDOs of the largest size one behind the other. -/
def Holds (task : StreamTask) (region : Nat × Nat) : Prop :=
  let p := task.prepare region.1 region.2
  region.1 ≤ p.signalListRp ∧ p.signalListRp + 8 ≤ p.signalListWp ∧
    p.signalListWp + 8 ≤ p.signalList ∧
    p.signalListEnd = p.signalList + 2 * task.signals.length * 24 ∧
    p.signalListEnd ≤ p.txMemBegin ∧
    p.txMemBegin + 10 * ptr_align (72 + task.signalMemSize) ≤ p.txMemEnd ∧
    p.txMemEnd = region.2 ∧ p.txMemBegin ≤ p.nextTxPdo ∧ p.nextTxPdo + 8 ≤ p.txMemEnd

theorem GivenTo.holds {task : StreamTask} {region : Nat × Nat}
    (given : GivenTo task region) : Holds task region := by
  obtain ⟨aligned, size⟩ := given
  have start : 8 ∣ region.1 + 8 + 8 := by omega
  have ring : 8 ∣ region.1 + 8 + 8 + 2 * task.signals.length * 24 := by omega
  have whole : 8 ∣ taskMemSize task := ptr_align_dvd _
  have stop : 8 ∣ region.2 := by
    rw [size]
    exact Nat.dvd_add aligned whole
  have enough : task.getShmemSpace ≤ taskMemSize task := le_ptr_align _
  have ten : (80 + task.signalMemSize) * 10 ≤
      (80 + task.signalMemSize) * max task.bufferCount 10 :=
    Nat.mul_le_mul_left _ (Nat.le_max_right ..)
  have largest := ptr_align_lt (72 + task.signalMemSize)
  unfold StreamTask.getShmemSpace at enough
  simp only [Holds, StreamTask.prepare, ptr_align_eq aligned, ptr_align_eq start,
    ptr_align_eq ring, ptr_align_eq stop, Nat.le_refl, true_and]
  omega

/-! ### The polling area -/

theorem le_foldl_max (sizes : List Nat) (largest : Nat) :
    largest ≤ sizes.foldl (fun largest s => if s > largest then s else largest) largest ∧
      ∀ s ∈ sizes, s ≤
        sizes.foldl (fun largest s => if s > largest then s else largest) largest := by
  induction sizes generalizing largest with
  | nil => simp
  | cons first rest ih =>
      obtain ⟨grown, rest_le⟩ := ih (if first > largest then first else largest)
      simp only [List.foldl_cons, List.mem_cons, forall_eq_or_imp]
      refine ⟨?_, ?_, rest_le⟩
      · refine Nat.le_trans ?_ grown
        split <;> omega
      · refine Nat.le_trans ?_ grown
        split <;> omega

theorem le_maxSignalSize (app : Application) : ∀ task ∈ app.tasks,
    ∀ s ∈ task.signals, s ≤ app.maxSignalSize := by
  unfold maxSignalSize
  suffices general : ∀ (tasks : List StreamTask) (largest : Nat),
      largest ≤ tasks.foldl (fun largest task =>
        task.signals.foldl (fun largest s => if s > largest then s else largest) largest)
          largest ∧
      ∀ task ∈ tasks, ∀ s ∈ task.signals, s ≤ tasks.foldl (fun largest task =>
        task.signals.foldl (fun largest s => if s > largest then s else largest) largest)
          largest from (general app.tasks 0).2
  intro tasks
  induction tasks with
  | nil => simp
  | cons first rest ih =>
      intro largest
      obtain ⟨grown, first_le⟩ := le_foldl_max first.signals largest
      obtain ⟨more, rest_le⟩ := ih (first.signals.foldl
        (fun largest s => if s > largest then s else largest) largest)
      simp only [List.foldl_cons, List.mem_cons, forall_eq_or_imp]
      exact ⟨grown.trans more, fun s member => (first_le s member).trans more, rest_le⟩

/-! ### The whole -/

/-- All areas: the parameters, the one for polling, those of the tasks, and the
write pointer and the ring of the events. -/
def areas (app : Application) (layout : Layout) : List Areas.Area :=
  layout.shmAddr.zip (app.parameters.map MainParameter.memSize) ++
    ((layout.signalData, app.maxSignalSize) ::
      (layout.tasks.map regionArea ++
        [(layout.eventDataWp, 8),
          (layout.eventDataStart, layout.eventDataEnd - layout.eventDataStart)]))

/-- Areas one behind the other: parameters, polling, tasks, and the events. -/
theorem sequence_apart {parameters streams : List Areas.Area}
    {low signalData size buf wp start stop : Nat}
    (left : parameters.Pairwise Areas.Apart)
    (left_within : ∀ a ∈ parameters, Areas.Within low signalData a)
    (poll : signalData + size ≤ buf)
    (right : streams.Pairwise Areas.Apart)
    (right_within : ∀ a ∈ streams, Areas.Within buf wp a)
    (order : low ≤ signalData) (order' : buf ≤ wp) (events : wp + 8 ≤ start)
    (ring : start ≤ stop) :
    let all := parameters ++ ((signalData, size) ::
      (streams ++ [(wp, 8), (start, stop - start)]))
    all.Pairwise Areas.Apart ∧ ∀ a ∈ all, Areas.Within low stop a := by
  have pointers : [(wp, 8), (start, stop - start)].Pairwise Areas.Apart := by
    simp [Areas.Apart, events]
  have pointers_within : ∀ a ∈ [(wp, 8), (start, stop - start)], Areas.Within wp stop a := by
    simp only [List.mem_cons, List.not_mem_nil, or_false, forall_eq_or_imp, forall_eq,
      Areas.Within]
    omega
  have tasks := Areas.pairwise_append right pointers right_within pointers_within
  have tasks_within : ∀ a ∈ streams ++ [(wp, 8), (start, stop - start)],
      Areas.Within (signalData + size) stop a := by
    intro a member
    rcases List.mem_append.mp member with stream | event
    · exact (right_within a stream).mono poll (by omega)
    · exact (pointers_within a event).mono (by omega) (Nat.le_refl _)
  have behind : ∀ a ∈ (signalData, size) :: (streams ++ [(wp, 8), (start, stop - start)]),
      Areas.Within signalData stop a := by
    intro a member
    rcases List.mem_cons.mp member with rfl | member
    · exact ⟨Nat.le_refl _, by omega⟩
    · exact (tasks_within a member).mono (Nat.le_add_right ..) (Nat.le_refl _)
  constructor
  · exact Areas.pairwise_append left (Areas.pairwise_cons tasks tasks_within) left_within behind
  · intro a member
    rcases List.mem_append.mp member with parameter | other
    · exact (left_within a parameter).mono (Nat.le_refl _) (by omega)
    · exact (behind a other).mono order (Nat.le_refl _)

theorem prefork_init_lays_out (app : Application) {shmem : Nat} (page : 4096 ∣ shmem) :
    ∃ layout, app.prefork_init shmem = some layout ∧
      (app.areas layout).Pairwise Areas.Apart ∧
      (∀ a ∈ app.areas layout, Areas.Within shmem (shmem + layout.shmem_len) a) ∧
      layout.shmAddr.length = app.parameters.length ∧
      (∀ task ∈ app.tasks, ∀ s ∈ task.signals, s ≤ app.maxSignalSize) ∧
      ((∀ p ∈ app.parameters, p.dtype.align ∣ p.dtype.size) →
        ∀ (i : Nat) p, app.parameters[i]? = some p →
          ∃ a, layout.shmAddr[i]? = some a ∧ p.dtype.align ∣ a) ∧
      List.Forall₂ Holds app.tasks layout.tasks := by
  have base : 8 ∣ shmem := Nat.dvd_trans (by decide) page
  have first := le_ptr_align (shmem + app.parameterDataOffset 4)
  have first' := ptr_align_lt (shmem + app.parameterDataOffset 4)
  generalize polling : ptr_align (shmem + app.parameterDataOffset 4) = signalData at first first'
  have second := le_ptr_align (signalData + app.maxSignalSize)
  have second' := ptr_align_lt (signalData + app.maxSignalSize)
  have whole := ptr_align_dvd (signalData + app.maxSignalSize)
  generalize streaming : ptr_align (signalData + app.maxSignalSize) = buf at second second' whole
  obtain ⟨behind, aligned, given, apart, within⟩ := placeTasks_spec app.tasks whole
  generalize placed : placeTasks buf app.tasks = tasks at behind aligned given apart within
  have wp : 8 ∣ tasks.2 + 8 := by omega
  -- three alignments take up 7 bytes each at most, and 80 are there for them
  have fits : tasks.2 + 8 + 40 * 10 * app.eventCount + 40 ≤ shmem + app.shmem_len := by
    unfold shmem_len
    omega
  obtain ⟨all_apart, all_within⟩ := sequence_apart (parameterAreas_pairwise shmem)
    (fun a member => (parameterAreas_within shmem a member).mono (Nat.le_refl _) first)
    second apart within (by omega) (by omega) (Nat.le_refl (tasks.2 + 8))
    (Nat.le_add_right _ (40 * 10 * app.eventCount))
  refine ⟨
    { shmem_len := app.shmem_len
      shmAddr := placeParameters shmem app.parameterDataOffset app.parameters
      signalData := signalData
      tasks := tasks.1
      eventDataWp := tasks.2
      eventDataStart := tasks.2 + 8
      eventDataEnd := tasks.2 + 8 + 40 * 10 * app.eventCount }, ?_, all_apart, ?_,
    length_placeParameters .., le_maxSignalSize app, ?_, ?_⟩
  · unfold prefork_init
    dsimp only
    rw [ptr_align_eq base, polling, streaming, placed, ptr_align_eq aligned, ptr_align_eq wp,
      if_neg (by omega)]
  · intro a member
    exact (all_within a member).mono (Nat.le_refl _) (by dsimp only; omega)
  · intro sizes i p found
    exact parameters_aligned base sizes found
  · exact given.imp fun _ _ region => region.holds

/-- Two parameters, a task with one signal, and an event. -/
def sample : Application where
  parameters := [⟨[112], .primary .uint8, ⟨[3], DimType.positive_three⟩⟩, ⟨[113], .primary .double, .single⟩]
  tasks := [⟨[8], 20⟩]
  events := [2]

theorem prefork_init_lays_out_sample :
    ∃ layout, sample.prefork_init 4096 = some layout ∧ layout.shmAddr = [4104, 4096] ∧
      (sample.areas layout).Pairwise Areas.Apart := by
  obtain ⟨layout, result, apart, -⟩ := sample.prefork_init_lays_out (Nat.dvd_refl 4096)
  refine ⟨layout, result, ?_, apart⟩
  have same : (sample.prefork_init 4096).map Layout.shmAddr = some [4104, 4096] := by decide
  rw [result] at same
  exact Option.some.inj same

end Application

end PdServ
