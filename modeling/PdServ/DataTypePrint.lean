import PdServ.RowMajor

/-!
`DataType::print`, which writes the values of a variable as a comma separated list.
The end of the printed range bounds the loop over the elements, and a field that
reaches it ends the whole printing. That is meant for a range that stops inside an
element, but the last field of an element in memory reaches the end as well, and it
need not be the last one declared.
-/

namespace PdServ

/-- The number of elements a dimension vector stands for. -/
def DimType.elements (dim : DimType) : Nat := dim.dims.prod

theorem DimType.nelem_le (dim : DimType) : dim.nelem ≤ dim.elements := by
  rw [nelem_eq]
  exact Nat.mod_le _ _

theorem DimType.nelem_iff (dim : DimType) : dim.nelem = dim.elements ↔ dim.elements < 2 ^ 32 := by
  rw [nelem_eq, elements]
  constructor
  · intro same
    rw [← same]
    exact Nat.mod_lt _ (by decide)
  · exact Nat.mod_eq_of_lt

theorem DimType.elements_pos (dim : DimType) : 0 < dim.elements :=
  List.prod_pos dim.positive

theorem Primary.size_pos (kind : Primary) : 0 < kind.size := by
  cases kind <;> decide

namespace DataType

/-- A value of a primary type in memory. -/
structure Leaf where
  kind : Primary
  address : Nat
deriving DecidableEq, Repr

/-- What is sent to the stream: `os << delim` and `os << *val`. -/
inductive Output where
  | delim
  | value (leaf : Leaf)
deriving DecidableEq, Repr

/-! ### Printing -/

/-- `if (delim) os << delim; delim = ',';` in front of the next output. -/
def separate (delim : Bool) (out : List Output) : List Output :=
  if delim then .delim :: out else out

/-- The loop of `PrimaryType<T>::print` with at most `rounds` rounds to go. -/
def printValues (kind : Primary) (start last : Nat) :
    (rounds : Nat) → (delim : Bool) → (val : Nat) → List Output
  | 0, _, _ => []
  | rounds + 1, delim, val =>
      if val < last then
        if val < start then printValues kind start last rounds delim (val + kind.size)
        else separate delim
          (.value ⟨kind, val⟩ :: printValues kind start last rounds true (val + kind.size))
      else []

/-- The loop over the elements. `fields` prints one element and gives the `delim` for
the next one, or none for a `return`. No result where the loop does not end. -/
def printElements (size : Nat) (fields : Bool → Nat → Option (List Output × Option Bool))
    (last : Nat) : (rounds : Nat) → (delim : Bool) → (data : Nat) → Option (List Output)
  | 0, _, data => if data < last then none else some []
  | rounds + 1, delim, data =>
      if data < last then
        match fields delim data with
        | none => none
        | some (out, none) => some out
        | some (out, some delim) =>
            (printElements size fields last rounds delim (data + size)).map (out ++ ·)
      else some []

mutual
def print : DataType → (data start last : Nat) → Option (List Output)
  | .primary kind, data, start, last =>
      some (printValues kind start last (last - data) false data)
  | .compound size fieldList, data, start, last =>
      printElements size (fun delim data => printFields fieldList delim data start last) last
        (last - data) false data
def printFields : FieldList → (delim : Bool) → (data start last : Nat) →
    Option (List Output × Option Bool)
  | .nil, delim, _, _, _ => some ([], some delim)
  | .cons _ type offset dim rest, delim, data, start, last =>
      let p1 := data + offset
      if p1 < start then printFields rest delim data start last
      else
        let p2 := p1 + dim.nelem * type.size
        if p2 < last then do
          let inner ← print type p1 start p2
          let others ← printFields rest true data start last
          return (separate delim inner ++ others.1, others.2)
        else do
          let inner ← print type p1 start last
          return (separate delim inner, none)
end

/-! ### What there is to print -/

mutual
/-- The values of `n` elements in declaration order, with `count` elements in a field. -/
def leavesAt (count : DimType → Nat) : DataType → (n base : Nat) → List Leaf
  | .primary kind, n, base => (List.range n).map fun i => ⟨kind, base + i * kind.size⟩
  | .compound size fieldList, n, base =>
      (List.range n).flatMap fun i => fieldLeavesAt count fieldList (base + i * size)
def fieldLeavesAt (count : DimType → Nat) : FieldList → (base : Nat) → List Leaf
  | .nil, _ => []
  | .cons _ type offset dim rest, base =>
      leavesAt count type (count dim) (base + offset) ++ fieldLeavesAt count rest base
end

/-- Values with single commas between them, and one in front if `delim` is set. -/
def joined (delim : Bool) : List Leaf → List Output
  | [] => []
  | leaf :: rest => separate delim (.value leaf :: joined true rest)

/-- `print(os, data, data, data + n * size)` prints every value of the elements. -/
def PrintsAll (dtype : DataType) (n data : Nat) : Prop :=
  dtype.print data data (data + n * dtype.size) =
    some (joined false (leavesAt DimType.elements dtype n data))

def hasFields : DataType → Prop
  | .primary _ => True
  | .compound _ fieldList => fieldList ≠ .nil

mutual
/-- Fields lie within the size, and nested compounds have fields. -/
def Laid : DataType → Prop
  | .primary _ => True
  | .compound size fieldList => LaidIn size fieldList
def LaidIn (size : Nat) : FieldList → Prop
  | .nil => True
  | .cons _ type offset dim rest =>
      offset + dim.elements * type.size ≤ size ∧ hasFields type ∧ Laid type ∧ LaidIn size rest
end

mutual
/-- No field ends where its compound ends but the one declared last, and `nelem` holds
the number of its elements. -/
def Complete : DataType → Prop
  | .primary _ => True
  | .compound size fieldList => CompleteIn size fieldList
def CompleteIn (size : Nat) : FieldList → Prop
  | .nil => True
  | .cons _ type offset dim rest =>
      dim.elements < 2 ^ 32 ∧ Complete type ∧
        (rest = .nil ∨ offset + dim.elements * type.size < size) ∧ CompleteIn size rest
end

/-! ### Lists of values -/

theorem joined_append (delim : Bool) (first second : List Leaf) :
    joined delim (first ++ second) =
      joined delim first ++ joined (delim || !first.isEmpty) second := by
  induction first generalizing delim with
  | nil => simp [joined]
  | cons leaf rest ih =>
      rw [List.cons_append, joined, joined, ih]
      cases delim <;> simp [separate]

theorem separate_joined (delim : Bool) {values : List Leaf} (some : values ≠ []) :
    separate delim (joined false values) = joined delim values := by
  obtain ⟨leaf, rest, rfl⟩ := List.exists_cons_of_ne_nil some
  cases delim <;> rfl

def isValue : Output → Bool
  | .delim => false
  | .value _ => true

/-- How many values are printed. -/
def values (out : List Output) : Nat := out.countP isValue

theorem values_append (first second : List Output) :
    values (first ++ second) = values first + values second := List.countP_append

theorem values_separate (delim : Bool) (out : List Output) :
    values (separate delim out) = values out := by
  cases delim <;> simp [separate, values, isValue]

theorem values_joined (delim : Bool) (list : List Leaf) :
    values (joined delim list) = list.length := by
  induction list generalizing delim with
  | nil => rfl
  | cons leaf rest ih =>
      rw [joined, values_separate, List.length_cons, ← ih true]
      exact List.countP_cons_of_pos rfl

mutual
def leafCount : DataType → Nat
  | .primary _ => 1
  | .compound _ fieldList => leafCountIn fieldList
def leafCountIn : FieldList → Nat
  | .nil => 0
  | .cons _ type _ dim rest => dim.elements * leafCount type + leafCountIn rest
end

mutual
theorem leavesAt_length (dtype : DataType) (n base : Nat) :
    (leavesAt DimType.elements dtype n base).length = n * leafCount dtype := by
  cases dtype with
  | primary kind => simp [leavesAt, leafCount]
  | compound size fieldList =>
      have each : ∀ i, (fieldLeavesAt DimType.elements fieldList (base + i * size)).length =
          leafCountIn fieldList := fun i => fieldLeavesAt_length fieldList _
      simp only [leavesAt, List.length_flatMap, each, leafCount]
      simp
theorem fieldLeavesAt_length (fieldList : FieldList) (base : Nat) :
    (fieldLeavesAt DimType.elements fieldList base).length = leafCountIn fieldList := by
  cases fieldList with
  | nil => rfl
  | cons name type offset dim rest =>
      rw [fieldLeavesAt, List.length_append, leavesAt_length type, fieldLeavesAt_length rest, leafCountIn]
end

mutual
theorem leafCount_pos (dtype : DataType) (laid : Laid dtype) (fields : hasFields dtype) :
    0 < leafCount dtype := by
  cases dtype with
  | primary kind => exact Nat.one_pos
  | compound size fieldList => exact leafCountIn_pos size fieldList laid fields
theorem leafCountIn_pos (size : Nat) (fieldList : FieldList) (laid : LaidIn size fieldList)
    (some : fieldList ≠ .nil) : 0 < leafCountIn fieldList := by
  cases fieldList with
  | nil => exact absurd rfl some
  | cons name type offset dim rest =>
      have first := leafCount_pos type laid.2.2.1 laid.2.1
      exact Nat.add_pos_left (Nat.mul_pos dim.elements_pos first) _
end

mutual
theorem size_pos (dtype : DataType) (laid : Laid dtype) (fields : hasFields dtype) :
    0 < dtype.size := by
  cases dtype with
  | primary kind => exact kind.size_pos
  | compound size fieldList => exact size_pos_in size fieldList laid fields
theorem size_pos_in (size : Nat) (fieldList : FieldList) (laid : LaidIn size fieldList)
    (some : fieldList ≠ .nil) : 0 < size := by
  cases fieldList with
  | nil => exact absurd rfl some
  | cons name type offset dim rest =>
      have inside := size_pos type laid.2.2.1 laid.2.1
      have bytes := Nat.mul_pos dim.elements_pos inside
      have within := laid.1
      omega
end

/-! ### The values of a primary type -/

theorem printValues_eq (kind : Primary) {start last : Nat} (n rounds : Nat) (delim : Bool)
    {val : Nat} (above : start ≤ val) (range : last = val + n * kind.size)
    (enough : n ≤ rounds) :
    printValues kind start last rounds delim val =
      joined delim ((List.range n).map fun i => ⟨kind, val + i * kind.size⟩) := by
  induction n generalizing rounds delim val with
  | zero =>
      cases rounds with
      | zero => rfl
      | succ rounds =>
          rw [printValues, if_neg (by omega)]
          rfl
  | succ n ih =>
      obtain ⟨rounds, rfl⟩ := Nat.exists_eq_add_of_le' (Nat.le_of_add_left_le enough)
      have bytes := kind.size_pos
      have behind : val + (n + 1) * kind.size = val + kind.size + n * kind.size := by ring
      rw [printValues, if_pos (by rw [range, behind]; omega), if_neg (Nat.not_lt.mpr above),
        ih rounds true (Nat.le_add_right_of_le above) (range.trans behind)
        (Nat.le_of_succ_le_succ enough), List.range_succ_eq_map, List.map_cons, joined,
        List.map_map]
      congr 2
      · simp
      · congr 2
        funext i
        simp only [Function.comp_apply, Nat.succ_eq_add_one]
        congr 1
        ring

theorem print_primary (kind : Primary) {data start : Nat} (n : Nat) (above : start ≤ data) :
    print (.primary kind) data start (data + n * kind.size) =
      some (joined false ((List.range n).map fun i => ⟨kind, data + i * kind.size⟩)) := by
  have enough : n ≤ n * kind.size := Nat.le_mul_of_pos_right n kind.size_pos
  rw [print, printValues_eq kind n _ false above rfl (by omega)]

/-! ### Nothing is left out -/

theorem range_flatMap_succ {β : Type} (n : Nat) (f : Nat → List β) :
    (List.range (n + 1)).flatMap f = f 0 ++ (List.range n).flatMap fun i => f (i + 1) := by
  rw [List.range_succ_eq_map, List.flatMap_cons, List.flatMap_map]

/-- The rule for the loop over the elements, of which only the last one may end in a
`return`. -/
theorem printElements_rule {size start last : Nat}
    (fields : Bool → Nat → Option (List Output × Option Bool))
    (P : (n : Nat) → (delim : Bool) → (data : Nat) → List Output → Prop) (bytes : 0 < size)
    (each : ∀ delim base, start ≤ base → base + size ≤ last → ∃ out next,
      fields delim base = some (out, next) ∧ (base + size < last → next.isSome = true))
    (nothing : ∀ delim base, P 0 delim base [])
    (stops : ∀ delim base out, start ≤ base → base + size = last →
      fields delim base = some (out, none) → P 1 delim base out)
    (goes_on : ∀ n delim base out next rest, start ≤ base → base + (n + 1) * size = last →
      fields delim base = some (out, some next) → P n next (base + size) rest →
      P (n + 1) delim base (out ++ rest))
    (n rounds : Nat) (delim : Bool) (data : Nat) (above : start ≤ data)
    (range : data + n * size = last) (enough : n ≤ rounds) :
    ∃ out, printElements size fields last rounds delim data = some out ∧ P n delim data out := by
  induction n generalizing rounds delim data with
  | zero =>
      refine ⟨[], ?_, nothing delim data⟩
      cases rounds with
      | zero => rw [printElements, if_neg (by omega)]
      | succ rounds => rw [printElements, if_neg (by omega)]
  | succ n ih =>
      cases rounds with
      | zero => omega
      | succ rounds =>
        have split : data + (n + 1) * size = data + size + n * size := by ring
        obtain ⟨out, next, printed, more⟩ := each delim data above (by omega)
        rw [printElements, if_pos (by omega), printed]
        cases next with
        | none =>
            have final : n = 0 := by
              by_contra some
              have one : size ≤ n * size := Nat.le_mul_of_pos_left _ (Nat.pos_of_ne_zero some)
              exact absurd (more (by omega)) nofun
            subst final
            exact ⟨out, rfl, stops delim data out above (by omega) printed⟩
        | some next =>
            obtain ⟨rest, later, holds⟩ := ih rounds next (data + size)
              (Nat.le_add_right_of_le above) (split.symm.trans range)
              (Nat.le_of_succ_le_succ enough)
            refine ⟨out ++ rest, by simp only [later, Option.map_some], ?_⟩
            exact goes_on n delim data out next rest above range printed holds

/-- The values of `n` elements, those of the first one split off. -/
theorem elements_succ {β : Type} (list : Nat → List β) (n data size : Nat) :
    ((List.range (n + 1)).flatMap fun i => list (data + i * size)) =
      list data ++ (List.range n).flatMap fun i => list (data + size + i * size) := by
  rw [range_flatMap_succ, Nat.zero_mul, Nat.add_zero]
  congr 2
  funext i
  congr 1
  ring

theorem printElements_all {size start last : Nat}
    (fields : Bool → Nat → Option (List Output × Option Bool)) (list : Nat → List Leaf)
    (bytes : 0 < size) (each : ∀ delim base, start ≤ base → base + size ≤ last → ∃ next,
      fields delim base = some (joined delim (list base), next) ∧
        (base + size < last → next = some (delim || !(list base).isEmpty)))
    (n rounds : Nat) (delim : Bool) (data : Nat) (above : start ≤ data)
    (range : data + n * size = last) (enough : n ≤ rounds) :
    printElements size fields last rounds delim data =
      some (joined delim ((List.range n).flatMap fun i => list (data + i * size))) := by
  obtain ⟨out, printed, same⟩ := printElements_rule fields
    (fun n delim data out =>
      out = joined delim ((List.range n).flatMap fun i => list (data + i * size))) bytes
    (fun delim base above inside => by
      obtain ⟨next, printed, goes_on⟩ := each delim base above inside
      exact ⟨_, next, printed, fun more => by rw [goes_on more]; rfl⟩)
    (fun _ _ => rfl)
    (fun delim base out above final printed => by
      obtain ⟨next, same, -⟩ := each delim base above (Nat.le_of_eq final)
      rw [printed] at same
      cases same
      simp)
    (fun n delim base out next rest above range printed later => by
      have inside : base + size + n * size = last := by
        rw [← range]
        ring
      obtain ⟨next', same, goes_on⟩ := each delim base above (by omega)
      rw [printed] at same
      cases same
      rw [elements_succ, joined_append, later]
      by_cases final : n = 0
      · subst final
        simp [joined]
      · have one : size ≤ n * size := Nat.le_mul_of_pos_left _ (Nat.pos_of_ne_zero final)
        rw [Option.some.inj (goes_on (by omega))])
    n rounds delim data above range enough
  rw [printed, same]

mutual
theorem print_all (dtype : DataType) (bytes : 0 < dtype.size) (laid : Laid dtype)
    (complete : Complete dtype) (n : Nat) {data start : Nat} (above : start ≤ data) :
    dtype.print data start (data + n * dtype.size) =
      some (joined false (leavesAt DimType.elements dtype n data)) := by
  cases dtype with
  | primary kind => exact print_primary kind n above
  | compound size fieldList =>
      have enough : n ≤ n * size := Nat.le_mul_of_pos_right n bytes
      rw [print, leavesAt]
      refine printElements_all _ (fieldLeavesAt DimType.elements fieldList) bytes ?_ n _ false data
        above rfl (by simp only [DataType.size]; omega)
      intro delim base above inside
      exact printFields_all size fieldList laid complete delim above inside
theorem printFields_all (size : Nat) (fieldList : FieldList) (laid : LaidIn size fieldList)
    (complete : CompleteIn size fieldList) (delim : Bool) {base start last : Nat}
    (above : start ≤ base) (inside : base + size ≤ last) :
    ∃ next, printFields fieldList delim base start last =
        some (joined delim (fieldLeavesAt DimType.elements fieldList base), next) ∧
      (base + size < last →
        next = some (delim || !(fieldLeavesAt DimType.elements fieldList base).isEmpty)) := by
  cases fieldList with
  | nil => exact ⟨some delim, rfl, fun _ => by simp [fieldLeavesAt]⟩
  | cons name type offset dim rest =>
      obtain ⟨within, fields, laid, others⟩ := laid
      obtain ⟨whole, complete, final, later⟩ := complete
      have count := dim.nelem_iff.mpr whole
      have above' : start ≤ base + offset := Nat.le_add_right_of_le above
      have inner := print_all type (size_pos type laid fields) laid complete dim.elements above'
      have some : leavesAt DimType.elements type dim.elements (base + offset) ≠ [] := by
        apply List.ne_nil_of_length_pos
        rw [leavesAt_length]
        exact Nat.mul_pos dim.elements_pos (leafCount_pos type laid fields)
      simp only [printFields, if_neg (Nat.not_lt.mpr above'), count, fieldLeavesAt]
      by_cases stops : base + offset + dim.elements * type.size < last
      · obtain ⟨next, printed, goes_on⟩ :=
          printFields_all size rest others later true above inside
        rw [if_pos stops, inner, printed]
        refine ⟨next, ?_, fun more => ?_⟩
        · have several : (leavesAt DimType.elements type dim.elements (base + offset)).isEmpty =
              false := by simpa using some
          simp [separate_joined delim some, joined_append, several]
        · rw [goes_on more]
          simp [some]
      · -- the field reaches the end of the range, and so of its compound
        have reaches : last = base + offset + dim.elements * type.size := by omega
        have alone : rest = .nil := final.resolve_right (by omega)
        rw [if_neg stops, reaches, inner, alone]
        refine ⟨none, ?_, fun more => ?_⟩
        · simp [separate_joined delim some, fieldLeavesAt]
        · omega
end

/-! ### What is left out is not made up for -/

theorem printElements_count {size start last count : Nat} {Whole : Prop}
    (fields : Bool → Nat → Option (List Output × Option Bool)) (bytes : 0 < size)
    (each : ∀ delim base, start ≤ base → base + size ≤ last → ∃ out next,
      fields delim base = some (out, next) ∧ values out ≤ count ∧
        (base + size < last → next.isSome = true) ∧
        (base + size = last → values out = count → Whole))
    (n rounds : Nat) (delim : Bool) (data : Nat) (above : start ≤ data)
    (range : data + n * size = last) (enough : n ≤ rounds) :
    ∃ out, printElements size fields last rounds delim data = some out ∧
      values out ≤ n * count ∧ (values out = n * count → n = 0 ∨ Whole) := by
  apply printElements_rule fields (fun n _ _ out =>
    values out ≤ n * count ∧ (values out = n * count → n = 0 ∨ Whole)) bytes
  · intro delim base above inside
    obtain ⟨out, next, printed, -, goes_on, -⟩ := each delim base above inside
    exact ⟨out, next, printed, goes_on⟩
  · exact fun _ _ => ⟨Nat.zero_le _, fun _ => .inl rfl⟩
  · intro delim base out above final printed
    obtain ⟨out', next, same, few, -, whole⟩ := each delim base above (Nat.le_of_eq final)
    rw [printed] at same
    cases same
    exact ⟨by omega, fun equal => .inr (whole final (by omega))⟩
  · intro n delim base out next rest above range printed later
    have inside : base + size + n * size = last := by
      rw [← range]
      ring
    obtain ⟨out', next', same, few, -, whole⟩ := each delim base above (by omega)
    rw [printed] at same
    cases same
    have total : (n + 1) * count = count + n * count := by ring
    rw [values_append, total]
    refine ⟨Nat.add_le_add few later.1, fun equal => .inr ?_⟩
    have fewer := later.1
    rcases later.2 (by omega) with final | rest
    · subst final
      exact whole (by omega) (by omega)
    · exact rest
  · exact above
  · exact range
  · exact enough

theorem leafCountIn_eq_zero {size : Nat} {fieldList : FieldList} (laid : LaidIn size fieldList)
    (none : leafCountIn fieldList = 0) : fieldList = .nil := by
  by_contra some
  exact absurd none (Nat.ne_of_gt (leafCountIn_pos size fieldList laid some))

mutual
theorem print_count (dtype : DataType) (bytes : 0 < dtype.size) (laid : Laid dtype) (n : Nat)
    {data start : Nat} (above : start ≤ data) :
    ∃ out, dtype.print data start (data + n * dtype.size) = some out ∧
      values out ≤ n * leafCount dtype ∧
      (values out = n * leafCount dtype → n = 0 ∨ Complete dtype) := by
  cases dtype with
  | primary kind =>
      refine ⟨_, print_primary kind n above, ?_, fun _ => .inr trivial⟩
      rw [values_joined, List.length_map, List.length_range, leafCount, Nat.mul_one]
  | compound size fieldList =>
      have enough : n ≤ n * size := Nat.le_mul_of_pos_right n bytes
      rw [print, leafCount]
      refine printElements_count _ bytes ?_ n _ false data above rfl
        (by simp only [DataType.size]; omega)
      intro delim base above inside
      exact printFields_count size fieldList laid delim above inside
theorem printFields_count (size : Nat) (fieldList : FieldList) (laid : LaidIn size fieldList)
    (delim : Bool) {base start last : Nat} (above : start ≤ base) (inside : base + size ≤ last) :
    ∃ out next, printFields fieldList delim base start last = some (out, next) ∧
      values out ≤ leafCountIn fieldList ∧ (base + size < last → next.isSome = true) ∧
      (base + size = last → values out = leafCountIn fieldList → CompleteIn size fieldList) := by
  cases fieldList with
  | nil => exact ⟨[], some delim, rfl, Nat.le_refl _, fun _ => rfl, fun _ _ => trivial⟩
  | cons name type offset dim rest =>
      obtain ⟨within, fields, laid, others⟩ := laid
      have above' : start ≤ base + offset := Nat.le_add_right_of_le above
      have positive := leafCount_pos type laid fields
      have bytes := size_pos type laid fields
      have fewer := Nat.mul_le_mul_right (leafCount type) dim.nelem_le
      have shorter := Nat.mul_le_mul_right type.size dim.nelem_le
      obtain ⟨out, printed, few, equal⟩ := print_count type bytes laid dim.nelem above'
      -- all values of the field are printed only if all its elements are counted
      have complete : values out = dim.elements * leafCount type →
          dim.nelem = dim.elements ∧ dim.elements < 2 ^ 32 ∧ Complete type := by
        intro all
        have counted : dim.nelem = dim.elements :=
          Nat.eq_of_mul_eq_mul_right positive (by omega)
        refine ⟨counted, dim.nelem_iff.mp counted, ?_⟩
        rcases equal (by omega) with zero | complete
        · have some := dim.elements_pos
          omega
        · exact complete
      simp only [printFields, if_neg (Nat.not_lt.mpr above'), leafCountIn, CompleteIn]
      by_cases stops : base + offset + dim.nelem * type.size < last
      · obtain ⟨later, next, goes, fewer', goes_on, whole⟩ :=
          printFields_count size rest others true above inside
        rw [if_pos stops, printed, goes]
        refine ⟨separate delim out ++ later, next, rfl, ?_, goes_on, fun final same => ?_⟩
        · rw [values_append, values_separate]
          omega
        · rw [values_append, values_separate] at same
          obtain ⟨counted, small, complete⟩ := complete (by omega)
          rw [counted] at stops
          exact ⟨small, complete, .inr (by omega), whole final (by omega)⟩
      · have reaches : last = base + offset + dim.nelem * type.size := by omega
        rw [if_neg stops, reaches, printed]
        refine ⟨separate delim out, none, rfl, ?_, fun more => by omega, fun final same => ?_⟩
        · rw [values_separate]
          omega
        · rw [values_separate] at same
          obtain ⟨-, small, complete⟩ := complete (by omega)
          have alone : rest = .nil := leafCountIn_eq_zero others (by omega)
          exact ⟨small, complete, .inl alone, alone ▸ trivial⟩
end

/-- Printing a compound prints every value once, in order and between single commas, if
and only if only fields declared last end where their compound does. -/
theorem printsAll_iff (size : Nat) (fieldList : FieldList) (bytes : 0 < size)
    (laid : LaidIn size fieldList) (n data : Nat) :
    PrintsAll (.compound size fieldList) n data ↔
      n = 0 ∨ Complete (.compound size fieldList) := by
  constructor
  · intro all
    obtain ⟨out, printed, -, equal⟩ :=
      print_count (.compound size fieldList) bytes laid n (Nat.le_refl data)
    rw [PrintsAll, printed] at all
    apply equal
    rw [Option.some.inj all, values_joined, leavesAt_length]
  · rintro (rfl | complete)
    · simp [PrintsAll, print, printElements, leavesAt, joined]
    · exact print_all (.compound size fieldList) bytes laid complete n (Nat.le_refl data)

/-- `struct _s2` and `struct _s` of `src/test/datatype.cpp`. -/
def struct2 : DataType := .compound 8
  (.cons (ascii "f1") (.primary .uint32) 0 .single
    (.cons (ascii "y") (.primary .int8) 4 ⟨[4], by simp⟩ .nil))

def struct : FieldList :=
  .cons (ascii "field1") (.primary .uint16) 0 .single
    (.cons (ascii "field4") (.primary .uint8) 2 ⟨[5], DimType.positive_five⟩
      (.cons (ascii "v") struct2 8 ⟨[2], DimType.positive_two⟩
        (.cons (ascii "d2") (.primary .double) 24 .single .nil)))

theorem struct_printsAll : PrintsAll (.compound 32 struct) 2 0 := by
  apply (printsAll_iff 32 struct (by decide) _ 2 0).mpr
  · exact .inr (by simp [Complete, CompleteIn, struct, struct2, DimType.elements, DimType.single,
      DataType.size, Primary.size])
  · simp [Laid, LaidIn, struct, struct2, DimType.elements, DimType.single, hasFields,
      DataType.size, Primary.size]

/-- Where the fields of a compound begin and end. -/
def ranges : FieldList → List (Nat × Nat)
  | .nil => []
  | .cons _ type offset dim rest => (offset, offset + dim.elements * type.size) :: ranges rest

mutual
/-- The fields of every compound do not overlap. -/
def Apart : DataType → Prop
  | .primary _ => True
  | .compound _ fieldList =>
      (ranges fieldList).Pairwise (fun a b => a.2 ≤ b.1 ∨ b.2 ≤ a.1) ∧ ApartIn fieldList
def ApartIn : FieldList → Prop
  | .nil => True
  | .cons _ type _ _ rest => Apart type ∧ ApartIn rest
end

/-- Two fields, the second one in memory declared first. -/
def swapped : FieldList :=
  .cons (ascii "b") (.primary .uint32) 4 .single
    (.cons (ascii "a") (.primary .uint32) 0 .single .nil)

/-- Of an element with swapped fields only the one declared first is printed. -/
theorem print_stops_early :
    ¬ ∀ (size : Nat) (fieldList : FieldList), 0 < size → LaidIn size fieldList →
      Apart (.compound size fieldList) → ∀ n data, PrintsAll (.compound size fieldList) n data := by
  intro claim
  have all := claim 8 swapped (by decide)
    (by simp [LaidIn, Laid, swapped, DimType.elements, DimType.single, hasFields, DataType.size,
      Primary.size])
    (by simp [Apart, ApartIn, ranges, swapped, DimType.elements, DimType.single, DataType.size,
      Primary.size]) 1 0
  have printed : (DataType.compound 8 swapped).print 0 0 8 = some [.value ⟨.uint32, 4⟩] := by
    decide
  rw [PrintsAll] at all
  exact absurd (printed.symm.trans all) (by decide)

end DataType
end PdServ
