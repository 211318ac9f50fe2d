import PdServ.DataTypePrint
import PdServ.ParameterRange

/-!
A list of numbers written to a compound parameter, against the list printed from it.
`setElements` fills a buffer without gaps, `DataType::print` follows the offsets of
the fields. The two agree up to the first padding byte in front of a value.
-/

namespace PdServ
namespace DataType

/-! ### Fields in order -/

mutual
/-- Fields are declared in increasing order, do not overlap and lie within the size. -/
def Ordered : DataType → Prop
  | .primary _ => True
  | .compound size fieldList => OrderedFrom size 0 fieldList
def OrderedFrom (size : Nat) : (pos : Nat) → FieldList → Prop
  | pos, .nil => pos ≤ size
  | pos, .cons _ type offset dim rest =>
      pos ≤ offset ∧ Ordered type ∧ OrderedFrom size (offset + dim.nelem * type.size) rest
end

mutual
/-- The bytes of the values in one element. -/
def leafBytes : DataType → Nat
  | .primary kind => kind.size
  | .compound _ fieldList => fieldBytes fieldList
def fieldBytes : FieldList → Nat
  | .nil => 0
  | .cons _ type _ dim rest => dim.nelem * leafBytes type + fieldBytes rest
end

mutual
/-- No value of `n` elements has padding in front of it. -/
def Unpadded : DataType → (n : Nat) → Prop
  | .primary _, _ => True
  | .compound size fieldList, n =>
      n = 0 ∨ fieldBytes fieldList = 0 ∨
        UnpaddedFrom 0 fieldList ∧ (n = 1 ∨ fieldBytes fieldList = size)
def UnpaddedFrom : (pos : Nat) → FieldList → Prop
  | _, .nil => True
  | pos, .cons _ type offset dim rest =>
      (dim.nelem * leafBytes type = 0 ∨ offset = pos ∧ Unpadded type dim.nelem) ∧
        UnpaddedFrom (pos + dim.nelem * leafBytes type) rest
end

mutual
theorem leafBytes_le (dtype : DataType) (ordered : Ordered dtype) :
    leafBytes dtype ≤ dtype.size := by
  cases dtype with
  | primary kind => exact Nat.le_refl _
  | compound size fieldList =>
      have all := fieldBytes_le size fieldList 0 ordered
      rw [Nat.zero_add] at all
      exact all
theorem fieldBytes_le (size : Nat) (fieldList : FieldList) (pos : Nat)
    (ordered : OrderedFrom size pos fieldList) : pos + fieldBytes fieldList ≤ size := by
  cases fieldList with
  | nil => exact ordered
  | cons name type offset dim rest =>
      obtain ⟨low, inner, others⟩ := ordered
      have first := Nat.mul_le_mul_left dim.nelem (leafBytes_le type inner)
      have later := fieldBytes_le size rest _ others
      rw [fieldBytes]
      omega
end

/-! ### Values without gaps -/

/-- Values one behind the other, the first one at `pos`. -/
def Packed : (pos : Nat) → List Leaf → Prop
  | _, [] => True
  | pos, leaf :: rest => leaf.address = pos ∧ Packed (pos + leaf.kind.size) rest

/-- The bytes of a list of values. -/
def bytes (list : List Leaf) : Nat := (list.map fun leaf => leaf.kind.size).sum

theorem packed_append (pos : Nat) (first second : List Leaf) :
    Packed pos (first ++ second) ↔ Packed pos first ∧ Packed (pos + bytes first) second := by
  induction first generalizing pos with
  | nil => simp [Packed, bytes]
  | cons leaf rest ih =>
      simp only [List.cons_append, Packed, ih, bytes, List.map_cons, List.sum_cons, and_assoc,
        Nat.add_assoc]

theorem bytes_append (first second : List Leaf) :
    bytes (first ++ second) = bytes first + bytes second := by
  simp [bytes]

theorem bytes_flatMap {n size : Nat} (list : Nat → List Leaf)
    (each : ∀ i < n, bytes (list i) = size) : bytes ((List.range n).flatMap list) = n * size := by
  induction n generalizing list with
  | zero => simp [bytes]
  | succ n ih =>
      have rest := ih (fun i => list (i + 1)) fun i inside =>
        each (i + 1) (Nat.succ_lt_succ inside)
      rw [range_flatMap_succ, bytes_append, each 0 (Nat.succ_pos n), rest, Nat.succ_mul,
        Nat.add_comm]

theorem packed_flatMap {n size : Nat} (list : Nat → List Leaf)
    (each : ∀ i < n, bytes (list i) = size) (pos : Nat) :
    Packed pos ((List.range n).flatMap list) ↔ ∀ i < n, Packed (pos + i * size) (list i) := by
  induction n generalizing pos list with
  | zero => simp [Packed]
  | succ n ih =>
      rw [range_flatMap_succ, packed_append, each 0 (Nat.succ_pos n),
        ih (fun i => list (i + 1)) fun i inside => each (i + 1) (Nat.succ_lt_succ inside)]
      constructor
      · rintro ⟨first, rest⟩ i inside
        cases i with
        | zero => simpa using first
        | succ i =>
            have here := rest i (Nat.lt_of_succ_lt_succ inside)
            rw [Nat.succ_mul, Nat.add_comm (i * size), ← Nat.add_assoc]
            exact here
      · intro all
        refine ⟨by simpa using all 0 (Nat.succ_pos n), fun i inside => ?_⟩
        have here := all (i + 1) (Nat.succ_lt_succ inside)
        rw [Nat.succ_mul, Nat.add_comm (i * size), ← Nat.add_assoc] at here
        exact here

mutual
theorem leavesAt_bytes (dtype : DataType) (n base : Nat) :
    bytes (leavesAt DimType.nelem dtype n base) = n * leafBytes dtype := by
  cases dtype with
  | primary kind => simp [leavesAt, bytes, leafBytes, Function.comp_def]
  | compound size fieldList =>
      rw [leavesAt, leafBytes]
      exact bytes_flatMap _ fun i _ => fieldLeavesAt_bytes fieldList _
theorem fieldLeavesAt_bytes (fieldList : FieldList) (base : Nat) :
    bytes (fieldLeavesAt DimType.nelem fieldList base) = fieldBytes fieldList := by
  cases fieldList with
  | nil => rfl
  | cons name type offset dim rest =>
      rw [fieldLeavesAt, bytes_append, leavesAt_bytes type, fieldLeavesAt_bytes rest, fieldBytes]
end

theorem leaves_nil_of_bytes {list : List Leaf} (none : bytes list = 0) : list = [] := by
  cases list with
  | nil => rfl
  | cons leaf rest =>
      have some := leaf.kind.size_pos
      simp only [bytes, List.map_cons, List.sum_cons] at none
      omega

theorem unpaddedFrom_of_none (fieldList : FieldList) (pos : Nat)
    (none : fieldBytes fieldList = 0) : UnpaddedFrom pos fieldList := by
  cases fieldList with
  | nil => trivial
  | cons name type offset dim rest =>
      rw [fieldBytes] at none
      exact ⟨.inl (by omega), unpaddedFrom_of_none rest _ (by omega)⟩

mutual
/-- Values without gaps are the values of a type without padding. -/
theorem leavesAt_packed (dtype : DataType) (ordered : Ordered dtype) (n : Nat) {pos base : Nat}
    (low : pos ≤ base) :
    Packed pos (leavesAt DimType.nelem dtype n base) ↔
      n * leafBytes dtype = 0 ∨ pos = base ∧ Unpadded dtype n := by
  cases dtype with
  | primary kind =>
      have single : leavesAt DimType.nelem (.primary kind) n base =
          (List.range n).flatMap fun i => [⟨kind, base + i * kind.size⟩] := by
        rw [leavesAt, List.map_eq_flatMap]
      have some := kind.size_pos
      rw [single, packed_flatMap (n := n) _ fun i _ => (by simp [bytes] :
        bytes [⟨kind, base + i * kind.size⟩] = kind.size)]
      simp only [Packed, and_true, Unpadded, leafBytes]
      constructor
      · intro all
        by_cases none : n = 0
        · exact .inl (by rw [none, Nat.zero_mul])
        · have first := all 0 (Nat.pos_of_ne_zero none)
          exact .inr (by omega)
      · rintro (none | same) i inside
        · rcases Nat.mul_eq_zero.mp none with zero | zero <;> omega
        · rw [same]
  | compound size fieldList =>
      have fewer := fieldBytes_le size fieldList 0 ordered
      rw [Nat.zero_add] at fewer
      rw [leavesAt, packed_flatMap _ fun i _ => fieldLeavesAt_bytes fieldList _]
      have each : ∀ i, Packed (pos + i * fieldBytes fieldList)
          (fieldLeavesAt DimType.nelem fieldList (base + i * size)) ↔ fieldBytes fieldList = 0 ∨
            pos + i * fieldBytes fieldList = base + i * size ∧ UnpaddedFrom 0 fieldList := by
        intro i
        have more := Nat.mul_le_mul_left i fewer
        have here := fieldLeavesAt_packed size fieldList 0 0 ordered (Nat.le_refl 0)
          (show pos + i * fieldBytes fieldList ≤ base + i * size by omega)
        simpa using here
      simp only [each, leafBytes, Unpadded]
      constructor
      · intro all
        by_cases none : n = 0 ∨ fieldBytes fieldList = 0
        · exact .inl (Nat.mul_eq_zero.mpr none)
        · obtain ⟨some, filled⟩ := not_or.mp none
          obtain ⟨here, unpadded⟩ := (all 0 (Nat.pos_of_ne_zero some)).resolve_left filled
          refine .inr ⟨by omega, .inr (.inr ⟨unpadded, ?_⟩)⟩
          -- a second element begins where the values of the first one end
          by_cases one : n = 1
          · exact .inl one
          · obtain ⟨second, -⟩ := (all 1 (by omega)).resolve_left filled
            exact .inr (by omega)
      · rintro (none | ⟨rfl, none | none | ⟨unpadded, one | full⟩⟩) i inside
        · rcases Nat.mul_eq_zero.mp none with zero | zero
          · omega
          · exact .inl zero
        · omega
        · exact .inl none
        · have first : i = 0 := by omega
          subst first
          exact .inr ⟨by omega, unpadded⟩
        · exact .inr ⟨by rw [full], unpadded⟩
theorem fieldLeavesAt_packed (size : Nat) (fieldList : FieldList) (place pos : Nat)
    (ordered : OrderedFrom size place fieldList) (before : pos ≤ place) {start base : Nat}
    (low : start ≤ base) :
    Packed (start + pos) (fieldLeavesAt DimType.nelem fieldList base) ↔
      fieldBytes fieldList = 0 ∨ start = base ∧ UnpaddedFrom pos fieldList := by
  cases fieldList with
  | nil => simp [fieldLeavesAt, Packed, fieldBytes]
  | cons name type offset dim rest =>
      obtain ⟨behind, inner, others⟩ := ordered
      have fewer := Nat.mul_le_mul_left dim.nelem (leafBytes_le type inner)
      have first := leavesAt_packed type inner dim.nelem
        (show start + pos ≤ base + offset by omega)
      have later := fieldLeavesAt_packed size rest _ (pos + dim.nelem * leafBytes type) others
        (by omega) low
      rw [fieldLeavesAt, packed_append, leavesAt_bytes, first, Nat.add_assoc start, later, fieldBytes,
        UnpaddedFrom]
      have empty := unpaddedFrom_of_none rest (pos + dim.nelem * leafBytes type)
      constructor
      · rintro ⟨none | ⟨here, unpadded⟩, none' | ⟨same, tight⟩⟩
        · exact .inl (by omega)
        · exact .inr ⟨same, .inl none, tight⟩
        · exact .inr ⟨by omega, .inr ⟨by omega, unpadded⟩, empty none'⟩
        · exact .inr ⟨same, .inr ⟨by omega, unpadded⟩, tight⟩
      · rintro (none | ⟨same, first | ⟨here, unpadded⟩, tight⟩)
        · exact ⟨.inl (by omega), .inl (by omega)⟩
        · exact ⟨.inl first, .inr ⟨same, tight⟩⟩
        · exact ⟨.inr ⟨by omega, unpadded⟩, .inr ⟨same, tight⟩⟩
end

/-! ### The values printed -/

/-- The values of an output, without the commas. -/
def printed (out : List Output) : List Leaf :=
  out.filterMap fun
    | .delim => none
    | .value leaf => some leaf

theorem printed_append (first second : List Output) :
    printed (first ++ second) = printed first ++ printed second := List.filterMap_append

theorem printed_separate (delim : Bool) (out : List Output) :
    printed (separate delim out) = printed out := by
  cases delim <;> rfl

theorem printed_joined (delim : Bool) (list : List Leaf) : printed (joined delim list) = list := by
  induction list generalizing delim with
  | nil => rfl
  | cons leaf rest ih =>
      rw [joined, printed_separate]
      exact congrArg (leaf :: ·) (ih true)

theorem printElements_printed {size start last : Nat}
    (fields : Bool → Nat → Option (List Output × Option Bool)) (list : Nat → List Leaf)
    (bytes : 0 < size) (each : ∀ delim base, start ≤ base → base + size ≤ last → ∃ out next,
      fields delim base = some (out, next) ∧ printed out = list base ∧
        (base + size < last → next.isSome = true))
    (n rounds : Nat) (delim : Bool) (data : Nat) (above : start ≤ data)
    (range : data + n * size = last) (enough : n ≤ rounds) :
    ∃ out, printElements size fields last rounds delim data = some out ∧
      printed out = (List.range n).flatMap fun i => list (data + i * size) := by
  apply printElements_rule fields (fun n _ data out =>
    printed out = (List.range n).flatMap fun i => list (data + i * size)) bytes
  · intro delim base above inside
    obtain ⟨out, next, prints, -, goes_on⟩ := each delim base above inside
    exact ⟨out, next, prints, goes_on⟩
  · exact fun _ _ => rfl
  · intro delim base out above final prints
    obtain ⟨out', next, same, values, -⟩ := each delim base above (Nat.le_of_eq final)
    rw [prints] at same
    cases same
    simp [values]
  · intro n delim base out next rest above range prints later
    have inside : base + size + n * size = last := by
      rw [← range]
      ring
    obtain ⟨out', next', same, values, -⟩ := each delim base above (by omega)
    rw [prints] at same
    cases same
    rw [printed_append, values, later, elements_succ]
  · exact above
  · exact range
  · exact enough

theorem fieldLeavesAt_nil {fieldList : FieldList} (none : fieldBytes fieldList = 0) (base : Nat) :
    fieldLeavesAt DimType.nelem fieldList base = [] :=
  leaves_nil_of_bytes ((fieldLeavesAt_bytes fieldList base).trans none)

mutual
/-- Of fields in order none is lost when the last one ends the printing. -/
theorem print_printed (dtype : DataType) (ordered : Ordered dtype) (n : Nat) {data start : Nat}
    (above : start ≤ data) :
    ∃ out, dtype.print data start (data + n * dtype.size) = some out ∧
      printed out = leavesAt DimType.nelem dtype n data := by
  cases dtype with
  | primary kind => exact ⟨_, print_primary kind n above, printed_joined _ _⟩
  | compound size fieldList =>
      by_cases bytes : 0 < size
      · have enough : n ≤ n * size := Nat.le_mul_of_pos_right n bytes
        rw [print, leavesAt]
        refine printElements_printed _ (fieldLeavesAt DimType.nelem fieldList) bytes ?_ n _ false
          data above rfl (by simp only [DataType.size]; omega)
        intro delim base above inside
        exact printFields_printed size fieldList 0 ordered delim above inside
      · have none : size = 0 := Nat.eq_zero_of_not_pos bytes
        have fewer := fieldBytes_le size fieldList 0 ordered
        refine ⟨[], ?_, ?_⟩
        · simp [print, DataType.size, none, printElements]
        · simp [leavesAt, fieldLeavesAt_nil (show fieldBytes fieldList = 0 by omega), printed]
theorem printFields_printed (size : Nat) (fieldList : FieldList) (pos : Nat)
    (ordered : OrderedFrom size pos fieldList) (delim : Bool) {base start last : Nat}
    (above : start ≤ base) (inside : base + size ≤ last) :
    ∃ out next, printFields fieldList delim base start last = some (out, next) ∧
      printed out = fieldLeavesAt DimType.nelem fieldList base ∧
      (base + size < last → next.isSome = true) := by
  cases fieldList with
  | nil => exact ⟨[], some delim, rfl, rfl, fun _ => rfl⟩
  | cons name type offset dim rest =>
      obtain ⟨low, inner, others⟩ := ordered
      have within := fieldBytes_le size rest _ others
      have above' : start ≤ base + offset := Nat.le_add_right_of_le above
      obtain ⟨out, prints, values⟩ := print_printed type inner dim.nelem above'
      simp only [printFields, if_neg (Nat.not_lt.mpr above'), fieldLeavesAt]
      by_cases stops : base + offset + dim.nelem * type.size < last
      · obtain ⟨later, next, goes, values', goes_on⟩ :=
          printFields_printed size rest _ others true above inside
        rw [if_pos stops, prints, goes]
        refine ⟨separate delim out ++ later, next, rfl, ?_, goes_on⟩
        rw [printed_append, printed_separate, values, values']
      · have reaches : last = base + offset + dim.nelem * type.size := by omega
        have nothing := fieldLeavesAt_nil (show fieldBytes rest = 0 by omega) base
        rw [if_neg stops, reaches, prints]
        refine ⟨separate delim out, none, rfl, ?_, fun more => by omega⟩
        rw [printed_separate, values, nothing, List.append_nil]
end

mutual
/-- The printed values are of the types that `setElements` runs through. -/
theorem leavesAt_kinds (dtype : DataType) (dim : DimType) (base : Nat) :
    (leavesAt DimType.nelem dtype dim.nelem base).map Leaf.kind = dtype.leaves dim := by
  cases dtype with
  | primary kind => simp [leavesAt, DataType.leaves, Function.comp_def]
  | compound size fieldList =>
      have each : ∀ i, (fieldLeavesAt DimType.nelem fieldList (base + i * size)).map Leaf.kind =
          fieldList.leaves := fun i => fieldLeavesAt_kinds fieldList _
      simp only [leavesAt, DataType.leaves, List.map_flatMap, each]
      rw [List.flatMap_def, List.map_const', List.length_range]
theorem fieldLeavesAt_kinds (fieldList : FieldList) (base : Nat) :
    (fieldLeavesAt DimType.nelem fieldList base).map Leaf.kind = fieldList.leaves := by
  cases fieldList with
  | nil => rfl
  | cons name type offset dim rest =>
      rw [fieldLeavesAt, List.map_append, leavesAt_kinds type dim, fieldLeavesAt_kinds rest,
        FieldList.leaves]
end

/-- Values without gaps leave no byte out. -/
theorem packed_covers {pos a : Nat} {list : List Leaf} (packed : Packed pos list) (low : pos ≤ a)
    (high : a < pos + bytes list) :
    ∃ leaf ∈ list, leaf.address ≤ a ∧ a < leaf.address + leaf.kind.size := by
  induction list generalizing pos with
  | nil =>
      simp only [bytes, List.map_nil, List.sum_nil] at high
      omega
  | cons first rest ih =>
      obtain ⟨here, later⟩ := packed
      by_cases inside : a < pos + first.kind.size
      · exact ⟨first, List.mem_cons_self, by omega, by omega⟩
      · simp only [bytes, List.map_cons, List.sum_cons] at high
        obtain ⟨leaf, member, covers⟩ := ih later (by omega) (by simp only [bytes]; omega)
        exact ⟨leaf, List.mem_cons_of_mem _ member, covers⟩

end DataType

namespace Parameter
open DataType

variable (convert : SetValue)

/-! ### The values written -/

/-- What is stored for the numbers of a list, one piece for each. -/
def pieces (kinds : List Primary) (numbers : List Numeral) : List (List Byte) :=
  kinds.zipWith convert.bytes numbers

/-- The call writes the numbers to the places of the leaves, one piece for each. -/
structure Placed (call : Call) (list : List Leaf) (numbers : List Numeral) : Prop where
  count : numbers.length = list.length
  buf : call.buf = (pieces convert (list.map Leaf.kind) numbers).flatten
  place : ∀ (k : Nat) (leaf : Leaf), list[k]? = some leaf → call.offset +
    ((pieces convert (list.map Leaf.kind) numbers).take k).flatten.length = leaf.address

/-- Once it is accepted, every leaf holds its number, and nothing else has changed. -/
structure Restores (call : Call) (list : List Leaf) (numbers : List Numeral)
    (shmAddr : Nat → Nat) (before after : Memory) : Prop where
  values : ∀ (k : Nat) (leaf : Leaf) (v : Numeral), list[k]? = some leaf → numbers[k]? = some v →
    after.read (shmAddr call.mainParam + leaf.address) leaf.kind.size = convert.bytes leaf.kind v
  padding : ∀ a, (∀ leaf ∈ list, a < leaf.address ∨ leaf.address + leaf.kind.size ≤ a) →
    after (shmAddr call.mainParam + a) = before (shmAddr call.mainParam + a)

theorem pieces_bytes (list : List Leaf) (numbers : List Numeral)
    (count : numbers.length = list.length) (k : Nat) :
    ((pieces convert (list.map Leaf.kind) numbers).take k).flatten.length =
      bytes (list.take k) := by
  induction list generalizing numbers k with
  | nil => simp [pieces, bytes]
  | cons leaf rest ih =>
      cases numbers with
      | nil => simp at count
      | cons v others =>
          cases k with
          | zero => rfl
          | succ k =>
              have later := ih others (by simpa using count) k
              simp only [pieces, bytes, List.map_cons, List.zipWith_cons_cons, List.take_succ_cons,
                List.flatten_cons, List.length_append, convert.length, List.sum_cons] at later ⊢
              rw [later]

theorem pieces_at (list : List Leaf) (numbers : List Numeral) {k : Nat} {leaf : Leaf}
    {v : Numeral} (found : list[k]? = some leaf) (number : numbers[k]? = some v) :
    (pieces convert (list.map Leaf.kind) numbers)[k]? = some (convert.bytes leaf.kind v) := by
  simp [pieces, List.getElem?_zipWith, found, number]

/-- A piece of a block, from the lengths of those before it. -/
theorem drop_flatten {pieces : List (List Byte)} {k : Nat} {piece : List Byte}
    (found : pieces[k]? = some piece) :
    ((pieces.flatten).drop (pieces.take k).flatten.length).take piece.length = piece ∧
      (pieces.take k).flatten.length + piece.length ≤ pieces.flatten.length := by
  obtain ⟨inside, here⟩ := List.getElem?_eq_some_iff.mp found
  have split : pieces.flatten = (pieces.take k).flatten ++ (piece ++ (pieces.drop (k + 1)).flatten) := by
    rw [← List.flatten_cons, ← here, ← List.drop_eq_getElem_cons inside, ← List.flatten_append,
      List.take_append_drop]
  constructor
  · rw [split, List.drop_left, List.take_left]
  · rw [split]
    simp only [List.length_append]
    omega

theorem Placed.restores {call : Call} {list : List Leaf} {numbers : List Numeral}
    (placed : Placed convert call list numbers) (packed : Packed call.offset list)
    (shmAddr : Nat → Nat) (main : MainState) (time : Nat × Nat) :
    Restores convert call list numbers shmAddr main.shmem
      (main.setValue shmAddr call ⟨true, true, 0, time⟩).2.shmem := by
  have written : (main.setValue shmAddr call ⟨true, true, 0, time⟩).2.shmem =
      main.shmem.write (shmAddr call.mainParam + call.offset) call.buf := by
    simp [MainState.setValue]
  have size : call.buf.length = bytes list := by
    have all := pieces_bytes convert list numbers placed.count list.length
    have few : (pieces convert (list.map Leaf.kind) numbers).length ≤ list.length := by
      simp [pieces]
    rw [List.take_length, List.take_of_length_le few, ← placed.buf] at all
    exact all
  rw [written]
  constructor
  · intro k leaf v found number
    obtain ⟨piece, inside⟩ := drop_flatten (pieces_at convert list numbers found number)
    rw [← placed.place k leaf found, ← Nat.add_assoc, ← convert.length leaf.kind v,
      Memory.read_write_inside _ _ _ (by rw [placed.buf]; exact inside), placed.buf, piece]
  · intro a outside
    apply Memory.write_outside
    by_contra inside
    rw [not_or] at inside
    obtain ⟨leaf, member, low, high⟩ := packed_covers (a := a) packed (by omega) (by omega)
    rcases outside leaf member with below | above <;> omega

end Parameter
end PdServ
