import PdServ.Memory
import PdServ.ParameterTree
import PdServ.RowMajor
import PdServ.Task

/-!
The database of persistent parameters, `src/src/Database.cpp`. A record is the memory of
a `struct pdata` with the value behind it, stored under the path of the parameter. Berkeley
DB is a map from byte strings to byte strings; `DBT::size` has 32 bits.
-/

namespace PdServ

/-- `primary()`, the numbers of `DataType::Primary`. -/
def DataType.primaryId : DataType → Nat
  | .compound _ _ => 0
  | .primary .boolean => 1
  | .primary .uint8 => 2
  | .primary .int8 => 3
  | .primary .uint16 => 4
  | .primary .int16 => 5
  | .primary .uint32 => 6
  | .primary .int32 => 7
  | .primary .uint64 => 8
  | .primary .int64 => 9
  | .primary .double => 10
  | .primary .single => 11

/-! ### `struct pdata` -/

namespace Pdata

/-- `sizeof(struct pdata)` -/
def size : Nat := 32

variable (data : List Byte)

def version : Nat := (data.getD 0 0).toNat
def classid : Nat := (data.getD 1 0).toNat
def nelem : Nat := Memory.decode ((data.drop 8).take 8)
def mtime : Timespec where
  tv_sec := UInt64.ofNat (Memory.decode ((data.drop 16).take 8))
  tv_nsec := UInt64.ofNat (Memory.decode ((data.drop 24).take 8))
def value : List Byte := data.drop size

end Pdata

/-- What `save` writes; the six bytes that fill up the header are whatever the stack
held. -/
def pdata (p : MainParameter) (padding : Vector Byte 6) (value : Vector Byte p.memSize)
    (mtime : Timespec) : List Byte :=
  [1, UInt8.ofNat p.dtype.primaryId] ++ padding.toList ++ Memory.encode 8 p.dim.nelem ++
    Memory.encode 8 mtime.tv_sec.toNat ++ Memory.encode 8 mtime.tv_nsec.toNat ++ value.toList

/-! ### The database -/

abbrev Records := List Byte → Option (List Byte)

/-- `DBT` with these bytes and their number as its size. -/
def dbt (bytes : List Byte) : List Byte := bytes.take (bytes.length % 2 ^ 32)

structure Database where
  /-- The open database, if any. -/
  db : Option Records

namespace Database

/-- `read`: `*buf` and `*mtime`, where it returns true. -/
def read (d : Database) (p : MainParameter) : Option (List Byte × Timespec) :=
  match d.db with
  | none => none
  | some records =>
      match records (dbt p.path) with
      | none => none
      | some data =>
          if data.length < Pdata.size then none
          else if Pdata.version data = 1 then
            if data.length < Pdata.size + p.memSize then none
            else if Pdata.classid data ≠ p.dtype.primaryId then none
            else if Pdata.nelem data ≠ p.dim.nelem then none
            else some (Pdata.value data, Pdata.mtime data)
          else none

def save (d : Database) (p : MainParameter) (padding : Vector Byte 6)
    (value : Vector Byte p.memSize) (mtime : Timespec) : Database where
  db := d.db.map fun records =>
    Function.update records (dbt p.path) (some (dbt (pdata p padding value mtime)))

end Database

/-! ### What a record should be -/

/-- A record of the version, the class, the element count and the size of `p`. -/
structure Fits (p : MainParameter) (data : List Byte) : Prop where
  version : Pdata.version data = 1
  classid : Pdata.classid data = p.dtype.primaryId
  nelem : Pdata.nelem data = p.dim.nelem
  length : (Pdata.value data).length = p.memSize
  header : Pdata.size ≤ data.length

/-- A record of that version, class and element count with more behind the header than
`p` has. -/
def Overlong (p : MainParameter) (data : List Byte) : Prop :=
  Pdata.version data = 1 ∧ Pdata.classid data = p.dtype.primaryId ∧
    Pdata.nelem data = p.dim.nelem ∧ Pdata.size + p.memSize < data.length

instance (p : MainParameter) (data : List Byte) : Decidable (Overlong p data) :=
  inferInstanceAs (Decidable (_ ∧ _ ∧ _ ∧ _))

/-- Only a record is read that `save` could have written for `p`, and what was saved is
read. -/
structure KeepsRecords (records : Records) (p : MainParameter) : Prop where
  own : ∀ buf mtime, (Database.mk (some records)).read p = some (buf, mtime) →
    ∃ data, records (dbt p.path) = some data ∧ Fits p data ∧
      ∃ padding value time, data = pdata p padding value time
  restores : ∀ padding value mtime,
    ((Database.mk (some records)).save p padding value mtime).read p = some (value.toList, mtime)

/-! ### The layout of a record -/

theorem primaryId_lt (dtype : DataType) : dtype.primaryId < 12 := by
  cases dtype with
  | compound size fields => exact Nat.zero_lt_succ 11
  | primary kind => cases kind <;> decide

theorem nelem_lt (dim : DimType) : dim.nelem < 2 ^ 32 := by
  rw [DimType.nelem_eq]
  exact Nat.mod_lt _ (by decide)

theorem encode_decode (bytes : List Byte) :
    Memory.encode bytes.length (Memory.decode bytes) = bytes := by
  induction bytes with
  | nil => rfl
  | cons byte rest ih =>
      have small := byte.toNat_lt
      have high : (byte.toNat + 256 * Memory.decode rest) / 256 = Memory.decode rest := by omega
      have low : UInt8.ofNat (byte.toNat + 256 * Memory.decode rest) = byte := by
        rw [← UInt8.toNat_inj, UInt8.toNat_ofNat']
        omega
      rw [List.length_cons, Memory.decode, Memory.encode, high, low, ih]

/-- A field of eight bytes behind `front`. -/
theorem field_at (front rest : List Byte) {offset : Nat} (before : front.length = offset)
    (word : Nat) :
    ((front ++ (Memory.encode 8 word ++ rest)).drop offset).take 8 = Memory.encode 8 word := by
  rw [List.drop_left' before, List.take_left' (Memory.encode_length 8 word)]

theorem decode_word (word : UInt64) :
    UInt64.ofNat (Memory.decode (Memory.encode 8 word.toNat)) = word := by
  have small : word.toNat < 256 ^ 8 := word.toNat_lt
  rw [Memory.decode_encode, Nat.mod_eq_of_lt small, UInt64.ofNat_toNat]

/-- Where the parts of a record are. -/
theorem pdata_parts (p : MainParameter) (padding : Vector Byte 6) (value : Vector Byte p.memSize)
    (mtime : Timespec) :
    let data := pdata p padding value mtime
    data.length = Pdata.size + p.memSize ∧ Pdata.version data = 1 ∧
      Pdata.classid data = p.dtype.primaryId ∧ Pdata.nelem data = p.dim.nelem ∧
      Pdata.mtime data = mtime ∧ Pdata.value data = value.toList := by
  have fill : padding.toList.length = 6 := padding.length_toList
  have size : value.toList.length = p.memSize := value.length_toList
  have class_lt := primaryId_lt p.dtype
  have count_lt := nelem_lt p.dim
  intro data
  have count : (data.drop 8).take 8 = Memory.encode 8 p.dim.nelem := by
    have before : ([1, UInt8.ofNat p.dtype.primaryId] ++ padding.toList).length = 8 := by simp
    have field := field_at _ (Memory.encode 8 mtime.tv_sec.toNat ++
      (Memory.encode 8 mtime.tv_nsec.toNat ++ value.toList)) before p.dim.nelem
    simp only [← List.append_assoc] at field
    exact field
  have seconds : ((data.drop 16).take 8) = Memory.encode 8 mtime.tv_sec.toNat := by
    have before : ([1, UInt8.ofNat p.dtype.primaryId] ++ padding.toList ++
        Memory.encode 8 p.dim.nelem).length = 16 := by simp
    have field := field_at _ (Memory.encode 8 mtime.tv_nsec.toNat ++ value.toList) before
      mtime.tv_sec.toNat
    simp only [← List.append_assoc] at field
    exact field
  have nanoseconds : ((data.drop 24).take 8) = Memory.encode 8 mtime.tv_nsec.toNat := by
    have before : ([1, UInt8.ofNat p.dtype.primaryId] ++ padding.toList ++
        Memory.encode 8 p.dim.nelem ++ Memory.encode 8 mtime.tv_sec.toNat).length = 24 := by simp
    have field := field_at _ value.toList before mtime.tv_nsec.toNat
    simp only [← List.append_assoc] at field
    exact field
  refine ⟨?_, rfl, ?_, ?_, ?_, ?_⟩
  · simp [data, pdata, Pdata.size]
    omega
  · show (UInt8.ofNat p.dtype.primaryId).toNat = p.dtype.primaryId
    rw [UInt8.toNat_ofNat']
    exact Nat.mod_eq_of_lt (by omega)
  · rw [Pdata.nelem, count, Memory.decode_encode]
    exact Nat.mod_eq_of_lt (by omega)
  · rw [Pdata.mtime, seconds, nanoseconds, decode_word, decode_word]
  · exact List.drop_left' (by simp [Pdata.size])

theorem fits_pdata (p : MainParameter) (padding : Vector Byte 6) (value : Vector Byte p.memSize)
    (mtime : Timespec) : Fits p (pdata p padding value mtime) := by
  obtain ⟨length, version, classid, nelem, -, content⟩ := pdata_parts p padding value mtime
  refine ⟨version, classid, nelem, ?_, ?_⟩
  · rw [content]
    exact value.length_toList
  · rw [length]
    exact Nat.le_add_right _ _

/-- A record that fits is one that `save` could have written. -/
theorem pdata_of_fits {p : MainParameter} {data : List Byte} (fits : Fits p data) :
    ∃ padding value mtime, data = pdata p padding value mtime := by
  have header := fits.header
  rw [Pdata.size] at header
  refine ⟨⟨((data.drop 2).take 6).toArray, ?_⟩, ⟨(Pdata.value data).toArray, fits.length⟩,
    Pdata.mtime data, ?_⟩
  · simp
    omega
  · -- the eight bytes of each field, read as a word and written again
    have words (offset : Nat) (inside : offset + 8 ≤ data.length) :
        Memory.encode 8 (Memory.decode ((data.drop offset).take 8)) = (data.drop offset).take 8 := by
      have length : ((data.drop offset).take 8).length = 8 := by
        simp
        omega
      have same := encode_decode ((data.drop offset).take 8)
      rwa [length] at same
    have small (offset : Nat) : Memory.decode ((data.drop offset).take 8) < 2 ^ 64 := by
      have bound := Memory.decode_lt ((data.drop offset).take 8)
      have width : 256 ^ ((data.drop offset).take 8).length ≤ 256 ^ 8 :=
        Nat.pow_le_pow_right (by decide) (List.length_take_le _ _)
      omega
    have front : data.take 2 = [1, UInt8.ofNat p.dtype.primaryId] := by
      match data, header with
      | first :: second :: rest, _ =>
          have version : first.toNat = 1 := fits.version
          have classid : second.toNat = p.dtype.primaryId := fits.classid
          have one : first = 1 := UInt8.toNat_inj.mp version
          rw [← classid, UInt8.ofNat_toNat, one]
          rfl
    have join (offset count : Nat) : (data.drop offset).take count ++ data.drop (offset + count) =
        data.drop offset := by
      rw [← List.drop_drop, List.take_append_drop]
    rw [pdata, ← fits.nelem, Pdata.nelem, words 8 (by omega)]
    simp only [Pdata.mtime, UInt64.toNat_ofNat', Nat.mod_eq_of_lt (small _), words 16 (by omega),
      words 24 (by omega), ← front, Vector.toList, Pdata.value, Pdata.size, List.append_assoc]
    rw [join 24 8, join 16 8, join 8 8, join 2 6, List.take_append_drop]

/-! ### What is read -/

theorem read_iff (records : Records) (p : MainParameter) (buf : List Byte) (mtime : Timespec) :
    (Database.mk (some records)).read p = some (buf, mtime) ↔
      ∃ data, records (dbt p.path) = some data ∧ Pdata.version data = 1 ∧
        Pdata.classid data = p.dtype.primaryId ∧ Pdata.nelem data = p.dim.nelem ∧
        Pdata.size + p.memSize ≤ data.length ∧ Pdata.value data = buf ∧ Pdata.mtime data = mtime := by
  rw [Database.read]
  cases found : records (dbt p.path) with
  | none => simp [found]
  | some data =>
      simp only [found]
      constructor
      · intro read
        split at read
        · cases read
        · split at read
          · next version =>
            split at read
            · cases read
            · next enough =>
              split at read
              · cases read
              · next same =>
                split at read
                · cases read
                · next count =>
                  cases read
                  exact ⟨data, rfl, version, not_not.mp same, not_not.mp count,
                    Nat.not_lt.mp enough, rfl, rfl⟩
          · cases read
      · rintro ⟨_, ⟨⟩, version, classid, nelem, enough, rfl, rfl⟩
        rw [if_neg (by omega), if_pos version, if_neg (by omega), if_neg (not_not.mpr classid),
          if_neg (not_not.mpr nelem)]

theorem dbt_length (bytes : List Byte) : (dbt bytes).length = bytes.length % 2 ^ 32 := by
  rw [dbt, List.length_take]
  exact Nat.min_eq_left (Nat.mod_le _ _)

theorem dbt_small {bytes : List Byte} (small : bytes.length < 2 ^ 32) : dbt bytes = bytes := by
  rw [dbt, Nat.mod_eq_of_lt small, List.take_length]

/-- What was saved is read where its size fits into `DBT::size`, and only there. -/
theorem restores_iff (records : Records) (p : MainParameter) :
    (∀ padding value mtime, ((Database.mk (some records)).save p padding value mtime).read p =
      some (value.toList, mtime)) ↔ Pdata.size + p.memSize < 2 ^ 32 := by
  have saved (padding : Vector Byte 6) (value : Vector Byte p.memSize) (mtime : Timespec) :
      (Database.mk (some records)).save p padding value mtime =
        ⟨some (Function.update records (dbt p.path) (some (dbt (pdata p padding value mtime))))⟩ :=
    rfl
  constructor
  · intro restores
    have read := restores (Vector.replicate 6 0) (Vector.replicate p.memSize 0) ⟨0, 0⟩
    rw [saved, read_iff, Function.update_self] at read
    obtain ⟨_, ⟨⟩, -, -, -, enough, -, -⟩ := read
    -- what lies behind `DBT::size` is not stored
    rw [dbt_length, (pdata_parts _ _ _ _).1] at enough
    exact Nat.lt_of_le_of_lt enough (Nat.mod_lt _ (by decide))
  · intro small padding value mtime
    obtain ⟨length, version, classid, nelem, time, content⟩ := pdata_parts p padding value mtime
    rw [← length] at small
    rw [saved, dbt_small small, read_iff, Function.update_self]
    exact ⟨_, rfl, version, classid, nelem, Nat.le_of_eq length.symm, content, time⟩

/-- A record is taken for one of `p` although more bytes than `p` has were stored in it,
as the size is only tested from below; otherwise the records are kept. -/
theorem keepsRecords_iff (records : Records) (p : MainParameter) :
    KeepsRecords records p ↔
      (∀ data, records (dbt p.path) = some data → ¬ Overlong p data) ∧
        Pdata.size + p.memSize < 2 ^ 32 := by
  constructor
  · intro keeps
    refine ⟨?_, (restores_iff records p).mp keeps.restores⟩
    rintro data found ⟨version, classid, nelem, long⟩
    -- the size is tested from below only
    have read := (read_iff records p _ _).mpr
      ⟨data, found, version, classid, nelem, Nat.le_of_lt long, rfl, rfl⟩
    obtain ⟨other, found', fits, -⟩ := keeps.own _ _ read
    rw [found] at found'
    cases found'
    have length := fits.length
    rw [Pdata.value, List.length_drop] at length
    omega
  · rintro ⟨short, small⟩
    refine ⟨?_, (restores_iff records p).mpr small⟩
    intro buf mtime read
    obtain ⟨data, found, version, classid, nelem, enough, -, -⟩ := (read_iff records p _ _).mp read
    have whole : data.length = Pdata.size + p.memSize := by
      have bound : ¬ Pdata.size + p.memSize < data.length := fun long =>
        short data found ⟨version, classid, nelem, long⟩
      omega
    have fits : Fits p data := by
      refine ⟨version, classid, nelem, ?_, by omega⟩
      rw [Pdata.value, List.length_drop, whole, Nat.add_sub_cancel_left]
    exact ⟨data, found, fits, pdata_of_fits fits⟩

/-- A compound of so many bytes. -/
def compoundOf (size : Nat) : MainParameter where
  path := ascii "/s"
  dtype := .compound size .nil
  dim := .single

/-- What `save` wrote when the compound had eight bytes. -/
def savedEight : List Byte :=
  pdata (compoundOf 8) (Vector.replicate 6 0) ⟨#[1, 2, 3, 4, 5, 6, 7, 8], rfl⟩ ⟨60, 0⟩

/-- A record of eight bytes is read for a compound that has four by now. -/
theorem read_takes_longer : ¬ ∀ (records : Records) (p : MainParameter), KeepsRecords records p := by
  intro claim
  have keeps := claim (fun key => if key = ascii "/s" then some savedEight else none) (compoundOf 4)
  have read : (Database.mk (some fun key => if key = ascii "/s" then some savedEight else none)).read
      (compoundOf 4) = some ([1, 2, 3, 4, 5, 6, 7, 8], ⟨60, 0⟩) := by decide
  obtain ⟨data, found, fits, -⟩ := keeps.own _ _ read
  have same : dbt (compoundOf 4).path = ascii "/s" := by decide
  rw [same, if_pos rfl] at found
  cases found
  have length := fits.length
  revert length
  decide

end PdServ
