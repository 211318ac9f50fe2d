import PdServ.ParameterWrite

/-!
Which bytes a `write_parameter` command writes. A list of numbers is read into
the leaves of the type one after the other, a hexadecimal string into bytes;
both are limited by the size of the whole parameter, wherever the write starts.
So the bytes stay inside the parameter exactly if start and value together fit.
-/

namespace PdServ

mutual
/-- The primary types a value of the type consists of, in order. -/
def DataType.leaves : DataType → DimType → List Primary
  | .primary kind, dim => List.replicate dim.nelem kind
  | .compound _ fieldList, dim => (List.replicate dim.nelem fieldList.leaves).flatten
def FieldList.leaves : FieldList → List Primary
  | .nil => []
  | .cons _ type _ dim rest => type.leaves dim ++ rest.leaves
end

/-- How many numbers a list gives of which at most `left` are asked for; none
where it is malformed before. -/
def valuesRead : (left : Nat) → List Byte → Option Nat
  | 0, _ => some 0
  | left + 1, text =>
      match extractDouble text with
      | none => none
      | some (_, rest) =>
          match extractChar rest with
          | none => some 1
          | some (c, rest) =>
              if Parameter.isSeparator c then (valuesRead left rest).map (· + 1) else none

/-- The codes from `0` to `f`, which `setHexValue` takes for digits. -/
def isHexCode (c : Byte) : Bool := 48 ≤ c && c ≤ 102

/-- How many bytes a hexadecimal string gives for a buffer of `room` bytes. -/
def hexCount (room : Nat) (s : List Byte) : Option Nat :=
  if (s.take (2 * room)).all isHexCode ∧ (s.length % 2 = 0 ∨ 2 * room ≤ s.length) then
    some (min room (s.length / 2))
  else none

def leavesSize (kinds : List Primary) : Nat := (kinds.map Primary.size).sum

namespace Parameter

/-- How many bytes the value of a command stands for. -/
def valueBytes (p : Parameter) (command : Command) : Option Nat :=
  match command.find (ascii "hexvalue") with
  | some (some s) => hexCount p.memSize s
  | some none => none
  | none =>
      match command.find (ascii "value") with
      | some (some s) =>
          (valuesRead (p.dtype.leaves p.dim).length s).map fun k =>
            leavesSize ((p.dtype.leaves p.dim).take k)
      | _ => none

/-- The range of a call lies inside the parameter. -/
def Call.Inside (call : Call) (p : Parameter) : Prop :=
  p.offset ≤ call.offset ∧ call.offset + call.buf.length ≤ p.offset + p.memSize

variable {convert : SetValue}

/-! ### Numbers -/

/-- `setElements` on one leaf after the other. -/
def readLeaves (convert : SetValue) : List Primary → Elements → Status × Elements
  | [], e => (.more, e)
  | kind :: rest, e =>
      match setPrimary convert kind 1 e with
      | (.more, e) => readLeaves convert rest e
      | stop => stop

theorem readLeaves_append (front back : List Primary) (e : Elements) :
    readLeaves convert (front ++ back) e =
      match readLeaves convert front e with
      | (.more, e) => readLeaves convert back e
      | stop => stop := by
  induction front generalizing e with
  | nil => rfl
  | cons kind rest ih =>
      simp only [List.cons_append, readLeaves]
      cases setPrimary convert kind 1 e with
      | mk status e' =>
          cases status with
          | more => exact ih e'
          | ended => rfl
          | invalid => rfl

theorem setPrimary_succ (kind : Primary) (left : Nat) (e : Elements) :
    setPrimary convert kind (left + 1) e =
      match setPrimary convert kind 1 e with
      | (.more, e) => setPrimary convert kind left e
      | stop => stop := by
  simp only [setPrimary]
  cases extractDouble e.is with
  | none => rfl
  | some read =>
      obtain ⟨v, is⟩ := read
      simp only []
      cases extractChar is with
      | none => rfl
      | some next =>
          obtain ⟨c, is⟩ := next
          simp only []
          split <;> rfl

theorem setPrimary_leaves (kind : Primary) (left : Nat) (e : Elements) :
    setPrimary convert kind left e =
      readLeaves convert (List.replicate left kind) e := by
  induction left generalizing e with
  | zero => rfl
  | succ left ih =>
      rw [setPrimary_succ, List.replicate_succ, readLeaves]
      cases setPrimary convert kind 1 e with
      | mk status e' =>
          cases status with
          | more => exact ih e'
          | ended => rfl
          | invalid => rfl

theorem setCompound_leaves {fields : Elements → Status × Elements}
    {kinds : List Primary} (same : ∀ e, fields e = readLeaves convert kinds e)
    (left : Nat) (e : Elements) :
    setCompound fields left e =
      readLeaves convert (List.replicate left kinds).flatten e := by
  induction left generalizing e with
  | zero => rfl
  | succ left ih =>
      rw [setCompound, same, List.replicate_succ, List.flatten_cons, readLeaves_append]
      cases readLeaves convert kinds e with
      | mk status e' =>
          cases status with
          | more => exact ih e'
          | ended => rfl
          | invalid => rfl

mutual
theorem setElements_leaves : ∀ (dtype : DataType) (dim : DimType) (e : Elements),
    setElements convert dtype dim e = readLeaves convert (dtype.leaves dim) e
  | .primary kind, dim, e => by
      rw [setElements, DataType.leaves]
      exact setPrimary_leaves kind dim.nelem e
  | .compound _ fieldList, dim, e => by
      rw [setElements, DataType.leaves]
      exact setCompound_leaves (setFields_leaves fieldList) dim.nelem e
theorem setFields_leaves : ∀ (fieldList : FieldList) (e : Elements),
    setFields convert fieldList e = readLeaves convert fieldList.leaves e
  | .nil, _ => rfl
  | .cons name type offset dim rest, e => by
      rw [setFields, FieldList.leaves, readLeaves_append, setElements_leaves type dim e]
      cases readLeaves convert (type.leaves dim) e with
      | mk status e' =>
          cases status with
          | more => exact setFields_leaves rest e'
          | ended => rfl
          | invalid => rfl
end

/-- What was stored in a list of leaves, from the number of values read. -/
theorem readLeaves_stored (convert : SetValue) (kinds : List Primary) (e : Elements) :
    match valuesRead kinds.length e.is with
    | none => (readLeaves convert kinds e).1 = .invalid
    | some k => (readLeaves convert kinds e).1 ≠ .invalid ∧
        (readLeaves convert kinds e).2.stored.length =
          e.stored.length + leavesSize (kinds.take k) ∧
        (readLeaves convert kinds e).2.count = e.count + leavesSize (kinds.take k) := by
  induction kinds generalizing e with
  | nil => exact ⟨by simp [readLeaves], rfl, rfl⟩
  | cons kind rest ih =>
      simp only [List.length_cons, valuesRead, readLeaves, setPrimary]
      cases extractDouble e.is with
      | none => rfl
      | some read =>
          obtain ⟨v, is⟩ := read
          simp only []
          cases extractChar is with
          | none =>
              simp [leavesSize, convert.length]
          | some next =>
              obtain ⟨c, is⟩ := next
              simp only []
              by_cases sep : isSeparator c = true
              · rw [if_pos sep, if_pos sep]
                have later := ih ⟨is, e.stored ++ convert.bytes kind v,
                  e.count + kind.size⟩
                simp only [] at later ⊢
                cases known : valuesRead rest.length is with
                | none =>
                    rw [known] at later
                    exact later
                | some k =>
                    rw [known] at later
                    obtain ⟨good, stored, count⟩ := later
                    refine ⟨good, ?_, ?_⟩
                    · rw [stored]
                      simp only [List.length_append, convert.length, List.take_succ_cons,
                        leavesSize, List.map_cons, List.sum_cons]
                      omega
                    · rw [count]
                      simp only [List.take_succ_cons, leavesSize, List.map_cons,
                        List.sum_cons]
                      omega
              · rw [if_neg sep, if_neg sep]

/-! ### Hexadecimal strings -/

theorem hexNum_isSome (c : Byte) : (hexNum[(c - 48).toNat]?).isSome = isHexCode c := by
  have size : hexNum.length = 55 := rfl
  have code : (c - 48).toNat = (208 + c.toNat) % 256 := by
    rw [UInt8.toNat_sub]
    rfl
  have bound := c.toNat_lt
  have range : isHexCode c = decide (48 ≤ c.toNat ∧ c.toNat ≤ 102) := by
    simp [isHexCode, UInt8.le_iff_toNat_le]
  rw [range]
  by_cases inside : (c - 48).toNat < hexNum.length
  · rw [List.getElem?_eq_getElem inside]
    rw [size, code] at inside
    exact (decide_eq_true (by omega)).symm
  · rw [List.getElem?_eq_none (Nat.le_of_not_lt inside)]
    rw [size, code] at inside
    exact (decide_eq_false (by omega)).symm

theorem hexCount_pair (room : Nat) (high low : Byte) (rest : List Byte) :
    hexCount (room + 1) (high :: low :: rest) =
      if isHexCode high = true ∧ isHexCode low = true then
        (hexCount room rest).map (· + 1)
      else none := by
  have twice : 2 * (room + 1) = 2 * room + 1 + 1 := by omega
  have even : (high :: low :: rest).length % 2 = rest.length % 2 := by
    simp only [List.length_cons]
    omega
  have half : (high :: low :: rest).length / 2 = rest.length / 2 + 1 := by
    simp only [List.length_cons]
    omega
  simp only [hexCount, twice, List.take_succ_cons, List.all_cons, even, half]
  cases isHexCode high with
  | false => simp
  | true =>
      cases isHexCode low with
      | false => simp
      | true =>
          have long : (2 * room + 1 + 1 ≤ (high :: low :: rest).length) =
              (2 * room ≤ rest.length) := by
            simp
          simp only [Bool.true_and, long, and_self, if_true]
          split
          · simp only [Option.map_some]
            congr 1
            omega
          · rfl

theorem hexBytes_length : ∀ (room : Nat) (s : List Byte),
    (hexBytes room s).map List.length = hexCount room s
  | 0, s => by simp [hexBytes, hexCount]
  | room + 1, [] => by simp [hexBytes, hexCount]
  | room + 1, [c] => by
      -- the second character of the pair would be the NUL
      have odd : hexCount (room + 1) [c] = none := by
        simp only [hexCount, List.length_singleton]
        rw [if_neg]
        rintro ⟨-, even | long⟩ <;> omega
      rw [odd, hexBytes]
      simp only [List.headD_nil]
      have nul : hexNum[(Chr.nul - 48 : Byte).toNat]? = none := by decide
      rw [nul]
      cases hexNum[(c - 48).toNat]? <;> rfl
  | room + 1, high :: low :: rest => by
      have first := hexNum_isSome high
      have second := hexNum_isSome low
      rw [hexCount_pair, hexBytes]
      simp only [List.headD_cons, List.drop_succ_cons, List.drop_zero]
      rw [← hexBytes_length room rest, ← first, ← second]
      cases hexNum[(high - 48).toNat]? with
      | none => simp
      | some x =>
          cases hexNum[(low - 48).toNat]? with
          | none => simp
          | some y =>
              simp only [Option.isSome_some, and_self, if_true, Option.map_map]
              cases hexBytes room rest <;> rfl

/-! ### The call -/

/-- The call `writeParameter` makes for the value of a command. -/
def callOf (convert : SetValue) (p : Parameter) (command : Command) (start : Nat) :
    Option Call :=
  match command.find (ascii "hexvalue") with
  | some (some s) => p.setHexValue s start
  | some none => none
  | none =>
      match command.find (ascii "value") with
      | some (some s) => p.setDoubleValue convert s start
      | _ => none

theorem setDoubleValue_range (p : Parameter) (s : List Byte) (start : Nat) :
    (p.setDoubleValue convert s start).map (fun call => (call.offset, call.buf.length)) =
      (valuesRead (p.dtype.leaves p.dim).length s).map fun k =>
        (p.offset + start * p.dtype.size,
          leavesSize ((p.dtype.leaves p.dim).take k)) := by
  have stored := readLeaves_stored convert (p.dtype.leaves p.dim) ⟨s, [], 0⟩
  rw [setDoubleValue, setElements_leaves]
  simp only [] at stored
  cases known : valuesRead (p.dtype.leaves p.dim).length s with
  | none =>
      rw [known] at stored
      cases result : readLeaves convert (p.dtype.leaves p.dim) ⟨s, [], 0⟩ with
      | mk status e =>
          rw [result] at stored
          cases stored
          rfl
  | some k =>
      rw [known] at stored
      cases result : readLeaves convert (p.dtype.leaves p.dim) ⟨s, [], 0⟩ with
      | mk status e =>
          rw [result] at stored
          obtain ⟨good, length, count⟩ := stored
          simp only [List.length_nil, Nat.zero_add] at length count
          cases status with
          | invalid => exact absurd rfl good
          | more => simp [length, count]
          | ended => simp [length, count]

/-- Where a command writes and how much, from its attributes alone. -/
theorem callOf_range (convert : SetValue) (p : Parameter) (command : Command) (start : Nat) :
    (p.callOf convert command start).map (fun call => (call.offset, call.buf.length)) =
      (p.valueBytes command).map fun bytes =>
        (p.offset + start * p.dtype.size, bytes) := by
  unfold callOf valueBytes
  cases command.find (ascii "hexvalue") with
  | some hex =>
      cases hex with
      | none => rfl
      | some s =>
          simp only [setHexValue, Option.map_map]
          rw [← hexBytes_length, Option.map_map]
          rfl
  | none =>
      cases command.find (ascii "value") with
      | none => rfl
      | some value =>
          cases value with
          | none => rfl
          | some s =>
              simp only [setDoubleValue_range, Option.map_map]
              rfl

theorem callOf_mainParam (p : Parameter) {command : Command} {start : Nat} {call : Call}
    (made : p.callOf convert command start = some call) :
    p.mainParam = call.mainParam := by
  unfold callOf setHexValue setDoubleValue at made
  split at made
  · obtain ⟨bytes, -, same⟩ := Option.map_eq_some_iff.mp made
    rw [← same]
  · cases made
  · split at made
    · split at made
      · cases made
      · cases made
        rfl
    · cases made

theorem callOf_inside_iff (convert : SetValue) (p : Parameter) (command : Command) (start : Nat) :
    (∀ call, p.callOf convert command start = some call → call.Inside p) ↔
      ∀ bytes, p.valueBytes command = some bytes →
        start * p.dtype.size + bytes ≤ p.memSize := by
  have range := callOf_range convert p command start
  constructor
  · intro inside bytes known
    rw [known] at range
    obtain ⟨call, made, same⟩ := Option.map_eq_some_iff.mp range
    have within := (inside call made).2
    simp only [Prod.mk.injEq] at same
    omega
  · intro fits call made
    rw [made] at range
    obtain ⟨bytes, known, same⟩ := Option.map_eq_some_iff.mp range.symm
    have enough := fits bytes known
    simp only [Prod.mk.injEq] at same
    unfold Call.Inside
    omega

end Parameter

/-! ### The command -/

/-- The start index lets the command through. -/
def Parameter.Admits (p : Parameter) (command : Command) : Prop :=
  ∀ i, command.getUnsigned (ascii "startindex") = some i → i < p.dim.nelem

/-- The condition under which a command stays inside its parameter: the value
it gives fits behind the start index. -/
def Server.Fits (server : Server) (find : List Byte → Option Nat) (writeAccess : Bool)
    (command : Command) : Prop :=
  writeAccess = true → ∀ n p, server.addressed find command = some n →
    server.parameters[n]? = some p → p.Admits command → ∀ bytes, p.valueBytes command = some bytes →
      (command.getUnsigned (ascii "startindex")).getD 0 * p.dtype.size + bytes ≤ p.memSize

variable {convert : SetValue} {server : Server} {find : List Byte → Option Nat}
  {shmAddr : Nat → Nat} {writeAccess : Bool} {session : Session} {exchange : Exchange}
  {main : MainState} {command : Command}

theorem Session.finishWrite_call (p : Nat) (aic : Option Nat)
    (call : Option Parameter.Call) :
    (session.finishWrite shmAddr exchange main p aic call).call = call := by
  cases call <;> rfl

theorem Session.finishWrite_main (p : Nat) (aic : Option Nat)
    (call : Option Parameter.Call) :
    (session.finishWrite shmAddr exchange main p aic call).main =
      match call with
      | none => main
      | some call => (main.setValue shmAddr call exchange).2 := by
  cases call <;> rfl

/-- A command that is let through calls what its value makes of it. -/
theorem Session.writeParameter_calls (session : Session) (shmAddr : Nat → Nat)
    (exchange : Exchange) (main : MainState) {n : Nat} {p : Parameter}
    {call : Parameter.Call} (access : writeAccess = true) (named : server.addressed find command = some n)
    (known : server.parameters[n]? = some p) (admits : p.Admits command)
    (calls : p.callOf convert command
      ((command.getUnsigned (ascii "startindex")).getD 0) = some call) :
    ∃ result, session.writeParameter convert server find shmAddr writeAccess exchange main
        command = some result ∧ result.call = some call := by
  have through : ((command.getUnsigned (ascii "startindex")).any fun i =>
      p.dim.nelem ≤ i) = false := by
    cases given : command.getUnsigned (ascii "startindex") with
    | none => rfl
    | some i => simpa using admits i given
  unfold Parameter.callOf at calls
  simp only [writeParameter, access, Bool.true_eq_false, if_false, named, known, through,
    Bool.false_eq_true]
  cases hex : command.find (ascii "hexvalue") with
  | some value =>
      rw [hex] at calls
      cases value with
      | none => cases calls
      | some s => exact ⟨_, rfl, by rw [finishWrite_call]; exact calls⟩
  | none =>
      rw [hex] at calls
      cases list : command.find (ascii "value") with
      | none =>
          rw [list] at calls
          cases calls
      | some value =>
          rw [list] at calls
          cases value with
          | none => cases calls
          | some s => exact ⟨_, rfl, by rw [finishWrite_call]; exact calls⟩

/-- What a command does to the library: the call of the addressed parameter, if
it gets that far, or nothing. -/
theorem Session.writeParameter_cases {result : WriteResult}
    (wrote : session.writeParameter convert server find shmAddr writeAccess exchange main
      command = some result) :
    (result.call = none ∧ result.main = main) ∨
    ∃ n p call, writeAccess = true ∧ server.addressed find command = some n ∧
      server.parameters[n]? = some p ∧ p.Admits command ∧
      p.callOf convert command ((command.getUnsigned (ascii "startindex")).getD 0) =
        some call ∧
      result.call = some call ∧
      result.main = (main.setValue shmAddr call exchange).2 := by
  unfold writeParameter at wrote
  simp only at wrote
  split at wrote
  · cases wrote
    exact .inl ⟨rfl, rfl⟩
  rename_i access
  split at wrote
  · cases wrote
    exact .inl ⟨rfl, rfl⟩
  rename_i n named
  split at wrote
  · cases wrote
    exact .inl ⟨rfl, rfl⟩
  rename_i p known
  split at wrote
  · cases wrote
    exact .inl ⟨rfl, rfl⟩
  rename_i through
  have admits : p.Admits command := by
    intro i given
    rw [given] at through
    simpa using through
  have finished : ∀ call, p.callOf convert command
        ((command.getUnsigned (ascii "startindex")).getD 0) = call →
      result = session.finishWrite shmAddr exchange main n
        (if command.isTrue (ascii "aic") = true then some n else none) call →
      (result.call = none ∧ result.main = main) ∨
      ∃ n p call, writeAccess = true ∧ server.addressed find command = some n ∧
        server.parameters[n]? = some p ∧ p.Admits command ∧
        p.callOf convert command ((command.getUnsigned (ascii "startindex")).getD 0) =
          some call ∧
        result.call = some call ∧
        result.main = (main.setValue shmAddr call exchange).2 := by
    intro call made same
    subst same
    rw [finishWrite_call, finishWrite_main]
    cases call with
    | none => exact .inl ⟨rfl, rfl⟩
    | some call =>
        exact .inr ⟨n, p, call, by simpa using access, named, known, admits, made, rfl, rfl⟩
  split at wrote
  · cases wrote
  · rename_i s hex
    refine finished _ ?_ (Option.some.inj wrote).symm
    rw [Parameter.callOf, hex]
  · rename_i hex
    split at wrote
    · cases wrote
    · rename_i s list
      refine finished _ ?_ (Option.some.inj wrote).symm
      rw [Parameter.callOf, hex, list]
    · cases wrote
      exact .inl ⟨rfl, rfl⟩

/-- `Main::setValue` writes nothing outside the range it is given. -/
theorem MainState.setValue_outside (call : Parameter.Call) {a : Nat}
    (outside : a < shmAddr call.mainParam + call.offset ∨
      shmAddr call.mainParam + call.offset + call.buf.length ≤ a) :
    (main.setValue shmAddr call exchange).2.shmem a = main.shmem a := by
  have copied := main.shmem.write_outside call.buf outside
  unfold MainState.setValue
  simp only
  split
  · exact copied
  · split
    · exact copied
    · exact (Memory.write_outside _ _ (by simpa using outside)).trans copied

/-- Every call of a command lies inside the parameter it addresses exactly if
the value fits behind the start index; then the bytes of shared memory outside
the parameter stay as they are. -/
theorem Session.writeParameter_inside_iff (convert : SetValue) (server : Server)
    (find : List Byte → Option Nat) (shmAddr : Nat → Nat) (writeAccess : Bool)
    (session : Session) (exchange : Exchange) (main : MainState) (command : Command) :
    ((∀ result call, session.writeParameter convert server find shmAddr writeAccess
        exchange main command = some result → result.call = some call →
      ∃ n p, server.addressed find command = some n ∧ server.parameters[n]? = some p ∧
        p.mainParam = call.mainParam ∧ call.Inside p) ↔
      server.Fits find writeAccess command) ∧
    (server.Fits find writeAccess command →
      ∀ result a, session.writeParameter convert server find shmAddr writeAccess
        exchange main command = some result →
      (∀ n p, server.addressed find command = some n → server.parameters[n]? = some p →
        a < shmAddr p.mainParam + p.offset ∨
          shmAddr p.mainParam + p.offset + p.memSize ≤ a) →
      result.main.shmem a = main.shmem a) := by
  have inside_of : server.Fits find writeAccess command → ∀ {n p call},
      writeAccess = true → server.addressed find command = some n →
      server.parameters[n]? = some p → p.Admits command →
      p.callOf convert command ((command.getUnsigned (ascii "startindex")).getD 0) =
        some call → call.Inside p := by
    intro fits n p call access named known admits made
    exact (p.callOf_inside_iff convert command _).mpr (fits access n p named known admits) call made
  refine ⟨⟨?_, ?_⟩, ?_⟩
  · intro inside access n p named known admits
    rw [← p.callOf_inside_iff convert]
    intro call made
    obtain ⟨result, wrote, called⟩ := writeParameter_calls session shmAddr
      exchange main access named known admits made
    obtain ⟨n', p', named', known', -, within⟩ := inside result call wrote called
    rw [named] at named'
    cases named'
    rw [known] at known'
    cases known'
    exact within
  · intro fits result call wrote called
    rcases writeParameter_cases wrote with ⟨uncalled, -⟩ |
      ⟨n, p, call', access, named, known, admits, made, called', -⟩
    · rw [uncalled] at called
      cases called
    · rw [called] at called'
      cases called'
      exact ⟨n, p, named, known, p.callOf_mainParam made,
        inside_of fits access named known admits made⟩
  · intro fits result a wrote outside
    rcases writeParameter_cases wrote with ⟨-, same⟩ |
      ⟨n, p, call, access, named, known, admits, made, -, moved⟩
    · rw [same]
    · rw [moved]
      apply MainState.setValue_outside
      have target := p.callOf_mainParam made
      obtain ⟨low, high⟩ := inside_of fits access named known admits made
      have away := outside n p named known
      rw [target] at away
      omega

/-- The bytes of small non-negative integers in the integer types. -/
def SetValue.plain : SetValue where
  bytes := fun kind v =>
    (List.range kind.size).map fun i => UInt8.ofNat (v.mantissa / 256 ^ i)
  length := by simp

/-- Three numbers written from the second element of a vector of three on: the
last one lands behind the vector. -/
theorem Session.writeParameter_vector_overruns :
    let p : Parameter := ⟨0, .primary .uint8, ⟨[3], DimType.positive_three⟩, 0, false, false, none⟩
    let server : Server := ⟨false, [p], fun _ => [], fun _ => none⟩
    let command : Command := [(ascii "index", some (ascii "0")),
      (ascii "startindex", some (ascii "1")), (ascii "value", some (ascii "1,2,3"))]
    let written := Session.writeParameter .plain server (fun _ => none) (fun _ => 0) true
      ⟨false, []⟩ ⟨true, true, 0, 5, 6⟩ ⟨fun _ => 9, fun _ => (0, 0)⟩ command
    p.memSize = 3 ∧
      written.map (fun result => (result.call, result.main.shmem 3)) =
        some (some ⟨0, 1, [1, 2, 3]⟩, 3) ∧
      ¬ ∀ result call, written = some result → result.call = some call →
        call.Inside p := by
  intro p server command written
  have wrote : written.map (fun result => (result.call, result.main.shmem 3)) =
      some (some ⟨0, 1, [1, 2, 3]⟩, 3) := by decide +kernel
  refine ⟨by decide, wrote, ?_⟩
  intro inside
  obtain ⟨result, made, same⟩ := Option.map_eq_some_iff.mp wrote
  simp only [Prod.mk.injEq] at same
  have high := (inside result _ made same.1).2
  simp [p, Parameter.memSize, DataType.size, Primary.size, DimType.nelem] at high

end PdServ
