import Mathlib.Algebra.Order.Floor.Ring
import Mathlib.Data.Rat.Floor
import Mathlib.Tactic.FieldSimp
import Mathlib.Tactic.Linarith
import Mathlib.Tactic.NormNum
import PdServ.DecimationCounter
import PdServ.IndexText

/-!
`Session::xsad`: how a client orders channels. The command is read once, then each listed
channel that exists is subscribed at the manager of its task. Sample times are exact
rationals; a conversion to `unsigned` of what does not fit in one has no result.
-/

namespace PdServ

/-! ### The list of channels -/

/-- `is >> i` for an `unsigned int`: the number and what follows it. -/
def readUnsigned (text : List Byte) : Option (Nat × List Byte) :=
  let text := text.dropWhile isspace
  let negative := text.head? == some Chr.minus
  let text := if negative || text.head? == some Chr.plus then text.drop 1 else text
  let digits := text.takeWhile isdigit
  let n := digitsValue 10 0 digits
  if digits = [] ∨ n ≥ 2 ^ 32 then none
  else some (if negative then (2 ^ 32 - n) % 2 ^ 32 else n, text.dropWhile isdigit)

/-- `while (is) { is >> i; if (is) push_back(i); is >> comma; }`; each round takes at least
one byte, so `left` of them are enough. -/
def readUnsignedList : (left : Nat) → List Byte → List Nat
  | 0, _ => []
  | left + 1, text =>
      match readUnsigned text with
      | none => []
      | some (i, rest) =>
          match rest.dropWhile isspace with
          | [] => [i]
          | _ :: rest => i :: readUnsignedList left rest

def Command.getUnsignedList (command : Command) (name : List Byte) : Option (List Nat) :=
  match command.find name with
  | some (some value) => some (readUnsignedList (value.length + 1) value)
  | _ => none

/-! ### The command -/

/-- The channels of the server: `channel.size()`, and of each channel the index of its task
and the sample time of its signal. -/
structure ChannelTable where
  size : Nat
  task : Nat → Nat
  sampleTime : Nat → ℚ
  positive : ∀ c, 0 < sampleTime c

/-- `static_cast<unsigned>(x)` for a positive `x`; too large a value has no result. -/
def castUnsigned (x : ℚ) : Option Nat := if ⌊x⌋ < 2 ^ 32 then some ⌊x⌋.toNat else none

/-- What a command says about all its channels. `reduction` is missing where the command
leaves it to each channel. -/
structure XsadOrder where
  event : Bool
  reduction : Option Nat
  blocksize : Nat
  base64 : Bool
  precision : Nat
  group : Nat

/-- A call of `subscribe` at the manager of a task. -/
structure SubscribeCall where
  task : Nat
  channel : Nat
  group : Nat
  decimation : Nat
  blocksize : Nat
  base64 : Bool
  precision : Nat

structure XsadResult where
  sync : Bool
  quiet : Bool
  /-- The texts of the `<warn command="xsad">` elements. -/
  warnings : List (List Byte)
  calls : List SubscribeCall

namespace XsadOrder

/-- `reduction`, and the warning about a zero. -/
def readReduction (command : Command) : Option Nat × List (List Byte) :=
  match command.getUnsigned (ascii "reduction") with
  | some reduction =>
      if reduction = 0 then (some 1, [ascii "specified reduction=0, choosing reduction=1"])
      else (some reduction, [])
  | none => (none, [])

/-- `blocksize`, and the warning about a zero. A blocksize of zero is for event channels. -/
def readBlocksize (command : Command) : Nat × List (List Byte) :=
  if command.isTrue (ascii "event") then (0, [])
  else
    match command.getUnsigned (ascii "blocksize") with
    | some blocksize =>
        if blocksize = 0 then (1, [ascii "specified blocksize=0, choosing blocksize=1"])
        else (blocksize, [])
    | none => (1, [])

def read (command : Command) : XsadOrder where
  event := command.isTrue (ascii "event")
  reduction := (readReduction command).1
  blocksize := (readBlocksize command).1
  base64 := command.isEqual (ascii "coding") (ascii "Base64")
  precision := (command.getUnsigned (ascii "precision")).getD 16
  group := (command.getUnsigned (ascii "group")).getD 0

/-- The `reduction` of a channel: at most 10 Hz for an event, 1 Hz for blocks. -/
def reductionFor (order : XsadOrder) (sampleTime : ℚ) : Option Nat :=
  match order.reduction with
  | some reduction => some reduction
  | none =>
      if order.event then castUnsigned (1 / 10 / sampleTime + 1 / 2)
      else castUnsigned (1 / sampleTime / order.blocksize + 1 / 2)

def call (order : XsadOrder) (table : ChannelTable) (c : Nat) : Option SubscribeCall :=
  (order.reductionFor (table.sampleTime c)).map fun reduction =>
    { task := table.task c
      channel := c
      group := order.group
      decimation := reduction
      blocksize := order.blocksize
      base64 := order.base64
      precision := order.precision }

end XsadOrder

def Session.xsad (table : ChannelTable) (command : Command) : Option XsadResult :=
  let sync := command.isTrue (ascii "sync")
  let quiet := if sync then false else command.isTrue (ascii "quiet")
  match command.getUnsignedList (ascii "channels") with
  | none => some { sync := sync, quiet := quiet, warnings := [], calls := [] }
  | some indexList => do
      let calls ← (indexList.filter (· < table.size)).mapM ((XsadOrder.read command).call table)
      some
        { sync := sync
          quiet := quiet
          warnings := (XsadOrder.readReduction command).2 ++ (XsadOrder.readBlocksize command).2
          calls := calls }

namespace SubscribeCall

/-- `new Subscription(c, decimation, blocksize, base64, precision)` -/
def subscription (call : SubscribeCall) (channels : Nat → Channel) : Subscription :=
  Subscription.create channels call.channel call.decimation call.blocksize call.base64
    call.precision

/-- The block subscription has a decimation, its group counts down to every such tick, and
these are the ticks its sets are visited at. -/
structure Regular (channels : Nat → Channel) (call : SubscribeCall) : Prop where
  decimation : 1 ≤ (call.subscription channels).decimation
  decimates : ∀ m sampled,
    SubscriptionManager.GroupRun channels call.group (call.subscription channels).decimation m
      sampled →
    SubscriptionManager.Decimates (call.subscription channels).decimation
      (m.activeSignals.counter? call.group (call.subscription channels).decimation) sampled
  visits : ∀ m, SubscriptionManager.VisitsSampled channels call.group
    (call.subscription channels).decimation m

theorem subscription_decimation {call : SubscribeCall} (channels : Nat → Channel)
    (block : call.blocksize ≠ 0) : (call.subscription channels).decimation = call.decimation :=
  if_neg block

theorem regular_iff {call : SubscribeCall} (channels : Nat → Channel) (block : call.blocksize ≠ 0)
    (fits : call.decimation < 2 ^ 64) : call.Regular channels ↔ 1 ≤ call.decimation := by
  have same := subscription_decimation channels block
  constructor
  · intro regular
    rw [← same]
    exact regular.decimation
  · intro some
    rw [← same] at some fits
    exact ⟨some, fun m sampled run => run.decimates some fits,
      SubscriptionManager.rxPdo_samples channels _ _⟩

end SubscribeCall

/-! ### When a command is served as it should -/

theorem castUnsigned_iff {x : ℚ} {n : Nat} :
    castUnsigned x = some n ↔ x < 2 ^ 32 ∧ ⌊x⌋.toNat = n := by
  have floor : ⌊x⌋ < 2 ^ 32 ↔ x < 2 ^ 32 := by
    rw [Int.floor_lt]
    norm_num
  unfold castUnsigned
  split
  · next fits => simp [floor.mp fits]
  · next large => simp [mt floor.mpr large]

namespace XsadOrder

variable {command : Command}

variable (command) in
theorem blocksize_eq_zero : (read command).blocksize = 0 ↔ (read command).event = true := by
  simp only [read, readBlocksize]
  split
  · next event => simp [event]
  · next block =>
    split
    · split
      · simp [block]
      · next given => simp [block, given]
    · simp [block]

theorem reduction_range {r : Nat} (given : (read command).reduction = some r) :
    1 ≤ r ∧ r < 2 ^ 32 := by
  simp only [read, readReduction] at given
  split at given
  · next reduction number =>
    split at given
    · cases given
      omega
    · next other =>
      cases given
      unfold Command.getUnsigned at number
      split at number
      · cases number
        omega
      · cases number
  · cases given

/-- What the command leaves to a channel of this sample time fits: for a block, the block
takes no longer than two seconds. -/
def Fits (order : XsadOrder) (sampleTime : ℚ) : Prop :=
  if order.event then 1 / 10 / sampleTime + 1 / 2 < 2 ^ 32
  else sampleTime * order.blocksize ≤ 2 ∧ 1 / sampleTime / order.blocksize + 1 / 2 < 2 ^ 32

/-- The rounded quotient is not zero. -/
theorem one_le_cast {sampleTime : ℚ} {blocksize : Nat} (positive : 0 < sampleTime)
    (block : blocksize ≠ 0) :
    1 ≤ ⌊1 / sampleTime / blocksize + 1 / 2⌋.toNat ↔ sampleTime * blocksize ≤ 2 := by
  have span : 0 < sampleTime * blocksize := by
    have size : (0 : ℚ) < blocksize := by exact_mod_cast Nat.pos_of_ne_zero block
    exact mul_pos positive size
  have floor : 1 ≤ ⌊1 / sampleTime / blocksize + 1 / 2⌋.toNat ↔
      (1 : ℤ) ≤ ⌊1 / sampleTime / blocksize + 1 / 2⌋ := by omega
  rw [floor, Int.le_floor, div_div]
  push_cast
  constructor
  · intro large
    have half : 1 / 2 ≤ 1 / (sampleTime * blocksize) := by linarith
    rw [le_div_iff₀ span] at half
    linarith
  · intro short
    have half : 1 / 2 ≤ 1 / (sampleTime * blocksize) := by
      rw [le_div_iff₀ span]
      linarith
    linarith

/-- A channel is subscribed as it should if and only if the command says its reduction, or
what is left to the channel fits. -/
theorem call_iff (channels : Nat → Channel) (table : ChannelTable) (c : Nat) :
    (∃ call, (read command).call table c = some call ∧
      (call.blocksize ≠ 0 → call.Regular channels)) ↔
    ((read command).reduction ≠ none ∨ (read command).Fits (table.sampleTime c)) := by
  have event_iff := blocksize_eq_zero command
  cases given : (read command).reduction with
  | some r =>
      obtain ⟨some, small⟩ := reduction_range given
      refine iff_of_true ⟨_, by rw [call, reductionFor, given, Option.map_some], ?_⟩ (.inl (by simp))
      intro block
      exact (SubscribeCall.regular_iff channels block (by simp only; omega)).mpr some
  | none =>
      simp only [call, reductionFor, given, ne_eq, not_true_eq_false, false_or, Fits]
      by_cases event : (read command).event = true
      · rw [if_pos event, if_pos event]
        -- an event subscription has no block
        have nothing := event_iff.mpr event
        constructor
        · rintro ⟨call, made, -⟩
          obtain ⟨n, cast, -⟩ := Option.map_eq_some_iff.mp made
          exact (castUnsigned_iff.mp cast).1
        · intro fits
          exact ⟨_, by rw [castUnsigned_iff.mpr ⟨fits, rfl⟩, Option.map_some],
            fun block => absurd nothing block⟩
      · rw [if_neg event, if_neg event]
        have block : (read command).blocksize ≠ 0 := mt event_iff.mp event
        rw [← one_le_cast (table.positive c) block]
        constructor
        · rintro ⟨call, made, regular⟩
          obtain ⟨n, cast, rfl⟩ := Option.map_eq_some_iff.mp made
          obtain ⟨fits, rfl⟩ := castUnsigned_iff.mp cast
          have some := (regular block).decimation
          rw [SubscribeCall.subscription_decimation channels block] at some
          exact ⟨some, fits⟩
        · rintro ⟨some, fits⟩
          have cast := castUnsigned_iff.mpr ⟨fits, rfl⟩
          refine ⟨_, by rw [cast, Option.map_some], fun _ => ?_⟩
          have floor : ⌊1 / table.sampleTime c / (read command).blocksize + 1 / 2⌋ < 2 ^ 32 := by
            rw [Int.floor_lt]
            exact_mod_cast fits
          exact (SubscribeCall.regular_iff channels block (by simp only; omega)).mpr some

end XsadOrder

/-- Collecting results that all have a property. -/
theorem mapM_some_iff {Item Result : Type} {f : Item → Option Result} {P : Result → Prop}
    (items : List Item) :
    (∃ results, items.mapM f = some results ∧ ∀ result ∈ results, P result) ↔
      ∀ item ∈ items, ∃ result, f item = some result ∧ P result := by
  induction items with
  | nil => simp
  | cons item rest ih =>
      rw [List.forall_mem_cons, ← ih]
      simp only [List.mapM_cons, Option.bind_eq_bind, Option.pure_def, Option.bind_eq_some_iff]
      constructor
      · rintro ⟨_, ⟨first, here, others, later, same⟩, all⟩
        cases same
        obtain ⟨head, tail⟩ := List.forall_mem_cons.mp all
        exact ⟨⟨first, here, head⟩, others, later, tail⟩
      · rintro ⟨⟨first, here, head⟩, others, later, tail⟩
        exact ⟨_, ⟨first, here, others, later, rfl⟩, List.forall_mem_cons.mpr ⟨head, tail⟩⟩

/-- What becomes of a command is decided channel by channel. -/
theorem Session.xsad_calls_iff (channels : Nat → Channel) (table : ChannelTable)
    (command : Command) {indexList : List Nat}
    (accepted : command.getUnsignedList (ascii "channels") = some indexList) :
    (∃ result, xsad table command = some result ∧
      ∀ call ∈ result.calls, call.blocksize ≠ 0 → call.Regular channels) ↔
    ∀ c ∈ indexList, c < table.size →
      (XsadOrder.read command).reduction ≠ none ∨
        (XsadOrder.read command).Fits (table.sampleTime c) := by
  have calls := mapM_some_iff (f := (XsadOrder.read command).call table)
    (P := fun call => call.blocksize ≠ 0 → call.Regular channels)
    (indexList.filter (· < table.size))
  have result : (∃ result, xsad table command = some result ∧
      ∀ call ∈ result.calls, call.blocksize ≠ 0 → call.Regular channels) ↔
      ∃ calls, (indexList.filter (· < table.size)).mapM ((XsadOrder.read command).call table) =
        some calls ∧ ∀ call ∈ calls, call.blocksize ≠ 0 → call.Regular channels := by
    simp only [xsad, accepted, Option.bind_eq_bind, Option.bind_eq_some_iff]
    constructor
    · rintro ⟨_, ⟨calls, made, same⟩, regular⟩
      cases same
      exact ⟨calls, made, regular⟩
    · rintro ⟨calls, made, regular⟩
      exact ⟨_, ⟨calls, made, rfl⟩, regular⟩
  rw [result, calls]
  simp only [XsadOrder.call_iff, List.mem_filter, decide_eq_true_eq, and_imp]

/-- A command with a list of channels creates only block subscriptions of a positive
decimation, whose groups are sampled at every such tick from their creation on, if and only
if it says the reduction, or the reduction that each channel is left with fits. -/
theorem Session.xsad_regular_iff (channels : Nat → Channel) (table : ChannelTable)
    (command : Command) {indexList : List Nat}
    (accepted : command.getUnsignedList (ascii "channels") = some indexList) :
    (∃ result, xsad table command = some result ∧
      ∀ call ∈ result.calls, call.blocksize ≠ 0 → call.Regular channels) ↔
    ((XsadOrder.read command).reduction ≠ none ∨
      ∀ c ∈ indexList, c < table.size → (XsadOrder.read command).Fits (table.sampleTime c)) := by
  rw [xsad_calls_iff channels table command accepted]
  constructor
  · intro each
    by_cases given : (XsadOrder.read command).reduction = none
    · exact .inr fun c listed known => (each c listed known).resolve_left fun other => other given
    · exact .inl given
  · rintro (given | fits) c listed known
    · exact .inl given
    · exact .inr (fits c listed known)

/-- One channel, sampled once in a second. -/
def everySecond : ChannelTable := ⟨1, fun _ => 0, fun _ => 1, fun _ => one_pos⟩

theorem Session.xsad_regular_single :
    ∃ result, xsad everySecond [(ascii "channels", some (ascii "0"))] = some result ∧
      ∀ call ∈ result.calls, call.blocksize ≠ 0 → call.Regular fun _ => ⟨0, 0, 8⟩ := by
  have accepted : Command.getUnsignedList [(ascii "channels", some (ascii "0"))]
      (ascii "channels") = some [0] := by decide
  apply (xsad_regular_iff (fun _ => ⟨0, 0, 8⟩) everySecond _ accepted).mpr
  refine .inr fun c _ _ => ?_
  have block : (XsadOrder.read [(ascii "channels", some (ascii "0"))]).event = false ∧
      (XsadOrder.read [(ascii "channels", some (ascii "0"))]).blocksize = 1 := by decide
  rw [XsadOrder.Fits, block.1, block.2]
  norm_num [everySecond]

/-- Blocks of three such samples get a decimation of zero. -/
theorem Session.xsad_not_regular :
    ¬ ∀ (channels : Nat → Channel) (table : ChannelTable) (command : Command)
      (indexList : List Nat), command.getUnsignedList (ascii "channels") = some indexList →
      ∃ result, xsad table command = some result ∧
        ∀ call ∈ result.calls, call.blocksize ≠ 0 → call.Regular channels := by
  intro claim
  have served := claim (fun _ => ⟨0, 0, 8⟩) everySecond
    [(ascii "channels", some (ascii "0")), (ascii "blocksize", some (ascii "3"))] [0]
    (by decide)
  rw [xsad_calls_iff _ _ _ (by decide : _ = some [0])] at served
  have block : (XsadOrder.read [(ascii "channels", some (ascii "0")),
        (ascii "blocksize", some (ascii "3"))]).event = false ∧
      (XsadOrder.read [(ascii "channels", some (ascii "0")),
        (ascii "blocksize", some (ascii "3"))]).blocksize = 3 ∧
      (XsadOrder.read [(ascii "channels", some (ascii "0")),
        (ascii "blocksize", some (ascii "3"))]).reduction = none := by decide
  have fits := (served 0 (by simp) (by decide)).resolve_left fun given => given block.2.2
  rw [XsadOrder.Fits, block.1, block.2.1] at fits
  norm_num [everySecond] at fits

end PdServ
