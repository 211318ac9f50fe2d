import PdServ.XmlParser

/-!
`MsrProto::Subscription`: one channel of one group with its buffer of sample
blocks. A write past the end of the buffer is a fault (`none`). The text form
of the printed values (base64 or csv) stays outside; a printed element carries
the bytes it is made from.
-/

namespace PdServ

/-- The part of `MsrProto::Channel` that is read here. Channels are known by
their index in the server's table. -/
structure Channel where
  signal : Nat
  offset : Nat
  memSize : Nat

/-- What one successful `Task::rxPdo` delivers: the task time, and for every
signal the memory that `getValue` points to. -/
structure Tick where
  tv_sec : Nat
  tv_nsec : Nat
  getValue : Nat → Nat → Byte

/-- The entry of the time array: `1000000000ULL * tv_sec + tv_nsec`. -/
def Tick.nanoseconds (tick : Tick) : Nat :=
  (1000000000 * tick.tv_sec + tick.tv_nsec) % 2 ^ 64

/-- The bytes of a channel in a tick. -/
def Tick.sample (tick : Tick) (channel : Channel) : List Byte :=
  (List.range channel.memSize).map fun i =>
    tick.getValue channel.signal (channel.offset + i)

structure Subscription where
  channel : Nat
  decimation : Nat
  blocksize : Nat
  bufferOffset : Nat
  trigger_start : Nat
  trigger : Nat
  nblocks : Nat
  precision : Nat
  base64 : Bool
  /-- The memory from `data_bptr` to `data_eptr`. -/
  data : List Byte
  /-- `data_pptr - data_bptr` -/
  data_pptr : Nat

inductive DatumName where
  | F
  | E
deriving DecidableEq

/-- An `<F>` or `<E>` element: the channel index `c` and what its value `d` is
made from. -/
structure Datum where
  name : DatumName
  c : Nat
  base64 : Bool
  precision : Nat
  nblocks : Nat
  d : List Byte

/-- The `k`-th sample block of a datum. -/
def Datum.block (datum : Datum) (memSize k : Nat) : List Byte :=
  (datum.d.drop (k * memSize)).take memSize

/-- Number of entries of a buffer for `blocksize` samples; an event buffer
holds one: `blocksize + !blocksize`. -/
def entries (blocksize : Nat) : Nat :=
  blocksize + if blocksize = 0 then 1 else 0

namespace Subscription

variable (channels : Nat → Channel)

def create (channel decimation blocksize : Nat) (base64 : Bool)
    (precision : Nat) : Subscription where
  channel := channel
  decimation := if blocksize = 0 then 1 else decimation
  blocksize := blocksize
  bufferOffset := (channels channel).offset
  trigger_start := decimation
  trigger := 0
  nblocks := 0
  precision := precision
  base64 := base64
  data := List.replicate (entries blocksize * (channels channel).memSize) 0
  data_pptr := 0

/-- `std::copy(buf, buf + n, data_pptr)` and the two increments. -/
def store (s : Subscription) (value : List Byte) : Option Subscription :=
  if s.data_pptr + value.length ≤ s.data.length then
    some { s with
      data := s.data.take s.data_pptr ++ value ++
        s.data.drop (s.data_pptr + value.length)
      data_pptr := s.data_pptr + value.length
      nblocks := s.nblocks + 1 }
  else none

/-- `newValue`: whether the value was taken, and the subscription after it. -/
def newValue (s : Subscription) (buf : Nat → Byte) : Option (Bool × Subscription) :=
  let n := (channels s.channel).memSize
  let value := (List.range n).map fun i => buf (s.bufferOffset + i)
  if s.blocksize = 0 then
    -- `trigger and --trigger`: a zero trigger is left alone
    let trigger := s.trigger - 1
    if trigger ≠ 0 ∨ value = s.data.take n then
      some (false, { s with trigger := trigger })
    else
      (store { s with trigger := s.trigger_start } value).map fun s => (true, s)
  else
    (store s value).map fun s => (true, s)

/-- `print`: the element, if enough blocks are there, and the emptied
subscription. -/
def print (s : Subscription) : Option (Option Datum × Subscription) :=
  let emptied := { s with data_pptr := 0, nblocks := 0 }
  let len := s.nblocks * (channels s.channel).memSize
  if s.blocksize ≤ s.nblocks then
    if len ≤ s.data.length then
      some (some
        { name := if s.blocksize = 0 then .E else .F
          c := s.channel
          base64 := s.base64
          precision := s.precision
          nblocks := s.nblocks
          d := s.data.take len }, emptied)
    else none
  else some (none, emptied)

def reset (s : Subscription) : Subscription :=
  { s with data_pptr := 0, nblocks := 0 }

end Subscription

end PdServ
