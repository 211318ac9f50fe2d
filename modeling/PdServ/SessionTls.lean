import PdServ.SessionOutput

/-!
The stream buffer of a session with TLS: `startTLS`, the handshake in `xsgetn`, and
`xsputn`, `sync` and `flush`, which send in the clear, not at all, or through the TLS
session. What gnutls returns is given; which of its errors are fatal is a parameter.
-/

namespace PdServ

inductive TlsState where
  | NoTLS
  | InitTLS
  | RunTLS
deriving DecidableEq

/-- What a session has done with the connection: a call of `write()`, a TLS session begun,
its handshake done, or a call of `gnutls_record_send()`. -/
inductive TlsEvent where
  | write (call : WriteCall)
  | start
  | secure
  | send (call : WriteCall)

/-- The protocol: no `write()` after TLS was begun, and a TLS session sends after its
handshake. -/
def TlsEvent.next : TlsState → TlsEvent → Option TlsState
  | .NoTLS, .write _ => some .NoTLS
  | _, .start => some .InitTLS
  | .InitTLS, .secure => some .RunTLS
  | .RunTLS, .send _ => some .RunTLS
  | _, _ => none

def TlsEvent.call : TlsEvent → Option WriteCall
  | .write call | .send call => some call
  | .start | .secure => none

def TlsEvent.openCall : TlsEvent → Option WriteCall
  | .write call => some call
  | _ => none

/-- `plain` and `secret` are the bytes that `xsputn` has reported as accepted, before TLS was
begun and after. -/
structure TlsOutput (bufsize : Nat) where
  area : PutArea bufsize
  p_eof : Bool := false
  state : TlsState := .NoTLS
  log : List TlsEvent := []
  plain : List Byte := []
  secret : List Byte := []

namespace TlsOutput

variable {bufsize : Nat} (isFatal : Int → Bool)

/-- `Calculate EOF` -/
def ends (state : TlsState) (result : Int) : Bool :=
  if state = .NoTLS then decide (Fatal result) else isFatal result || result == 0

/-- The call that a flush makes in this state. -/
def called (state : TlsState) (call : WriteCall) : TlsEvent :=
  if state = .NoTLS then .write call else .send call

/-- `Session::flush`; its result, the state, and the results left. -/
def flush (onePass : Bool) (output : TlsOutput bufsize) (results : List Int) :
    Option (Int × TlsOutput bufsize × List Int) :=
  if output.p_eof then some (-1, output, results)
  else if output.area.pptr = 0 then some (0, output, results)
  else if output.state = .InitTLS then
    if onePass then
      -- `result = -ENOSPC`
      let p_eof := ends isFatal .InitTLS (-28)
      some (if p_eof then -1 else 0, { output with p_eof := p_eof }, results)
    else some (0, output, results)
  else (writePasses onePass output.area.content 0 results).map fun passes =>
    let p_eof := ends isFatal output.state passes.result
    (if p_eof then -1 else 0,
      { output with
        area := output.area.shift passes.offset
        p_eof := p_eof
        log := output.log ++ passes.calls.map (called output.state) },
      passes.rest)

/-- `Session::xsputn` from `ptr` on, for so many turns of its loop at most; the number of
bytes taken from `buf`, and the state. -/
def xsputn (buf : List Byte) :
    (turns : Nat) → TlsOutput bufsize → (ptr : Nat) → List Int → Option (Nat × TlsOutput bufsize)
  | 0, _, _, _ => none
  | turns + 1, output, ptr, results =>
      let data := buf.drop ptr
      let n := min output.area.space data.length
      let output := { output with area := output.area.put data }
      let ptr := ptr + n
      if output.area.pptr = bufsize then
        match output.flush isFatal true results with
        | none => none
        | some (result, output, results) =>
            if result = 0 ∧ buf.length - ptr ≠ 0 then xsputn buf turns output ptr results
            else some (ptr, output)
      else if buf.length - ptr ≠ 0 then xsputn buf turns output ptr results
      else some (ptr, output)

/-- What `read()` or gnutls has returned ends a call of `xsgetn`. -/
def received (output : TlsOutput bufsize) (result : Int) : TlsOutput bufsize :=
  if result > 0 then output
  else { output with p_eof := output.p_eof || ends isFatal output.state result }

/-- `Session::xsgetn`: `result` is that of `read()`, `gnutls_handshake()` or
`gnutls_record_recv()`; behind a handshake buffered data is sent, and `record` is received
if there is any. -/
def xsgetn (output : TlsOutput bufsize) (result : Int) (flushed : List Int)
    (record : Option Int) : Option (TlsOutput bufsize) :=
  if output.state = .InitTLS ∧ result = 0 then do
    let output := { output with state := .RunTLS, log := output.log ++ [TlsEvent.secure] }
    let (_, output, _) ← output.flush isFatal false flushed
    some ((record.map (output.received isFatal)).getD output)
  else some (output.received isFatal result)

/-- `Session::startTLS`, where `init` is what `gnutls_init()` returns. -/
def startTLS (output : TlsOutput bufsize) (init : Int) : TlsOutput bufsize :=
  if init = 0 then { output with state := .InitTLS, log := output.log ++ [TlsEvent.start] }
  else output

inductive Action where
  | xsputn (buf : List Byte) (turns : Nat) (results : List Int)
  | sync (results : List Int)
  | xsgetn (result : Int) (flushed : List Int) (record : Option Int)
  | startTLS (init : Int)

def report (output : TlsOutput bufsize) (data : List Byte) : TlsOutput bufsize :=
  if output.state = .NoTLS then { output with plain := output.plain ++ data }
  else { output with secret := output.secret ++ data }

def step (output : TlsOutput bufsize) : Action → Option (TlsOutput bufsize)
  | .xsputn buf turns results =>
      (output.xsputn isFatal buf turns 0 results).map fun (ptr, output) =>
        output.report (buf.take ptr)
  | .sync results => (output.flush isFatal false results).map fun (_, output, _) => output
  | .xsgetn result flushed record => output.xsgetn isFatal result flushed record
  | .startTLS init => some (output.startTLS init)

/-- The state after the constructor; the buffer has any content. -/
def init (cells : List Byte) : TlsOutput cells.length where
  area := (SessionOutput.init cells).area

/-! ### What the calls do -/

variable {isFatal} {output middle after : TlsOutput bufsize} {results rest : List Int}
  {result : Int}

/-- The bytes sent in either way, and those that wait. -/
def carried (output : TlsOutput bufsize) : List Byte :=
  written (output.log.filterMap TlsEvent.call) ++ output.area.content

/-- `data` is put behind what is carried, and some of it may be sent, in the way of the
state. -/
structure Puts (output : TlsOutput bufsize) (data : List Byte) (after : TlsOutput bufsize) :
    Prop where
  state : after.state = output.state
  plain : after.plain = output.plain
  secret : after.secret = output.secret
  log : ∃ calls, after.log = output.log ++ calls.map (called output.state) ∧
    (output.state = .InitTLS → calls = [])
  carried : after.carried = output.carried ++ data

theorem Puts.refl (output : TlsOutput bufsize) : Puts output [] output :=
  ⟨rfl, rfl, rfl, ⟨[], (List.append_nil _).symm, fun _ => rfl⟩, (List.append_nil _).symm⟩

theorem Puts.trans {first second : List Byte} (front : Puts output first middle)
    (back : Puts middle second after) : Puts output (first ++ second) after where
  state := back.state.trans front.state
  plain := back.plain.trans front.plain
  secret := back.secret.trans front.secret
  log := by
    obtain ⟨calls, log, none⟩ := front.log
    obtain ⟨more, log', none'⟩ := back.log
    refine ⟨calls ++ more, ?_, fun handshake => ?_⟩
    · rw [log', log, front.state, List.map_append, List.append_assoc]
    · rw [none handshake, none' (front.state.trans handshake), List.append_nil]
  carried := by rw [back.carried, front.carried, List.append_assoc]

theorem filterMap_called (state : TlsState) (calls : List WriteCall) :
    (calls.map (called state)).filterMap TlsEvent.call = calls := by
  induction calls with
  | nil => rfl
  | cons call rest ih =>
      have here : (called state call).call = some call := by
        unfold called
        split <;> rfl
      rw [List.map_cons, List.filterMap_cons_some here, ih]

theorem flush_puts {onePass : Bool}
    (done : output.flush isFatal onePass results = some (result, after, rest)) :
    Puts output [] after := by
  unfold flush at done
  split at done
  · cases done
    exact .refl output
  · split at done
    · cases done
      exact .refl output
    · split at done
      · split at done
        · cases done
          exact ⟨rfl, rfl, rfl, ⟨[], (List.append_nil _).symm, fun _ => rfl⟩,
            (List.append_nil _).symm⟩
        · cases done
          exact .refl output
      · next idle =>
        obtain ⟨passes, passed, same⟩ := Option.map_eq_some_iff.mp done
        cases same
        obtain ⟨accounts, -⟩ := writePasses_spec passed
        refine ⟨rfl, rfl, rfl, ⟨passes.calls, rfl, fun handshake => absurd handshake idle⟩, ?_⟩
        simp only [TlsOutput.carried, List.filterMap_append, filterMap_called, written_append,
          PutArea.content_shift, List.append_assoc, List.append_nil]
        rw [accounts, List.drop_zero]

/-- One turn of the loop of `xsputn`, before it flushes. -/
theorem puts_area (output : TlsOutput bufsize) (data : List Byte) :
    Puts output (data.take (min output.area.space data.length))
      { output with area := output.area.put data } where
  state := rfl
  plain := rfl
  secret := rfl
  log := ⟨[], (List.append_nil _).symm, fun _ => rfl⟩
  carried := by
    have short : data.take output.area.space =
        data.take (min output.area.space data.length) := by
      rw [List.take_eq_take_iff]
      omega
    simp only [TlsOutput.carried, PutArea.content_put, List.append_assoc]
    rw [short]

theorem xsputn_puts {buf : List Byte} {turns ptr count : Nat}
    (done : output.xsputn isFatal buf turns ptr results = some (count, after)) :
    ptr ≤ count ∧ Puts output ((buf.drop ptr).take (count - ptr)) after := by
  induction turns generalizing output ptr results with
  | zero => cases done
  | succ turns ih =>
      have taken := puts_area output (buf.drop ptr)
      -- the rest of the loop takes what is behind the bytes of this turn
      have joined {middle : TlsOutput bufsize} {n : Nat}
          (front : Puts output ((buf.drop ptr).take n) middle)
          (back : ptr + n ≤ count ∧
            Puts middle ((buf.drop (ptr + n)).take (count - (ptr + n))) after) :
          ptr ≤ count ∧ Puts output ((buf.drop ptr).take (count - ptr)) after := by
        have split : count - ptr = n + (count - (ptr + n)) := by omega
        refine ⟨by omega, ?_⟩
        rw [split, List.take_add, List.drop_drop]
        exact front.trans back.2
      rw [xsputn] at done
      dsimp only at done
      split at done
      · split at done
        · cases done
        · next result flushed left here =>
          have flushing := taken.trans (flush_puts here)
          rw [List.append_nil] at flushing
          split at done
          · exact joined flushing (ih done)
          · cases done
            rw [Nat.add_sub_cancel_left]
            exact ⟨Nat.le_add_right .., flushing⟩
      · split at done
        · exact joined taken (ih done)
        · cases done
          rw [Nat.add_sub_cancel_left]
          exact ⟨Nat.le_add_right .., taken⟩

/-! ### What every run keeps -/

/-- The calls follow the protocol, nothing is lost or doubled on the way, and what leaves in
the clear was put before TLS was begun. -/
structure Guarded (output : TlsOutput bufsize) : Prop where
  protocol : output.log.foldlM TlsEvent.next .NoTLS = some output.state
  carried : output.carried = output.plain ++ output.secret
  opened : written (output.log.filterMap TlsEvent.openCall) <+: output.plain
  starting : output.state = .NoTLS → output.secret = [] ∧
    output.log.filterMap TlsEvent.openCall = output.log.filterMap TlsEvent.call

theorem init_guarded (cells : List Byte) : Guarded (init cells) :=
  ⟨rfl, rfl, List.prefix_refl _, fun _ => ⟨rfl, rfl⟩⟩

/-- Calls in the way of a state are allowed there. -/
theorem protocol_called {state : TlsState} {calls : List WriteCall}
    (none : state = .InitTLS → calls = []) :
    (calls.map (called state)).foldlM TlsEvent.next state = some state := by
  induction calls with
  | nil => rfl
  | cons call rest ih =>
      have here : TlsEvent.next state (called state call) = some state := by
        cases state with
        | NoTLS => rfl
        | InitTLS => nomatch none rfl
        | RunTLS => rfl
      have others : state = .InitTLS → rest = [] := fun handshake => by
        cases none handshake
      rw [List.map_cons, List.foldlM_cons, here]
      exact ih others

/-- In the clear a call is open, and otherwise it is not. -/
theorem openCall_called (state : TlsState) (calls : List WriteCall) :
    (calls.map (called state)).filterMap TlsEvent.openCall =
      if state = .NoTLS then calls else [] := by
  induction calls with
  | nil => simp
  | cons call rest ih =>
      by_cases clear : state = .NoTLS
      · have here : (called state call).openCall = some call := by
          rw [called, if_pos clear]
          rfl
        rw [if_pos clear] at ih ⊢
        rw [List.map_cons, List.filterMap_cons_some here, ih]
      · have here : (called state call).openCall = none := by
          rw [called, if_neg clear]
          rfl
        rw [if_neg clear] at ih ⊢
        rw [List.map_cons, List.filterMap_cons_none here, ih]

theorem Guarded.puts {data : List Byte} (guarded : Guarded output)
    (puts : Puts output data after) : Guarded (after.report data) := by
  obtain ⟨calls, log, none⟩ := puts.log
  have protocol : after.log.foldlM TlsEvent.next .NoTLS = some after.state := by
    rw [log, List.foldlM_append, guarded.protocol, puts.state]
    exact protocol_called none
  by_cases clear : output.state = .NoTLS
  · obtain ⟨secret, same⟩ := guarded.starting clear
    have still : after.state = .NoTLS := puts.state.trans clear
    have reported : after.report data = { after with plain := after.plain ++ data } := if_pos still
    have all : after.log.filterMap TlsEvent.openCall = after.log.filterMap TlsEvent.call := by
      rw [log, List.filterMap_append, List.filterMap_append, openCall_called, if_pos clear,
        filterMap_called, same]
    have carried : after.carried = after.plain ++ data := by
      rw [puts.carried, guarded.carried, secret, List.append_nil, puts.plain]
    rw [reported]
    refine ⟨protocol, ?_, ?_, fun _ => ⟨puts.secret.trans secret, all⟩⟩
    · calc after.carried = after.plain ++ data := carried
        _ = after.plain ++ data ++ after.secret := by
          rw [puts.secret, secret, List.append_nil]
    · rw [all, ← carried]
      exact List.prefix_append ..
  · have still : after.state ≠ .NoTLS := fun eq => clear (puts.state.symm.trans eq)
    have reported : after.report data = { after with secret := after.secret ++ data } :=
      if_neg still
    have same : after.log.filterMap TlsEvent.openCall =
        output.log.filterMap TlsEvent.openCall := by
      rw [log, List.filterMap_append, openCall_called, if_neg clear, List.append_nil]
    rw [reported]
    refine ⟨protocol, ?_, ?_, fun eq => absurd eq still⟩
    · calc after.carried = output.plain ++ output.secret ++ data := by
            rw [puts.carried, guarded.carried]
        _ = after.plain ++ (after.secret ++ data) := by
            rw [puts.plain, puts.secret, List.append_assoc]
    · rw [same, puts.plain]
      exact guarded.opened

theorem report_nil (output : TlsOutput bufsize) : output.report [] = output := by
  unfold report
  split <;> simp only [List.append_nil]

theorem Guarded.flush {onePass : Bool} (guarded : Guarded output)
    (done : output.flush isFatal onePass results = some (result, after, rest)) :
    Guarded after := by
  have kept := guarded.puts (flush_puts done)
  rw [report_nil] at kept
  exact kept

/-- The ends of a connection and of a handshake send nothing. -/
theorem Guarded.marked (event : TlsEvent) (state : TlsState) (guarded : Guarded output)
    (allowed : TlsEvent.next output.state event = some state) (silent : event.call = none)
    (begun : state ≠ .NoTLS) :
    Guarded { output with state := state, log := output.log ++ [event] } := by
  have closed : event.openCall = none := by
    cases event with
    | write call => cases silent
    | start => rfl
    | secure => rfl
    | send call => rfl
  refine ⟨?_, ?_, ?_, fun eq => absurd eq begun⟩
  · rw [List.foldlM_append, guarded.protocol]
    change TlsEvent.next output.state event >>= pure = some state
    rw [allowed]
    rfl
  · have same : (output.log ++ [event]).filterMap TlsEvent.call =
        output.log.filterMap TlsEvent.call := by
      rw [List.filterMap_append, List.filterMap_cons_none silent]
      exact List.append_nil _
    unfold TlsOutput.carried
    rw [same]
    exact guarded.carried
  · rw [List.filterMap_append, List.filterMap_cons_none closed]
    simpa using guarded.opened

theorem Guarded.received (guarded : Guarded output) (result : Int) :
    Guarded (output.received isFatal result) := by
  unfold TlsOutput.received
  split
  · exact guarded
  · exact ⟨guarded.protocol, guarded.carried, guarded.opened, guarded.starting⟩

theorem Guarded.xsgetn {flushed : List Int} {record : Option Int} (guarded : Guarded output)
    (received : output.xsgetn isFatal result flushed record = some after) : Guarded after := by
  unfold TlsOutput.xsgetn at received
  split at received
  · next handshake =>
    have done : TlsEvent.next output.state .secure = some .RunTLS := by
      rw [handshake.1]
      rfl
    have secured := guarded.marked .secure .RunTLS done rfl (by decide)
    obtain ⟨⟨_, sent, _⟩, flushing, same⟩ := Option.bind_eq_some_iff.mp received
    have sending := secured.flush flushing
    cases same
    cases record with
    | none => exact sending
    | some result => exact sending.received result
  · cases received
    exact guarded.received result

theorem Guarded.step {action : Action} (guarded : Guarded output)
    (done : output.step isFatal action = some after) : Guarded after := by
  cases action with
  | xsputn buf turns results =>
      obtain ⟨⟨count, put⟩, putting, same⟩ := Option.map_eq_some_iff.mp done
      have puts := (xsputn_puts putting).2
      rw [List.drop_zero, Nat.sub_zero] at puts
      cases same
      exact guarded.puts puts
  | sync results =>
      obtain ⟨⟨_, sent, _⟩, flushing, same⟩ := Option.map_eq_some_iff.mp done
      cases same
      exact guarded.flush flushing
  | xsgetn result flushed record => exact guarded.xsgetn done
  | startTLS init =>
      cases done
      unfold TlsOutput.startTLS
      split
      · have begun : TlsEvent.next output.state .start = some .InitTLS := by
          cases output.state <;> rfl
        exact guarded.marked _ _ begun rfl (by decide)
      · exact guarded

/-- In every run `write()` is not called once TLS was begun, nothing is sent through a TLS
session before its handshake is done, and what was accepted is sent in its order or waits;
what leaves in the clear was accepted before TLS was begun. -/
theorem secret_never_open (isFatal : Int → Bool) {cells : List Byte}
    {reached : TlsOutput cells.length}
    (run : Transition.Reaches (step isFatal) Transition.anyStep (init cells) reached) :
    reached.log.foldlM TlsEvent.next .NoTLS = some reached.state ∧
      written (reached.log.filterMap TlsEvent.call) ++ reached.area.content =
        reached.plain ++ reached.secret ∧
      written (reached.log.filterMap TlsEvent.openCall) <+: reached.plain ∧
      (reached.state = .NoTLS → reached.secret = []) := by
  have guarded := run.invariant (init_guarded cells) fun _ _ _ before _ done => before.step done
  exact ⟨guarded.protocol, guarded.carried, guarded.opened,
    fun clear => (guarded.starting clear).1⟩

def never (_ : Int) : Bool := false

def sampleSteps : List Action :=
  [.xsputn [1, 2, 3, 4, 5] 1 [], .sync [3, -11], .startTLS 0, .xsputn [6] 1 [],
    .xsgetn (-28) [] none, .xsgetn 0 [3] none]

def sampleOutput : TlsOutput 8 :=
  (Transition.perform (step never) (fun _ _ => true) sampleSteps
    (init (List.replicate 8 0))).getD (init (List.replicate 8 0))

/-- `write()` takes three of five bytes, TLS is begun and secured, and the other two and a
third one leave through it. -/
theorem secret_never_open_sample :
    sampleOutput.area.content = [] ∧
      written (sampleOutput.log.filterMap TlsEvent.openCall) = [1, 2, 3] ∧
      sampleOutput.plain = [1, 2, 3, 4, 5] ∧ sampleOutput.secret = [6] ∧
      sampleOutput.log.foldlM TlsEvent.next .NoTLS = some sampleOutput.state ∧
      written (sampleOutput.log.filterMap TlsEvent.call) ++ sampleOutput.area.content =
        sampleOutput.plain ++ sampleOutput.secret ∧
      written (sampleOutput.log.filterMap TlsEvent.openCall) <+: sampleOutput.plain ∧
      (sampleOutput.state = .NoTLS → sampleOutput.secret = []) := by
  have done : Transition.perform (step never) (fun _ _ => true) sampleSteps
      (init (List.replicate 8 0)) = some sampleOutput := rfl
  have run : Transition.Reaches (step never) Transition.anyStep (init (List.replicate 8 0))
      sampleOutput := .perform (fun _ _ _ => trivial) .start done
  exact ⟨rfl, rfl, rfl, rfl, secret_never_open never run⟩

/-! ### A full buffer during the handshake -/

/-- A pass of `flush` during the handshake leaves everything as it is. -/
theorem flush_handshake (output : TlsOutput bufsize) (results : List Int)
    (handshake : output.state = .InitTLS) (ended : output.p_eof = false)
    (again : isFatal (-28) = false) :
    output.flush isFatal true results = some (0, output, results) := by
  have goes_on : ends isFatal .InitTLS (-28) = false := by
    simp [ends, again]
  have same : { output with p_eof := false } = output := by
    rw [← ended]
  unfold flush
  rw [if_neg (by rw [ended]; decide), if_pos handshake, goes_on]
  split
  · rfl
  · simp [same]

/-- With the buffer full no turn gets on. -/
theorem xsputn_starves {buf : List Byte} {turns ptr : Nat} (handshake : output.state = .InitTLS)
    (ended : output.p_eof = false) (again : isFatal (-28) = false)
    (more : output.area.space < (buf.drop ptr).length) :
    output.xsputn isFatal buf turns ptr results = none := by
  induction turns generalizing output ptr with
  | zero => rfl
  | succ turns ih =>
      have bounded := output.area.pptr_le
      have taken : min output.area.space (buf.drop ptr).length = output.area.space :=
        Nat.min_eq_left (Nat.le_of_lt more)
      have full : (output.area.put (buf.drop ptr)).pptr = bufsize := by
        simp only [PutArea.put, taken]
        unfold PutArea.space
        omega
      have left : buf.length - (ptr + output.area.space) ≠ 0 := by
        rw [List.length_drop] at more
        omega
      have none_left : (output.area.put (buf.drop ptr)).space = 0 := by
        rw [PutArea.space, full, Nat.sub_self]
      have flushed := flush_handshake
        { output with area := output.area.put (buf.drop ptr) } results handshake ended again
      rw [xsputn]
      dsimp only
      rw [if_pos full, taken, flushed]
      dsimp only
      rw [if_pos ⟨rfl, left⟩]
      refine ih handshake ended ?_
      rw [none_left, List.length_drop]
      omega

/-- What fits is taken in the first turn. -/
theorem xsputn_fits {buf : List Byte} (turns : Nat) (handshake : output.state = .InitTLS)
    (ended : output.p_eof = false) (again : isFatal (-28) = false)
    (fits : buf.length ≤ output.area.space) :
    output.xsputn isFatal buf (turns + 1) 0 results =
      some (buf.length, { output with area := output.area.put buf }) := by
  have flushed := flush_handshake { output with area := output.area.put buf } results handshake
    ended again
  rw [xsputn]
  dsimp only
  rw [List.drop_zero, Nat.min_eq_right fits, flushed]
  split <;> simp

/-- During the handshake `xsputn` returns exactly if the data finds place in the buffer, and
has put it there then and sent nothing: a pass of `flush`, whatever the buffer holds, reports
no end and sends nothing, and the loop ends with such a pass each time it goes on. -/
theorem xsputn_handshake_returns (isFatal : Int → Bool) (output : TlsOutput bufsize)
    (buf : List Byte) (results : List Int) (handshake : output.state = .InitTLS)
    (ended : output.p_eof = false) (again : isFatal (-28) = false) :
    ((∃ turns, (output.xsputn isFatal buf turns 0 results).isSome) ↔
      buf.length ≤ output.area.space) ∧
    (∀ turns count after, output.xsputn isFatal buf turns 0 results = some (count, after) →
      count = buf.length ∧ after.area.content = output.area.content ++ buf ∧
        after.log = output.log) ∧
    ∀ area : PutArea bufsize, ∃ after,
      ({ output with area := area }).flush isFatal true results = some (0, after, results) ∧
        after.area = area ∧ after.log = output.log := by
  have starves (more : output.area.space < buf.length) (turns : Nat) :
      output.xsputn isFatal buf turns 0 results = none :=
    xsputn_starves handshake ended again (by rw [List.drop_zero]; exact more)
  refine ⟨⟨?_, fun fits => ⟨1, ?_⟩⟩, ?_, fun area => ?_⟩
  · rintro ⟨turns, returns⟩
    by_contra more
    rw [starves (Nat.lt_of_not_le more)] at returns
    cases returns
  · rw [xsputn_fits 0 handshake ended again fits]
    rfl
  · intro turns count after done
    have fits : buf.length ≤ output.area.space := by
      by_contra more
      rw [starves (Nat.lt_of_not_le more)] at done
      cases done
    cases turns with
    | zero => cases done
    | succ turns =>
        rw [xsputn_fits turns handshake ended again fits] at done
        cases done
        refine ⟨rfl, ?_, rfl⟩
        rw [PutArea.content_put, List.take_of_length_le fits]
  · exact ⟨_, flush_handshake { output with area := area } results handshake ended again,
      rfl, rfl⟩

/-- Two bytes fit a buffer of two, which is not sent; with three the loop does not end. -/
theorem xsputn_handshake_returns_full :
    (∃ turns, (((init [0, 0]).startTLS 0).xsputn never [1, 2] turns 0 []).isSome) ∧
      ¬ ∃ turns, (((init [0, 0]).startTLS 0).xsputn never [1, 2, 3] turns 0 []).isSome := by
  have two := xsputn_handshake_returns never ((init [0, 0]).startTLS 0) [1, 2] [] rfl rfl rfl
  have three := xsputn_handshake_returns never ((init [0, 0]).startTLS 0) [1, 2, 3] []
    rfl rfl rfl
  exact ⟨two.1.mpr (by decide), fun returns => absurd (three.1.mp returns) (by decide)⟩

end TlsOutput

end PdServ
