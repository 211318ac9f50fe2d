import PdServ.Transition
import PdServ.XmlParser

/-!
The output side of a session without TLS: `xsputn` fills the put area of the
stream buffer, `flush` hands it to `write()`, which takes any part of it, asks
to try again or fails. The results of `write()` during a call are given in
advance; a call that would need more of them does not return.
-/

namespace PdServ

/-! ### The put area -/

/-- `[pbase, epptr)` with the position of `pptr`. -/
structure PutArea (bufsize : Nat) where
  cells : List Byte
  pptr : Nat
  length_cells : cells.length = bufsize
  pptr_le : pptr ≤ bufsize

namespace PutArea

variable {bufsize : Nat}

/-- The bytes in `[pbase, pptr)`. -/
def content (area : PutArea bufsize) : List Byte := area.cells.take area.pptr

/-- `epptr() - pptr()` -/
def space (area : PutArea bufsize) : Nat := bufsize - area.pptr

/-- Copy what finds place behind `pptr`, and move it on. -/
def put (area : PutArea bufsize) (data : List Byte) : PutArea bufsize where
  cells := area.cells.take area.pptr ++ data.take area.space ++
    area.cells.drop (area.pptr + min area.space data.length)
  pptr := area.pptr + min area.space data.length
  length_cells := by
    have := area.length_cells
    have := area.pptr_le
    simp only [space, List.length_append, List.length_take, List.length_drop]
    omega
  pptr_le := by
    have := area.pptr_le
    unfold space
    omega

/-- Move the bytes from `pbase + offset` on to the start. -/
def shift (area : PutArea bufsize) (offset : Nat) : PutArea bufsize where
  cells := area.content.drop offset ++ area.cells.drop (area.pptr - offset)
  pptr := area.pptr - offset
  length_cells := by
    have := area.length_cells
    have := area.pptr_le
    simp only [content, List.length_append, List.length_take, List.length_drop]
    omega
  pptr_le := by
    have := area.pptr_le
    omega

@[simp] theorem length_content (area : PutArea bufsize) :
    area.content.length = area.pptr := by
  have := area.length_cells
  have := area.pptr_le
  simp only [content, List.length_take]
  omega

@[simp] theorem content_put (area : PutArea bufsize) (data : List Byte) :
    (area.put data).content = area.content ++ data.take area.space := by
  have length := area.length_content
  have taken : (area.content ++ data.take area.space).length =
      area.pptr + min area.space data.length := by
    simp
  calc (area.put data).content
      = (area.content ++ data.take area.space ++
          area.cells.drop (area.pptr + min area.space data.length)).take
            (area.pptr + min area.space data.length) := rfl
    _ = area.content ++ data.take area.space := List.take_left' taken

@[simp] theorem content_shift (area : PutArea bufsize) (offset : Nat) :
    (area.shift offset).content = area.content.drop offset := by
  have left : (area.content.drop offset).length = area.pptr - offset := by simp
  exact List.take_left' left

end PutArea

/-! ### Calls of write -/

/-- A call of `write()`: the bytes it was given, and its result. -/
abbrev WriteCall := List Byte × Int

/-- Neither bytes written nor `-EAGAIN` nor `-EINTR`. -/
def Fatal (result : Int) : Prop := result ≤ 0 ∧ result ≠ -11 ∧ result ≠ -4

instance (result : Int) : Decidable (Fatal result) :=
  inferInstanceAs (Decidable (_ ∧ _ ∧ _))

/-- The bytes these calls have accepted. -/
def written (calls : List WriteCall) : List Byte :=
  calls.flatMap fun call => call.1.take call.2.toNat

@[simp] theorem written_nil : written [] = [] := rfl

@[simp] theorem written_cons (call : WriteCall) (calls : List WriteCall) :
    written (call :: calls) = call.1.take call.2.toNat ++ written calls := rfl

@[simp] theorem written_append (front back : List WriteCall) :
    written (front ++ back) = written front ++ written back :=
  List.flatMap_append ..

/-- The passes of a flush: the last result, where `buf` stands then, the calls
made, and the results left. -/
structure Passes where
  result : Int
  offset : Nat
  calls : List WriteCall
  rest : List Int

/-- `do { … } while (count and !partial)`, from `buf` at `offset` on. -/
def writePasses (onePass : Bool) (content : List Byte) : Nat → List Int → Option Passes
  | _, [] => none
  | offset, result :: results =>
      let data := content.drop offset
      if result > data.length then none
      else if result ≤ 0 then some ⟨result, offset, [(data, result)], results⟩
      else
        let buf := offset + result.toNat
        if buf < content.length ∧ !onePass then
          (writePasses onePass content buf results).map fun passes =>
            { passes with calls := (data, result) :: passes.calls }
        else some ⟨result, buf, [(data, result)], results⟩

/-- What the passes have accepted is gone from the content, and only the last
call can have failed. -/
theorem writePasses_spec {onePass : Bool} {content : List Byte} {offset : Nat}
    {results : List Int} {passes : Passes}
    (done : writePasses onePass content offset results = some passes) :
    written passes.calls ++ content.drop passes.offset = content.drop offset ∧
      ∃ front data, passes.calls = front ++ [(data, passes.result)] ∧
        ∀ call ∈ front, 0 < call.2 := by
  induction results generalizing offset passes with
  | nil => cases done
  | cons result results ih =>
      simp only [writePasses] at done
      split at done
      · cases done
      · split at done
        · next failed =>
          cases done
          refine ⟨?_, [], _, rfl, by simp⟩
          simp [Int.toNat_of_nonpos failed]
        · next accepted =>
          have joined : (content.drop offset).take result.toNat ++
              content.drop (offset + result.toNat) = content.drop offset := by
            rw [← List.drop_drop, List.take_append_drop]
          split at done
          · obtain ⟨later, done, same⟩ := Option.map_eq_some_iff.mp done
            obtain ⟨accounts, front, data, last, positive⟩ := ih done
            subst same
            refine ⟨?_, (content.drop offset, result) :: front, data, ?_, ?_⟩
            · simp only [written_cons, List.append_assoc]
              rw [accounts, joined]
            · simp [last]
            · intro call member
              rcases List.mem_cons.mp member with rfl | member
              · exact Int.not_le.mp accepted
              · exact positive call member
          · cases done
            refine ⟨?_, [], _, rfl, by simp⟩
            simp [joined]

/-! ### The stream buffer of a session -/

/-- The state, with the calls of `write()` so far and the bytes `xsputn` has
reported as accepted. -/
structure SessionOutput (bufsize : Nat) where
  area : PutArea bufsize
  p_eof : Bool := false
  writes : List WriteCall := []
  reported : List Byte := []

namespace SessionOutput

variable {bufsize : Nat}

/-- `Session::flush`; its result, the state, and the results of `write()` left. -/
def flush (onePass : Bool) (output : SessionOutput bufsize) (results : List Int) :
    Option (Int × SessionOutput bufsize × List Int) :=
  if output.p_eof then some (-1, output, results)
  else if output.area.pptr = 0 then some (0, output, results)
  else (writePasses onePass output.area.content 0 results).map fun passes =>
    let p_eof := decide (Fatal passes.result)
    (if p_eof then -1 else 0,
      { output with
        area := output.area.shift passes.offset
        p_eof := p_eof
        writes := output.writes ++ passes.calls },
      passes.rest)

/-- `Session::xsputn` from `ptr` on, for so many turns of its loop at most; the
number of bytes taken from `buf`, and the state. -/
def xsputn (buf : List Byte) :
    (turns : Nat) → SessionOutput bufsize → (ptr : Nat) → List Int →
      Option (Nat × SessionOutput bufsize)
  | 0, _, _, _ => none
  | turns + 1, output, ptr, results =>
      let data := buf.drop ptr
      let n := min output.area.space data.length
      let output := { output with area := output.area.put data }
      let ptr := ptr + n
      if output.area.pptr = bufsize then
        match output.flush true results with
        | none => none
        | some (result, output, results) =>
            if result = 0 ∧ buf.length - ptr ≠ 0 then xsputn buf turns output ptr results
            else some (ptr, output)
      else if buf.length - ptr ≠ 0 then xsputn buf turns output ptr results
      else some (ptr, output)

inductive Action where
  | xsputn (buf : List Byte) (turns : Nat) (results : List Int)
  | sync (results : List Int)

def step (output : SessionOutput bufsize) : Action → Option (SessionOutput bufsize)
  | .xsputn buf turns results =>
      (output.xsputn buf turns 0 results).map fun (ptr, output) =>
        { output with reported := output.reported ++ buf.take ptr }
  | .sync results => (output.flush false results).map fun (_, output, _) => output

/-- The state after the constructor; the buffer has any content. -/
def init (cells : List Byte) : SessionOutput cells.length where
  area := ⟨cells, 0, rfl, Nat.zero_le _⟩

/-- The end of file is a failed call, and that is the last one. -/
structure Ends (output : SessionOutput bufsize) : Prop where
  eof : output.p_eof = true ↔ ∃ call ∈ output.writes, Fatal call.2
  last : ∀ front call back, output.writes = front ++ call :: back →
    Fatal call.2 → back = []

/-- The bytes accepted, and those that wait. -/
def carried (output : SessionOutput bufsize) : List Byte :=
  written output.writes ++ output.area.content

variable {output after : SessionOutput bufsize} {results rest : List Int} {result : Int}

/-- A flush loses nothing, and it fails exactly at the end of file. -/
theorem flush_spec {onePass : Bool}
    (done : output.flush onePass results = some (result, after, rest)) (ends : Ends output) :
    after.carried = output.carried ∧ after.reported = output.reported ∧ Ends after := by
  unfold flush at done
  split at done
  · cases done
    exact ⟨rfl, rfl, ends⟩
  · next running =>
    split at done
    · cases done
      exact ⟨rfl, rfl, ends⟩
    · obtain ⟨passes, passed, same⟩ := Option.map_eq_some_iff.mp done
      cases same
      obtain ⟨accounts, front, data, last, positive⟩ := writePasses_spec passed
      have harmless : ∀ call ∈ output.writes, ¬Fatal call.2 := by
        intro call member failed
        exact running (ends.eof.mpr ⟨call, member, failed⟩)
      refine ⟨?_, rfl, ?_, ?_⟩
      · simp only [carried, written_append, PutArea.content_shift, List.append_assoc]
        rw [accounts, List.drop_zero]
      · simp only [decide_eq_true_eq, last]
        constructor
        · intro failed
          exact ⟨(data, passes.result), by simp, failed⟩
        · rintro ⟨call, member, failed⟩
          simp only [List.mem_append, List.mem_singleton] at member
          rcases member with old | fine | rfl
          · exact absurd failed (harmless call old)
          · exact absurd failed.1 (Int.not_le.mpr (positive call fine))
          · exact failed
      · intro before call back split failed
        rcases List.eq_nil_or_concat back with rfl | ⟨middle, final, rfl⟩
        · rfl
        · exfalso
          have early : before ++ call :: middle = output.writes ++ front := by
            have whole : (before ++ call :: middle) ++ [final] =
                (output.writes ++ front) ++ [(data, passes.result)] := by
              simpa [last] using split.symm
            exact (List.append_inj' whole rfl).1
          have member : call ∈ output.writes ++ front := by
            rw [← early]
            simp
          rcases List.mem_append.mp member with old | fine
          · exact harmless call old failed
          · exact absurd failed.1 (Int.not_le.mpr (positive call fine))

/-- What `xsputn` takes from `buf` behind `ptr`. -/
structure Takes (buf : List Byte) (ptr : Nat) (output : SessionOutput bufsize)
    (count : Nat) (after : SessionOutput bufsize) : Prop where
  forward : ptr ≤ count
  carried : after.carried = output.carried ++ (buf.drop ptr).take (count - ptr)
  reported : after.reported = output.reported
  ends : Ends after

theorem Takes.trans {buf : List Byte} {first second count : Nat}
    {output middle after : SessionOutput bufsize}
    (front : Takes buf first output second middle)
    (back : Takes buf second middle count after) : Takes buf first output count after where
  forward := Nat.le_trans front.forward back.forward
  carried := by
    have le := front.forward
    have le' := back.forward
    have split : count - first = (second - first) + (count - second) := by omega
    have there : first + (second - first) = second := by omega
    rw [back.carried, front.carried, List.append_assoc, split, List.take_add,
      List.drop_drop, there]
  reported := back.reported.trans front.reported
  ends := back.ends

/-- One turn of the loop, before it flushes. -/
theorem takes_put (buf : List Byte) (ptr : Nat) (ends : Ends output) :
    Takes buf ptr output (ptr + min output.area.space (buf.drop ptr).length)
      { output with area := output.area.put (buf.drop ptr) } where
  forward := Nat.le_add_right ..
  carried := by
    have short : (buf.drop ptr).take output.area.space =
        (buf.drop ptr).take (min output.area.space (buf.drop ptr).length) := by
      rw [List.take_eq_take_iff]
      omega
    simp only [SessionOutput.carried, PutArea.content_put, Nat.add_sub_cancel_left,
      List.append_assoc]
    rw [short]
  reported := rfl
  ends := ⟨ends.eof, ends.last⟩

theorem xsputn_spec {buf : List Byte} {turns ptr count : Nat}
    (done : output.xsputn buf turns ptr results = some (count, after))
    (ends : Ends output) : Takes buf ptr output count after := by
  induction turns generalizing output ptr results with
  | zero => cases done
  | succ turns ih =>
      have taken := takes_put buf ptr ends
      rw [xsputn] at done
      dsimp only at done
      split at done
      · split at done
        · cases done
        · next result flushed left here =>
          obtain ⟨carried, reported, ends⟩ := flush_spec here taken.ends
          have flushing : Takes buf ptr output
              (ptr + min output.area.space (buf.drop ptr).length) flushed :=
            ⟨taken.forward, carried.trans taken.carried, reported.trans taken.reported, ends⟩
          split at done
          · exact flushing.trans (ih done ends)
          · cases done
            exact flushing
      · split at done
        · exact taken.trans (ih done taken.ends)
        · cases done
          exact taken

/-- What holds after every call. -/
structure Accounts (output : SessionOutput bufsize) : Prop where
  carried : output.carried = output.reported
  ends : Ends output

theorem Accounts.step {action : Action} (accounts : Accounts output)
    (done : output.step action = some after) : Accounts after := by
  cases action with
  | xsputn buf turns results =>
      obtain ⟨⟨count, there⟩, called, rfl⟩ := Option.map_eq_some_iff.mp done
      have takes := xsputn_spec called accounts.ends
      have carried : there.carried = there.reported ++ buf.take count := by
        rw [takes.carried, accounts.carried, takes.reported]
        simp
      exact ⟨carried, takes.ends.eof, takes.ends.last⟩
  | sync results =>
      obtain ⟨⟨result, there, rest⟩, called, rfl⟩ := Option.map_eq_some_iff.mp done
      obtain ⟨carried, reported, ends⟩ := flush_spec called accounts.ends
      exact ⟨carried.trans (accounts.carried.trans reported.symm), ends⟩

theorem Accounts.init (cells : List Byte) : Accounts (SessionOutput.init cells) where
  carried := rfl
  ends := ⟨by simp [SessionOutput.init], by simp [SessionOutput.init]⟩

end SessionOutput

/-- Runs of calls of `xsputn` and `sync` that return. -/
abbrev OutputRun (cells : List Byte) : SessionOutput cells.length → Prop :=
  Transition.Reaches SessionOutput.step Transition.anyStep (SessionOutput.init cells)

namespace OutputRun

open SessionOutput

/-- Nothing reported as accepted is lost or sent twice; the end of file is
reached exactly with a failed `write()`, and nothing is written after it. -/
theorem accounts {cells : List Byte} {output : SessionOutput cells.length}
    (run : OutputRun cells output) :
    written output.writes ++ output.area.content = output.reported ∧
      (output.p_eof = true ↔ ∃ call ∈ output.writes, Fatal call.2) ∧
      ∀ front call back, output.writes = front ++ call :: back →
        Fatal call.2 → back = [] := by
  have holds := run.invariant (Accounts.init cells) fun _ _ _ before _ done =>
    before.step done
  exact ⟨holds.carried, holds.ends.eof, holds.ends.last⟩

/-- Five bytes through a buffer of three: a partial write, one to be repeated,
and a closed connection. -/
def closing : SessionOutput 3 :=
  (Transition.perform SessionOutput.step (fun _ _ => true)
    [.xsputn [1, 2, 3, 4, 5] 9 [-11, 2, 1], .sync [1, 0], .sync [3]]
    (SessionOutput.init [0, 0, 0])).getD (SessionOutput.init [0, 0, 0])

theorem accounts_closing :
    written closing.writes ++ closing.area.content = [1, 2, 3, 4, 5] ∧
      closing.p_eof = true := by
  have done : Transition.perform SessionOutput.step (fun _ _ => true)
      [.xsputn [1, 2, 3, 4, 5] 9 [-11, 2, 1], .sync [1, 0], .sync [3]]
      (SessionOutput.init [0, 0, 0]) = some closing := rfl
  have run : OutputRun [0, 0, 0] closing := .perform (fun _ _ _ => trivial) .start done
  exact ⟨(accounts run).1, rfl⟩

end OutputRun

end PdServ
