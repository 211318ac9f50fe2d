import PdServ.ParameterRange

/-!
`Main::setValue` and the real-time process behind its pipes. The new value is in
shared memory before the real-time process is asked about it. A refusal is undone
from a backup; a pipe that fails is not.
-/

namespace PdServ

/-- `write_cb` of a parameter: from the new bytes to its result and the time at which it
took them over. -/
abbrev WriteCallback := Nat → List Byte → Int × (Nat × Nat)

/-- One turn of `Main::run` for `SDO::ParamChange`; offset and count of the request are
of the type `unsigned int`. -/
def MainState.run (m : MainState) (shmAddr : Nat → Nat) (write_cb : WriteCallback)
    (call : Parameter.Call) : Int × (Nat × Nat) :=
  write_cb call.mainParam (m.shmem.read (shmAddr call.mainParam + call.offset % 2 ^ 32)
    (call.buf.length % 2 ^ 32))

/-- The exchange of `setValue` with that process, over a pipe for the request and one for
the answer, each of which may fail or be short. -/
def MainState.exchange (m : MainState) (shmAddr : Nat → Nat) (write_cb : WriteCallback)
    (call : Parameter.Call) (written answered : Bool) : Exchange :=
  let copied := m.shmem.write (shmAddr call.mainParam + call.offset) call.buf
  let ack := MainState.run { m with shmem := copied } shmAddr write_cb call
  { written := written, answered := answered, rv := ack.1, time := ack.2 }

/-- A write that fails leaves the parameter alone, one that succeeds replaces the bytes
of the call and takes the time from the callback. -/
structure SetsOrKeeps (before : MainState) (start memSize : Nat) (call : Parameter.Call)
    (exchange : Exchange) (result : Int × MainState) : Prop where
  kept : result.1 ≠ 0 →
    (∀ i < memSize, result.2.shmem (start + i) = before.shmem (start + i)) ∧
      result.2.mtime call.mainParam = before.mtime call.mainParam
  set : result.1 = 0 →
    (∀ i < memSize, result.2.shmem (start + i) =
      if call.offset ≤ i then (call.buf[i - call.offset]?).getD (before.shmem (start + i))
      else before.shmem (start + i)) ∧
      result.2.mtime call.mainParam = exchange.time

section

variable (m : MainState) (shmAddr : Nat → Nat) (call : Parameter.Call) (exchange : Exchange)

/-- Everything `setValue` can do. -/
theorem MainState.setValue_cases :
    ((exchange.written = false ∨ exchange.answered = false) ∧
      m.setValue shmAddr call exchange = (-5, { m with
        shmem := m.shmem.write (shmAddr call.mainParam + call.offset) call.buf })) ∨
    ((exchange.written = true ∧ exchange.answered = true) ∧ exchange.rv = 0 ∧
      m.setValue shmAddr call exchange = (0,
        { shmem := m.shmem.write (shmAddr call.mainParam + call.offset) call.buf
          mtime := Function.update m.mtime call.mainParam exchange.time })) ∨
    ((exchange.written = true ∧ exchange.answered = true) ∧ exchange.rv ≠ 0 ∧
      m.setValue shmAddr call exchange = (exchange.rv, { m with
        shmem := (m.shmem.write (shmAddr call.mainParam + call.offset) call.buf).write
          (shmAddr call.mainParam + call.offset)
          (m.shmem.read (shmAddr call.mainParam + call.offset) call.buf.length) })) := by
  by_cases failed : exchange.written = false ∨ exchange.answered = false
  · exact .inl ⟨failed, by simp only [MainState.setValue, if_pos failed]⟩
  · have worked : exchange.written = true ∧ exchange.answered = true := by
      simpa [not_or] using failed
    by_cases accepted : exchange.rv = 0
    · exact .inr (.inl ⟨worked, accepted, by
        simp only [MainState.setValue, if_neg failed, if_pos accepted]⟩)
    · exact .inr (.inr ⟨worked, accepted, by
        simp only [MainState.setValue, if_neg failed, if_neg accepted]⟩)

end

/-- The parameter is set or left alone if and only if both pipes worked or the bytes
written were there already. -/
theorem MainState.setValue_setsOrKeeps_iff (m : MainState) (shmAddr : Nat → Nat) (memSize : Nat)
    (call : Parameter.Call) (write_cb : WriteCallback) (written answered : Bool)
    (inside : call.offset + call.buf.length ≤ memSize) :
    SetsOrKeeps m (shmAddr call.mainParam) memSize call
        (m.exchange shmAddr write_cb call written answered)
        (m.setValue shmAddr call (m.exchange shmAddr write_cb call written answered)) ↔
      written = true ∧ answered = true ∨
        m.shmem.read (shmAddr call.mainParam + call.offset) call.buf.length = call.buf := by
  have copied := m.shmem.write_at (shmAddr call.mainParam) call.offset call.buf
  rcases m.setValue_cases shmAddr call (m.exchange shmAddr write_cb call written answered) with
    ⟨failed, result⟩ | ⟨worked, accepted, result⟩ | ⟨worked, refused, result⟩
  · rw [result]
    have broken : ¬ (written = true ∧ answered = true) := by
      rintro ⟨rfl, rfl⟩
      simp [exchange] at failed
    constructor
    · intro sets
      obtain ⟨same, -⟩ := sets.kept (show (-5 : Int) ≠ 0 by decide)
      refine .inr (Memory.read_of_unchanged fun i short => ?_)
      rw [Nat.add_assoc]
      exact same (call.offset + i) (by omega)
    · intro worked
      have there := worked.resolve_left broken
      refine ⟨fun _ => ⟨fun i _ => ?_, rfl⟩, fun zero => absurd zero (show (-5 : Int) ≠ 0 by decide)⟩
      exact congrFun (Memory.write_unchanged there) _
  · rw [result]
    refine ⟨fun _ => .inl worked, fun _ => ⟨fun nonzero => absurd rfl nonzero, fun _ => ⟨fun i _ => ?_, ?_⟩⟩⟩
    · exact copied i
    · exact Function.update_self _ _ _
  · rw [result]
    refine ⟨fun _ => .inl worked, fun _ => ⟨fun _ => ⟨fun i _ => ?_, rfl⟩, fun zero => absurd zero refused⟩⟩
    exact congrFun (Memory.write_backup _ _ _) _

/-- A callback that refuses and one that takes the value over. -/
theorem MainState.setValue_refused :
    SetsOrKeeps ⟨fun _ => 7, fun _ => (1, 2)⟩ 100 4 ⟨0, 1, [8, 9]⟩
      ⟨true, true, -22, (3, 4)⟩
      (MainState.setValue ⟨fun _ => 7, fun _ => (1, 2)⟩ (fun _ => 100) ⟨0, 1, [8, 9]⟩
        ⟨true, true, -22, (3, 4)⟩) :=
  (MainState.setValue_setsOrKeeps_iff ⟨fun _ => 7, fun _ => (1, 2)⟩ (fun _ => 100) 4
    ⟨0, 1, [8, 9]⟩ (fun _ _ => (-22, (3, 4))) true true (by decide)).mpr (.inl ⟨rfl, rfl⟩)

/-- Without an answer the new bytes stay, and the caller is told of a failure. -/
theorem MainState.setValue_unanswered :
    ¬ ∀ (m : MainState) (shmAddr : Nat → Nat) (memSize : Nat) (call : Parameter.Call)
      (write_cb : WriteCallback) (written answered : Bool),
      call.offset + call.buf.length ≤ memSize →
      SetsOrKeeps m (shmAddr call.mainParam) memSize call
        (m.exchange shmAddr write_cb call written answered)
        (m.setValue shmAddr call (m.exchange shmAddr write_cb call written answered)) := by
  intro claim
  have sets := claim ⟨fun _ => 7, fun _ => (1, 2)⟩ (fun _ => 100) 4 ⟨0, 1, [8, 9]⟩
    (fun _ _ => (0, (3, 4))) true false (by decide)
  obtain ⟨same, -⟩ := sets.kept (by decide)
  exact absurd (same 1 (by decide)) (by decide)

end PdServ
