import PdServ.XmlPasses

/-!
A stream delivered in chunks, one per `read`, with `operator bool` called until it
is false after each of them. What is recognised depends on the stream alone, as
long as no chunk border falls where the parser loses its place: behind the text
that follows a closing quote, and where a full buffer is moved while an attribute
without a value is being held.
-/

namespace PdServ
namespace XmlParser
open Scan

variable {lost : Prop}

/-! ### Until `operator bool` is false -/

theorem rank_le (state : ParseState) : rank state ≤ 2 := by
  cases state <;> decide

theorem loop_spec (passes : Nat) {s : XmlParser} {pre u : List Byte} {a : Scan}
    (rel : Rel lost s pre u a) (enough : 3 * u.length + rank s.parseState < passes) :
    (∃ t, loop passes s = some (false, t) ∧ Kept s t ∧ (run a u).1 = [] ∧ Rest lost t (run a u).2) ∨
    ∃ t pre' v done, loop passes s = some (true, t) ∧ Kept s t ∧ Rel lost t pre' v .text ∧
      run a u = (done :: (run .text v).1, (run .text v).2) ∧
      Reads lost t.element done ∧ v.length < u.length := by
  induction passes generalizing s pre u a with
  | zero => omega
  | succ passes ih =>
      have size : s.inputEnd = pre.length + u.length := inputEnd_at rel.1.data
      have pos := rel.1.pos
      by_cases more : u = []
      · subst more
        left
        refine ⟨s, ?_, kept_refl s, rfl, Or.inl ⟨pre, [], a, rel, rfl, by simp⟩⟩
        rw [loop, if_neg (by rw [size, pos]; simp)]
      · have some := List.length_pos_of_ne_nil more
        rw [loop, if_pos (by omega)]
        have spec := pass_spec rel more
        match result : s.pass, spec with
        | .some (.ret false t), ⟨kept, silent, rest⟩ =>
            left
            exact ⟨t, rfl, kept, silent, rest⟩
        | .some (.ret true t), ⟨kept, pre', v, done, after, reads, element, less⟩ =>
            right
            exact ⟨t, pre', v, done, rfl, kept, after, reads, element, less⟩
        | .some (.again t), ⟨kept, pre', v, b, after, reads, less⟩ =>
            have low := rank_le s.parseState
            rcases ih after (by omega) with ⟨r, halts, keep, silent, rest⟩ |
              ⟨r, pre'', w, done, halts, keep, text, finds, element, shorter⟩
            · left
              exact ⟨r, halts, kept_trans kept keep, by rw [reads, silent], by rw [reads]; exact rest⟩
            · right
              exact ⟨r, pre'', w, done, halts, kept_trans kept keep, text, by rw [reads, finds],
                element, by omega⟩

theorem operatorBool_spec {s : XmlParser} {pre u : List Byte} {a : Scan} (rel : Rel lost s pre u a) :
    (∃ t, s.operatorBool = some (false, t) ∧ Kept s t ∧ (run a u).1 = [] ∧
      Rest lost t (run a u).2) ∨
    ∃ t pre' v done, s.operatorBool = some (true, t) ∧ Kept s t ∧ Rel lost t pre' v .text ∧
      run a u = (done :: (run .text v).1, (run .text v).2) ∧
      Reads lost t.element done ∧ v.length < u.length := by
  apply loop_spec _ rel
  have size : s.inputEnd = pre.length + u.length := inputEnd_at rel.1.data
  have low := rank_le s.parseState
  rw [size, rel.1.pos]
  omega

theorem drainLoop_spec (rounds : Nat) {s : XmlParser} {pre u : List Byte} {a : Scan}
    (rel : Rel lost s pre u a) (enough : u.length < rounds) :
    ∃ elements t, drainLoop rounds s = some (elements, t) ∧
      List.Forall₂ (Reads lost) elements (run a u).1 ∧ Kept s t ∧
      Rest lost t (run a u).2 := by
  induction rounds generalizing s pre u a with
  | zero => omega
  | succ rounds ih =>
      rcases operatorBool_spec rel with ⟨t, halts, kept, silent, rest⟩ |
        ⟨t, pre', v, done, halts, kept, text, finds, element, shorter⟩
      · refine ⟨[], t, ?_, ?_, kept, rest⟩
        · simp [drainLoop, halts]
        · rw [silent]
          exact .nil
      · obtain ⟨elements, r, later, read, keep, rest⟩ := ih text (by omega)
        refine ⟨t.element :: elements, r, ?_, ?_, kept_trans kept keep, by rw [finds]; exact rest⟩
        · simp [drainLoop, halts, later]
        · rw [finds]
          exact .cons element read

theorem drain_spec {s : XmlParser} {pre u : List Byte} {a : Scan} (rel : Rel lost s pre u a) :
    ∃ elements t, s.drain = some (elements, t) ∧
      List.Forall₂ (Reads lost) elements (run a u).1 ∧ Kept s t ∧ Rest lost t (run a u).2 := by
  apply drainLoop_spec _ rel
  have size : s.inputEnd = pre.length + u.length := inputEnd_at rel.1.data
  rw [size, rel.1.pos]
  omega

/-! ### Moving a full buffer -/

theorem ended_drop {pre : List Byte} {name i : Nat} {bytes : List Byte} (low : name ≤ i)
    (ended : Ended pre i bytes) : Ended (pre.drop name) (i - name) bytes := by
  obtain ⟨tail, behind⟩ := ended
  refine ⟨tail, ?_⟩
  rw [List.drop_drop, Nat.add_sub_cancel' low, behind]

theorem reaching_drop {pre : List Byte} {name i : Nat} {bytes : List Byte} (low : name ≤ i)
    (reaching : Reaching pre i bytes) : Reaching (pre.drop name) (i - name) bytes := by
  obtain ⟨inside, behind⟩ := reaching
  refine ⟨?_, ?_⟩
  · rw [List.length_drop]
    omega
  · rw [List.drop_drop, Nat.add_sub_cancel' low, behind]

theorem rebase_inBuf {name i : Nat} (low : name ≤ i) :
    rebase name (.inBuf i) = .inBuf (i - name) := by
  simp [rebase, low]

def Valued (attributes : List (CharPtr × CharPtr)) : Prop := ∀ p ∈ attributes, p.2 ≠ .null

theorem attribute_moved {hold keep : Nat → List Byte → Prop} {name : Nat}
    {p : CharPtr × CharPtr} {a : RawAttribute} (valued : lost ∨ p.2 ≠ .null)
    (moves : ∀ i bytes, name ≤ i → hold i bytes → keep (i - name) bytes)
    (h : AttributeAt lost hold name p a) : AttributeAt lost keep 0 (rebase name p.1, rebase name p.2) a := by
  obtain ⟨i, low, first, held, second⟩ := h
  refine ⟨i - name, Nat.zero_le _, by rw [first, rebase_inBuf low], moves i _ low held, ?_⟩
  cases value : a.2 with
  | none =>
      simp only [value] at second
      rcases second with null | ⟨moved, wild⟩
      · rcases valued with moved | some
        · exact .inr ⟨moved, by rw [null]; rfl⟩
        · exact absurd null some
      · exact .inr ⟨moved, by rw [wild]; rfl⟩
  | some bytes =>
      simp only [value] at second
      obtain ⟨j, low', at_value, held'⟩ := second
      exact ⟨j - name, Nat.zero_le _, by simp only [at_value, rebase_inBuf low'],
        moves j _ low' held'⟩

theorem stored_moved {hold keep : Nat → List Byte → Prop} {name : Nat}
    {attributes : List (CharPtr × CharPtr)} {done : List RawAttribute}
    (valued : lost ∨ Valued attributes)
    (moves : ∀ i bytes, name ≤ i → hold i bytes → keep (i - name) bytes)
    (stored : List.Forall₂ (AttributeAt lost hold name) attributes done) :
    List.Forall₂ (AttributeAt lost keep 0)
      (attributes.map fun p => (rebase name p.1, rebase name p.2)) done := by
  induction stored with
  | nil => exact .nil
  | cons head tail ih =>
      apply List.Forall₂.cons
      · exact attribute_moved (valued.imp_right fun all => all _ List.mem_cons_self) moves head
      · exact ih (valued.imp_right fun all p member => all p (List.mem_cons_of_mem _ member))

theorem collected_moved {hold keep : Nat → List Byte → Prop} {name : Nat}
    {attributes : List (CharPtr × CharPtr)} {tls : Bool} {done : List RawAttribute}
    (valued : lost ∨ Valued attributes)
    (moves : ∀ i bytes, name ≤ i → hold i bytes → keep (i - name) bytes)
    (h : Collected lost hold name attributes tls done) :
    Collected lost keep 0 (attributes.map fun p => (rebase name p.1, rebase name p.2)) tls done where
  stored := stored_moved valued moves h.stored
  tag := by
    intro q member
    rw [List.head?_map, Option.mem_def, Option.map_eq_some_iff] at member
    obtain ⟨p, first, rfl⟩ := member
    simp [h.tag p first, rebase_inBuf (Nat.le_refl name)]
  isTls := h.isTls

theorem valueAt_moved {s : XmlParser} {pre : List Byte} {done : List RawAttribute}
    {arg value : List Byte} (valued : lost ∨ Valued s.attributes) (h : ValueAt lost s pre done arg value) :
    ValueAt lost s.moveData (pre.drop s.name) done arg value := by
  obtain ⟨earlier, i, j, shape, collected, low, low', first, ended, reaching⟩ := h
  have before : lost ∨ Valued earlier := by
    refine valued.imp_right fun all p member => ?_
    apply all
    simp [shape, member]
  refine ⟨earlier.map fun p => (rebase s.name p.1, rebase s.name p.2), i - s.name, j - s.name,
    ?_, collected_moved before (fun _ _ => ended_drop) collected, Nat.zero_le _, Nat.zero_le _, ?_,
    ended_drop low ended, reaching_drop low' reaching⟩
  · simp [moveData, shape, rebase_inBuf low, rebase_inBuf low']
  · intro none
    rw [first none]
    exact Nat.sub_self _

/-- Beyond the text between elements, `name` points into what has been read. -/
theorem name_low {s : XmlParser} {pre u : List Byte} {b : Scan} (rel : Rel lost s pre u b)
    (inside : b ≠ .text) : s.name ≤ pre.length := by
  have means := rel.2
  cases b with
  | text => exact absurd rfl inside
  | gap done => exact Nat.le_of_lt means.2.2.1
  | name done arg => exact Nat.le_of_lt (nameAt_low means.2.2 means.2.1)
  | quoted quote done arg value => exact Nat.le_of_lt (valueAt_low means.2.2)
  | unquoted done arg value => exact Nat.le_of_lt (valueAt_low means.2)
  | tlsEnd done =>
      obtain ⟨_, some, collected⟩ := means
      obtain ⟨a, rest, rfl⟩ := List.exists_cons_of_ne_nil some
      have stored := collected.stored
      generalize s.attributes = attributes at stored
      cases stored with
      | cons head tail =>
          obtain ⟨i, low, _, ⟨tail, ended⟩, _⟩ := head
          by_contra beyond
          rw [List.drop_eq_nil_of_le (by omega)] at ended
          simp at ended
  | opened => exact means.elim
  | equals => exact means.elim
  | closed => exact means.elim
  | skipped => exact means.elim
  | slash => exact means.elim
  | tlsReturn => exact means.elim

theorem moveData_rel {s : XmlParser} {pre u : List Byte} {b : Scan} (rel : Rel lost s pre u b)
    (low : s.name ≤ pre.length) (kept : b = .text ∨ lost ∨ Valued s.attributes) :
    Rel lost s.moveData (pre.drop s.name) u b := by
  obtain ⟨cut, means⟩ := rel
  have cut' : At s.moveData (pre.drop s.name) u := by
    constructor
    · simp only [moveData, cut.data]
      rw [List.drop_append_of_le_length low]
    · simp [moveData, cut.pos]
  refine ⟨cut', ?_⟩
  rcases kept with rfl | valued
  · exact means
  cases b with
  | text => exact means
  | gap done =>
      obtain ⟨state, some, lower, gap⟩ := means
      refine ⟨state, some, ?_, ?_⟩
      · simp only [moveData, List.length_drop]
        omega
      · rcases gap with collected | ⟨collected, next⟩
        · exact Or.inl (collected_moved valued (fun _ _ => ended_drop) collected)
        · refine Or.inr ⟨collected_moved valued ?_ collected, next⟩
          intro i bytes above settled
          exact settled.imp (ended_drop above) (reaching_drop above)
  | name done arg =>
      obtain ⟨state, some, collected, i, argument, above, first, reaching⟩ := means
      refine ⟨state, some, collected_moved valued (fun _ _ => ended_drop) collected, i - s.name,
        ?_, Nat.zero_le _, ?_, reaching_drop above reaching⟩
      · simp only [moveData, argument, rebase_inBuf above]
      · rw [← first]
        simp only [moveData]
        omega
  | quoted quote done arg value =>
      exact ⟨means.1, means.2.1, valueAt_moved valued means.2.2⟩
  | unquoted done arg value => exact ⟨means.1, valueAt_moved valued means.2⟩
  | tlsEnd done =>
      exact ⟨means.1, means.2.1, collected_moved valued (fun _ _ => ended_drop) means.2.2⟩
  | opened => exact means.elim
  | equals => exact means.elim
  | closed => exact means.elim
  | skipped => exact means.elim
  | slash => exact means.elim
  | tlsReturn => exact means.elim

theorem append_rel {s : XmlParser} {pre u : List Byte} {b : Scan} (w : List Byte)
    (rel : Rel lost s pre u b) : Rel lost { s with data := s.data ++ w } pre (u ++ w) b := by
  obtain ⟨cut, means⟩ := rel
  refine ⟨⟨by simp [cut.data], cut.pos⟩, ?_⟩
  cases b with
  | gap done =>
      obtain ⟨state, some, lower, gap⟩ := means
      refine ⟨state, some, lower, ?_⟩
      rcases gap with collected | ⟨collected, c, rest, rfl, other⟩
      · exact Or.inl collected
      · exact Or.inr ⟨collected, c, rest ++ w, rfl, other⟩
  | text => exact means
  | name done arg => exact means
  | quoted quote done arg value => exact means
  | unquoted done arg value => exact means
  | tlsEnd done => exact means
  | opened => exact means.elim
  | equals => exact means.elim
  | closed => exact means.elim
  | skipped => exact means.elim
  | slash => exact means.elim
  | tlsReturn => exact means.elim

/-! ### Reading a chunk -/

def skipping : Scan → Bool
  | .skipped _ => true
  | _ => false

/-- The parser keeps its place over this chunk border. Where the buffer is full and
is moved, no attribute without a value is held; and where the text so far ends
inside what is ignored behind a closing quote, the chunk ends it. -/
def KeepsPlace (s : XmlParser) (before chunk : List Byte) : Prop :=
  (s.bufEnd = s.inputEnd → s.parseState = .FindElementStart ∨ Valued s.attributes) ∧
  (skipping (run .text before).2 = true → chunk.head?.any endsValue = true)

/-- The same, but the values of attributes without value may be lost. -/
def Resumes (lost : Prop) (s : XmlParser) (before chunk : List Byte) : Prop :=
  (s.bufEnd = s.inputEnd →
    lost ∨ s.parseState = .FindElementStart ∨ Valued s.attributes) ∧
  (skipping (run .text before).2 = true → chunk.head?.any endsValue = true)

theorem KeepsPlace.resumes {s : XmlParser} {before chunk : List Byte}
    (keeps : KeepsPlace s before chunk) : Resumes lost s before chunk :=
  ⟨fun full => .inr (keeps.1 full), keeps.2⟩

/-- One `read` takes the whole chunk. -/
def Taken (s : XmlParser) (_ chunk : List Byte) : Prop :=
  chunk ≠ [] ∧ (s.read chunk).1 = chunk.length

/-- What holds of a parser between two reads, with the machine in state `a`. -/
structure Between (lost : Prop) (s : XmlParser) (a : Scan) : Prop where
  rest : Rest lost s a
  fits : s.data.length ≤ s.bufEnd
  name : s.name = 0 ∨ s.name + 2 ≤ s.bufEnd

theorem between_new (bufMax : Nat) : Between lost (new bufMax) .text where
  rest := Or.inl ⟨[], [], .text, ⟨⟨rfl, rfl⟩, rfl⟩, rfl, by simp⟩
  fits := Nat.le_refl _
  name := Or.inl rfl

theorem rest_resumes {s : XmlParser} {a : Scan} {chunk : List Byte} (rest : Rest lost s a)
    (ends : skipping a = true → chunk.head?.any endsValue = true) :
    ∃ pre unread b, Rel lost s pre unread b ∧ run b (unread ++ chunk) = run a chunk ∧
      (b = .text → unread.length ≤ 2) := by
  rcases rest with ⟨pre, unread, b, rel, silent, short⟩ | ⟨pre, done, rfl, rel⟩
  · refine ⟨pre, unread, b, rel, ?_, short⟩
    rw [run_append, silent]
    rfl
  · refine ⟨pre, [], .gap done, rel, ?_, by simp⟩
    have closes := ends rfl
    cases chunk with
    | nil => simp at closes
    | cons c chunk =>
        rw [run_skipped_end done c chunk (by simpa using closes)]
        rfl

theorem sgetn_whole {s : XmlParser} {chunk : List Byte} (fits : s.data.length ≤ s.bufEnd)
    (whole : (s.sgetn chunk).1 = chunk.length) :
    (s.sgetn chunk).2 = { s with data := s.data ++ chunk } ∧
      s.data.length + chunk.length ≤ s.bufEnd := by
  simp only [sgetn, inputEnd] at whole ⊢
  have room : chunk.length ≤ s.bufEnd - s.data.length := by omega
  constructor
  · rw [Nat.min_eq_left room, List.take_length]
  · omega

/-- In the text between elements the only parser state is the first one. -/
theorem text_of_start {s : XmlParser} {pre u : List Byte} {b : Scan} (rel : Rel lost s pre u b)
    (start : s.parseState = .FindElementStart) : b = .text := by
  have means := rel.2
  cases b with
  | text => rfl
  | gap done => exact absurd (start.symm.trans means.1) (by decide)
  | name done arg => exact absurd (start.symm.trans means.1) (by decide)
  | quoted quote done arg value => exact absurd (start.symm.trans means.1) (by decide)
  | unquoted done arg value => exact absurd (start.symm.trans means.1) (by decide)
  | tlsEnd done => exact absurd (start.symm.trans means.1) (by decide)
  | opened => exact means.elim
  | equals => exact means.elim
  | closed => exact means.elim
  | skipped => exact means.elim
  | slash => exact means.elim
  | tlsReturn => exact means.elim

theorem read_spec {s : XmlParser} {before chunk : List Byte}
    (between : Between lost s (run .text before).2) (taken : Taken s before chunk)
    (keeps : Resumes lost s before chunk) :
    ∃ pre u b, Rel lost (s.read chunk).2 pre u b ∧
      run b u = run (run .text before).2 chunk ∧
      (s.read chunk).2.data.length ≤ (s.read chunk).2.bufEnd ∧
      ((s.read chunk).2.name = 0 ∨ (s.read chunk).2.name + 2 ≤ (s.read chunk).2.bufEnd) := by
  obtain ⟨some, whole⟩ := taken
  obtain ⟨pre, unread, b, rel, resumes, short⟩ := rest_resumes between.rest keeps.2
  have size : s.inputEnd = pre.length + unread.length := inputEnd_at rel.1.data
  have fits := between.fits
  simp only [read] at whole ⊢
  by_cases full : s.bufEnd = s.inputEnd
  · -- the buffer is full: room has to be made in it
    have low : s.name ≤ pre.length := by
      by_cases text : b = .text
      · have few := short text
        rcases between.name with zero | below <;> omega
      · exact name_low rel text
    have kept : b = .text ∨ lost ∨ Valued s.attributes := by
      rcases keeps.1 full with moved | start | valued
      · exact Or.inr (Or.inl moved)
      · exact Or.inl (text_of_start rel start)
      · exact Or.inr (Or.inr valued)
    have moved := moveData_rel rel low kept
    have shrinks : s.moveData.data.length ≤ s.data.length := by simp [moveData]
    rw [if_pos full] at whole ⊢
    by_cases shift : s.name > 1
    · rw [if_pos shift] at whole ⊢
      -- what is in front of the element is dropped
      have fits' : s.moveData.data.length ≤ s.moveData.bufEnd := by
        exact Nat.le_trans shrinks fits
      obtain ⟨result, room⟩ := sgetn_whole fits' whole
      rw [result]
      refine ⟨_, _, b, append_rel chunk moved, resumes, ?_, Or.inl rfl⟩
      rw [List.length_append]
      exact room
    · rw [if_neg shift] at whole ⊢
      by_cases limit : s.bufEnd ≥ s.bufLenMax
      · rw [if_pos limit] at whole
        exact absurd (List.eq_nil_of_length_eq_zero whole.symm) some
      · rw [if_neg limit] at whole ⊢
        -- there is nothing in front of it, so the buffer grows
        have grown : Rel lost { s.moveData with
            allocated := true, bufEnd := s.bufEnd + bufIncrement } (pre.drop s.name) unread b := by
          exact ⟨⟨moved.1.data, moved.1.pos⟩, moved.2⟩
        have fits' : s.moveData.data.length ≤ s.bufEnd + bufIncrement := by omega
        obtain ⟨result, room⟩ := sgetn_whole fits' whole
        rw [result]
        refine ⟨_, _, b, append_rel chunk grown, resumes, ?_, Or.inl rfl⟩
        rw [List.length_append]
        exact room
  · rw [if_neg full] at whole ⊢
    by_cases empty : s.parseState = .FindElementStart ∧ s.parsePos = s.inputEnd
    · rw [if_pos empty] at whole ⊢
      -- everything has been read: the buffer starts again
      have text := text_of_start rel empty.1
      have none : unread = [] := by
        apply List.eq_nil_of_length_eq_zero
        have here := empty.2
        rw [rel.1.pos, size] at here
        omega
      subst text none
      have reset : Rel lost { s with data := [], parsePos := 0 } [] [] .text :=
        ⟨⟨rfl, rfl⟩, empty.1⟩
      obtain ⟨result, room⟩ := sgetn_whole (Nat.zero_le _) whole
      rw [result]
      refine ⟨_, _, .text, append_rel chunk reset, resumes, ?_, between.name⟩
      rw [List.length_append]
      exact room
    · rw [if_neg empty] at whole ⊢
      obtain ⟨result, room⟩ := sgetn_whole fits whole
      rw [result]
      refine ⟨_, _, b, append_rel chunk rel, resumes, ?_, between.name⟩
      rw [List.length_append]
      exact room

/-! ### A whole delivery -/

/-- The elements recognised in chunks that are delivered one per `read`. -/
def feed : XmlParser → List (List Byte) → Option (List Element)
  | _, [] => some []
  | s, chunk :: rest =>
      match (s.read chunk).2.drain with
      | none => none
      | some (elements, t) => (feed t rest).map (elements ++ ·)

/-- Every `read` of a delivery starts in a parser, behind a text and with a chunk as
the condition says. -/
def EveryRead (condition : XmlParser → List Byte → List Byte → Prop) :
    XmlParser → List Byte → List (List Byte) → Prop
  | _, _, [] => True
  | s, before, chunk :: rest => condition s before chunk ∧
      match (s.read chunk).2.drain with
      | none => True
      | some (_, t) => EveryRead condition t (before ++ chunk) rest

instance (attributes : List (CharPtr × CharPtr)) : Decidable (Valued attributes) :=
  inferInstanceAs (Decidable (∀ p ∈ attributes, p.2 ≠ .null))

instance (s : XmlParser) (before chunk : List Byte) : Decidable (KeepsPlace s before chunk) :=
  inferInstanceAs (Decidable (_ ∧ _))

instance (s : XmlParser) (before chunk : List Byte) : Decidable (Taken s before chunk) :=
  inferInstanceAs (Decidable (_ ∧ _))

instance decidableEveryRead (condition : XmlParser → List Byte → List Byte → Prop)
    [∀ s before chunk, Decidable (condition s before chunk)] :
    ∀ s before chunks, Decidable (EveryRead condition s before chunks)
  | _, _, [] => inferInstanceAs (Decidable True)
  | s, before, chunk :: rest =>
      have : Decidable (match (s.read chunk).2.drain with
          | none => True
          | some (_, t) => EveryRead condition t (before ++ chunk) rest) :=
        match (s.read chunk).2.drain with
        | none => inferInstanceAs (Decidable True)
        | some (_, t) => decidableEveryRead condition t (before ++ chunk) rest
      inferInstanceAs (Decidable (_ ∧ _))

theorem EveryRead.imp {condition condition' : XmlParser → List Byte → List Byte → Prop}
    (weaker : ∀ s before chunk, condition s before chunk → condition' s before chunk)
    {s : XmlParser} {before : List Byte} {chunks : List (List Byte)}
    (every : EveryRead condition s before chunks) : EveryRead condition' s before chunks := by
  induction chunks generalizing s before with
  | nil => trivial
  | cons chunk rest ih =>
      obtain ⟨first, later⟩ := every
      refine ⟨weaker s before chunk first, ?_⟩
      split at later
      · trivial
      · exact ih later

theorem feed_reads (chunks : List (List Byte)) {s : XmlParser} {before : List Byte}
    (between : Between lost s (run .text before).2) (taken : EveryRead Taken s before chunks)
    (keeps : EveryRead (Resumes lost) s before chunks) :
    ∃ elements, feed s chunks = some elements ∧
      List.Forall₂ (Reads lost) elements (run (run .text before).2 chunks.flatten).1 := by
  induction chunks generalizing s before with
  | nil => exact ⟨[], rfl, .nil⟩
  | cons chunk rest ih =>
      obtain ⟨taken, later⟩ := taken
      obtain ⟨keeps, keeps_later⟩ := keeps
      obtain ⟨pre, u, b, rel, reads, fits, name⟩ := read_spec between taken keeps
      obtain ⟨elements, t, drains, found, kept, stops⟩ := drain_spec rel
      rw [drains] at later keeps_later
      rw [reads] at found stops
      have state : (run .text (before ++ chunk)).2 = (run (run .text before).2 chunk).2 := by
        rw [run_append]
      have next : Between lost t (run .text (before ++ chunk)).2 := by
        constructor
        · rw [state]
          exact stops
        · rw [kept.length, kept.bufEnd]
          exact fits
        · rw [kept.bufEnd]
          rcases kept.name with same | low
          · rw [same]
            exact name
          · right
            omega
      obtain ⟨more, rest_fed, found'⟩ := ih next later keeps_later
      rw [state] at found'
      refine ⟨elements ++ more, ?_, ?_⟩
      · rw [feed, drains]
        simp [rest_fed]
      · rw [List.flatten_cons, run_append]
        exact List.rel_append found found'

theorem elements_of_reads {elements : List Element} {dones : List (List RawAttribute)}
    (reads : List.Forall₂ (Reads False) elements dones) : elements = dones.map readElement := by
  induction reads with
  | nil => rfl
  | cons head _ ih => rw [List.map_cons, ← ih, head.eq]

theorem feed_spec (chunks : List (List Byte)) {s : XmlParser} {before : List Byte}
    (between : Between False s (run .text before).2) (taken : EveryRead Taken s before chunks)
    (keeps : EveryRead KeepsPlace s before chunks) :
    feed s chunks = some ((run (run .text before).2 chunks.flatten).1.map readElement) := by
  obtain ⟨elements, fed, reads⟩ := feed_reads chunks between taken
    (keeps.imp fun _ _ _ => KeepsPlace.resumes)
  rw [fed, elements_of_reads reads]

/-- Chunk borders at which the parser keeps its place do not show: any two ways to
deliver a stream give its elements. -/
theorem feed_independent_of_chunks (bufMax : Nat) (first second : List (List Byte))
    (same : first.flatten = second.flatten)
    (taken : EveryRead Taken (new bufMax) [] first)
    (taken' : EveryRead Taken (new bufMax) [] second)
    (keeps : EveryRead KeepsPlace (new bufMax) [] first)
    (keeps' : EveryRead KeepsPlace (new bufMax) [] second) :
    feed (new bufMax) first = feed (new bufMax) second ∧
      feed (new bufMax) first = some (elementsOf first.flatten) := by
  have start : Between False (new bufMax) (run .text []).2 := between_new bufMax
  have one := feed_spec first start taken keeps
  have two := feed_spec second start taken' keeps'
  constructor
  · rw [one, two, same]
  · rw [one, elementsOf]
    rfl

theorem feed_of_split_attribute :
    feed (new 8192) [ascii "<a b=", ascii "\"x\" y/", ascii ">"] =
      feed (new 8192) [ascii "<a b=\"x\" y/>"] ∧
    feed (new 8192) [ascii "<a b=", ascii "\"x\" y/", ascii ">"] =
      some (elementsOf [ascii "<a b=", ascii "\"x\" y/", ascii ">"].flatten) :=
  feed_independent_of_chunks 8192 _ _ (by decide) (by decide) (by decide)
    (by decide) (by decide)

/-- A border behind `"x"y` turns the ignored rest into an attribute. -/
theorem feed_depends_on_chunks :
    ¬ ∀ (bufMax : Nat) (first second : List (List Byte)), first.flatten = second.flatten →
      EveryRead Taken (new bufMax) [] first → EveryRead Taken (new bufMax) [] second →
      feed (new bufMax) first = feed (new bufMax) second := by
  intro claim
  have same := claim 8192 [ascii "<a b=\"x\"yy>"] [ascii "<a b=\"x\"y", ascii "y>"]
    (by decide) (by decide) (by decide)
  exact absurd same (by decide +kernel)

end XmlParser
end PdServ
