import PdServ.XmlReads

/-!
When `read` gives up. The parser is compared with the bytes it has taken from its
stream: what it has still before it is their end, and `name` is one behind the `<`
of the element in progress. Between two elements `name` keeps the place where the
last one was, and the test that protects an element protects whatever is there.
-/

namespace PdServ
namespace XmlParser

/-! ### The passes go forward -/

def Pass.parser : Pass → XmlParser
  | .again s => s
  | .ret _ s => s

/-- Bytes in front of the new position may have been overwritten. -/
structure Onward (s t : XmlParser) : Prop where
  length : t.data.length = s.data.length
  forward : s.parsePos ≤ t.parsePos
  ahead : t.unread = s.data.drop t.parsePos
  name : t.name = s.name

theorem ahead_trans {s t u : XmlParser} (forward : t.parsePos ≤ u.parsePos)
    (first : t.unread = s.data.drop t.parsePos) (second : u.unread = t.data.drop u.parsePos) :
    u.unread = s.data.drop u.parsePos := by
  have later : u.parsePos = t.parsePos + (u.parsePos - t.parsePos) := by omega
  rw [unread] at first
  rw [second, later, ← List.drop_drop, first, List.drop_drop]

theorem Onward.trans {s t u : XmlParser} (first : Onward s t) (second : Onward t u) :
    Onward s u where
  length := second.length.trans first.length
  forward := Nat.le_trans first.forward second.forward
  ahead := ahead_trans second.forward first.ahead second.ahead
  name := second.name.trans first.name

theorem onward_skip {s t : XmlParser} (data : t.data = s.data) (forward : s.parsePos ≤ t.parsePos)
    (name : t.name = s.name) : Onward s t :=
  ⟨by rw [data], forward, by rw [unread, data], name⟩

theorem onward_clobber {s t : XmlParser} (position : Nat)
    (data : t.data = s.data.set position Chr.nul) (behind : position < t.parsePos)
    (forward : s.parsePos ≤ t.parsePos) (name : t.name = s.name) : Onward s t := by
  refine ⟨by rw [data, List.length_set], forward, ?_, name⟩
  rw [unread, data, List.drop_set_of_lt behind]

theorem scan_forward (s : XmlParser) (test : Byte → Bool) (position : Nat) :
    position ≤ s.scan test position := Nat.le_add_right _ _

/-- A scan that ends in the input ends at a byte that fails the test. -/
theorem scan_stops (s : XmlParser) (test : Byte → Bool) (position : Nat)
    (inside : s.scan test position < s.data.length) :
    ∃ c, s.data[s.scan test position]? = some c ∧ test c = false := by
  obtain ⟨w, v, split, taken, -, tail⟩ := span_cases test (s.data.drop position)
  have here : s.data[s.scan test position]? = v[0]? := by
    rw [scan, taken, ← List.getElem?_drop, split, List.getElem?_append_right (Nat.le_refl _),
      Nat.sub_self]
  rcases tail with rfl | ⟨c, rest, rfl, fails⟩
  · rw [List.getElem?_eq_getElem inside] at here
    cases here
  · exact ⟨c, here, fails⟩

theorem findArgumentValue_onward {s : XmlParser} {result : Pass}
    (done : s.findArgumentValue = some result) : Onward s result.parser := by
  simp only [findArgumentValue, Option.bind_eq_bind, Option.bind_eq_some_iff] at done
  obtain ⟨_, _, done⟩ := done
  split at done <;> cases done <;> exact onward_skip rfl (scan_forward s _ _) rfl

theorem findQuotedArgumentValue_onward {s : XmlParser} {result : Pass}
    (done : s.findQuotedArgumentValue = some result) : Onward s result.parser := by
  have forward := scan_forward s (fun c => c != s.quote) s.parsePos
  simp only [findQuotedArgumentValue] at done
  split at done
  · cases done
    exact onward_skip rfl forward rfl
  · refine Onward.trans ?_ (findArgumentValue_onward done)
    exact onward_clobber _ rfl (Nat.lt_succ_self _) (Nat.le_succ_of_le forward) rfl

theorem findArgumentName_onward {s : XmlParser} {result : Pass}
    (done : s.findArgumentName = some result) : Onward s result.parser := by
  have forward := scan_forward s (fun c => !endsName c) s.parsePos
  simp only [findArgumentName, Option.bind_eq_bind, Option.bind_eq_some_iff] at done
  obtain ⟨_, _, done⟩ := done
  split at done
  · cases done
    exact onward_skip rfl forward rfl
  · obtain ⟨c, _, done⟩ := Option.bind_eq_some_iff.mp done
    split at done
    · cases done
      exact onward_skip rfl forward rfl
    · split at done
      · cases done
        exact onward_skip rfl forward rfl
      · obtain ⟨quote, _, done⟩ := Option.bind_eq_some_iff.mp done
        split at done
        · cases done
          exact onward_clobber _ rfl (by simp [Pass.parser]) (Nat.le_add_right_of_le forward) rfl
        · split at done
          · cases done
            exact onward_skip rfl forward rfl
          · refine Onward.trans ?_ (findQuotedArgumentValue_onward done)
            exact onward_clobber _ rfl (by simp) (Nat.le_add_right_of_le forward) rfl

theorem clobberSpaces_onward {s : XmlParser} (inside : s.parsePos < s.data.length) :
    Onward s s.clobberSpaces := by
  have forward := scan_forward s (fun c => c == Chr.space) s.parsePos
  have stops : s.scan (fun c => c == Chr.space) s.parsePos ≤ s.data.length := by
    have fewer := (List.takeWhile_sublist (l := s.data.drop s.parsePos)
      fun c => c == Chr.space).length_le
    rw [List.length_drop] at fewer
    simp only [scan]
    omega
  refine ⟨?_, forward, ?_, rfl⟩
  · simp only [clobberSpaces, List.length_append, List.length_take, List.length_replicate,
      List.length_drop]
    omega
  · have position : (s.data.take s.parsePos ++ List.replicate
        (s.scan (fun c => c == Chr.space) s.parsePos - s.parsePos) Chr.nul).length =
        s.scan (fun c => c == Chr.space) s.parsePos := by
      simp only [List.length_append, List.length_take, List.length_replicate]
      omega
    simp only [unread, clobberSpaces]
    exact List.drop_left' position

theorem inside_of_deref {s : XmlParser} {position : Nat} {c : Byte}
    (here : s.deref position = some c) : position < s.data.length :=
  (List.getElem?_eq_some_iff.mp here).1

theorem findElementEnd_onward {s : XmlParser} {result : Pass}
    (done : s.findElementEnd = some result) : Onward s result.parser := by
  simp only [findElementEnd, Option.bind_eq_bind, Option.bind_eq_some_iff] at done
  obtain ⟨_, here, done⟩ := done
  have skipped := clobberSpaces_onward (inside_of_deref here)
  apply skipped.trans
  generalize s.clobberSpaces = t at done
  split at done
  · cases done
    exact onward_skip rfl (Nat.le_refl _) rfl
  · obtain ⟨c, _, done⟩ := Option.bind_eq_some_iff.mp done
    split at done
    · split at done
      · cases done
        exact onward_skip rfl (Nat.le_refl _) rfl
      · obtain ⟨next, _, done⟩ := Option.bind_eq_some_iff.mp done
        split at done
        · split at done <;> cases done <;>
            exact onward_clobber t.parsePos rfl (by simp [Pass.parser, clobber])
              (by simp [Pass.parser, clobber]) rfl
        · cases done
          exact onward_clobber t.parsePos rfl (by simp [Pass.parser, clobber])
            (by simp [Pass.parser, clobber]) rfl
    · split at done
      · split at done
        · split at done <;> cases done <;>
            exact onward_clobber t.parsePos rfl (by simp [Pass.parser, clobber])
              (by simp [Pass.parser, clobber]) rfl
        · cases done
          exact onward_skip rfl (Nat.le_refl _) rfl
      · refine Onward.trans ?_ (findArgumentName_onward done)
        exact onward_skip rfl (Nat.le_refl _) rfl

theorem findNameEnd_onward {s : XmlParser} {result : Pass}
    (done : s.findNameEnd = some result) : Onward s result.parser := by
  simp only [findNameEnd, Option.bind_eq_bind, Option.bind_eq_some_iff] at done
  obtain ⟨_, _, done⟩ := done
  split at done <;> cases done <;> exact onward_skip rfl (scan_forward s _ _) rfl

theorem findTLSEnd_onward {s : XmlParser} {result : Pass}
    (done : s.findTLSEnd = some result) : Onward s result.parser := by
  simp only [findTLSEnd, Option.bind_eq_bind, Option.bind_eq_some_iff] at done
  obtain ⟨c, _, done⟩ := done
  split at done
  · cases done
    exact onward_skip rfl (Nat.le_refl _) rfl
  · obtain ⟨next, _, done⟩ := Option.bind_eq_some_iff.mp done
    have forward : s.parsePos ≤
        if c = Chr.carriageReturn then s.parsePos + 1 else s.parsePos := by
      split <;> omega
    split at done
    · cases done
      exact onward_skip rfl (Nat.le_succ_of_le forward) rfl
    · cases done
      exact onward_skip rfl forward rfl

/-- The unread input has a `<` and a letter, the latter at `name`. -/
def Opens (s : XmlParser) (name : Nat) : Prop :=
  s.parsePos < name ∧ s.data[name - 1]? = some Chr.lessThan ∧
    ∃ c, s.data[name]? = some c ∧ isalpha c = true

/-- The element in progress behind some passes was already, or has begun in them. -/
structure Walk (s t : XmlParser) : Prop where
  length : t.data.length = s.data.length
  forward : s.parsePos ≤ t.parsePos
  ahead : t.unread = s.data.drop t.parsePos
  opened : t.parseState = .FindElementStart ∨
    (s.parseState ≠ .FindElementStart ∧ t.name = s.name) ∨ s.Opens t.name

theorem Onward.walk {s t : XmlParser} (onward : Onward s t)
    (busy : s.parseState ≠ .FindElementStart) : Walk s t :=
  ⟨onward.length, onward.forward, onward.ahead, .inr (.inl ⟨busy, onward.name⟩)⟩

theorem walk_refl (s : XmlParser) : Walk s s := by
  refine ⟨rfl, Nat.le_refl _, rfl, ?_⟩
  by_cases start : s.parseState = .FindElementStart
  · exact .inl start
  · exact .inr (.inl ⟨start, rfl⟩)

theorem unread_at (s : XmlParser) {i : Nat} (ahead : s.parsePos ≤ i) :
    s.unread[i - s.parsePos]? = s.data[i]? := by
  rw [unread, List.getElem?_drop, Nat.add_sub_cancel' ahead]

theorem Walk.at {s t : XmlParser} (walk : Walk s t) {i : Nat} (ahead : t.parsePos ≤ i) :
    t.data[i]? = s.data[i]? := by
  rw [← unread_at t ahead, walk.ahead, List.getElem?_drop, Nat.add_sub_cancel' ahead]

theorem Walk.trans {s t u : XmlParser} (first : Walk s t) (second : Walk t u) : Walk s u where
  length := second.length.trans first.length
  forward := Nat.le_trans first.forward second.forward
  ahead := ahead_trans second.forward first.ahead second.ahead
  opened := by
    rcases second.opened with start | ⟨busy, same⟩ | ⟨behind, less, c, letter, alpha⟩
    · exact .inl start
    · rw [same]
      rcases first.opened with start | opened
      · exact absurd start busy
      · exact .inr opened
    · refine .inr (.inr ⟨Nat.lt_of_le_of_lt first.forward behind, ?_, c, ?_, alpha⟩)
      · rw [← first.at (by omega)]
        exact less
      · rw [← first.at (by omega)]
        exact letter

theorem findElementStart_walk {s : XmlParser} {result : Pass}
    (start : s.parseState = .FindElementStart) (done : s.findElementStart = some result) :
    Walk s result.parser := by
  have forward := scan_forward s (fun c => c != Chr.lessThan) s.parsePos
  simp only [findElementStart, Option.bind_eq_bind] at done
  split at done
  · cases done
    exact ⟨rfl, forward, rfl, .inl start⟩
  · obtain ⟨c, letter, done⟩ := Option.bind_eq_some_iff.mp done
    split at done
    · cases done
      exact ⟨rfl, Nat.le_succ_of_le forward, rfl, .inl start⟩
    · have onward := findElementEnd_onward done
      have alpha : isalpha c = true := by simpa using ‹¬(!isalpha c) = true›
      refine ⟨onward.length, Nat.le_trans (Nat.le_succ_of_le forward) onward.forward,
        onward.ahead, .inr (.inr ?_)⟩
      rw [onward.name]
      refine ⟨Nat.lt_succ_of_le forward, ?_, c, letter, alpha⟩
      obtain ⟨d, here, fails⟩ := scan_stops s (fun c => c != Chr.lessThan) s.parsePos
        (Nat.lt_of_succ_lt (inside_of_deref letter))
      have less : d = Chr.lessThan := by simpa using fails
      exact here.trans (congrArg some less)

theorem pass_walk {s : XmlParser} {result : Pass} (done : s.pass = some result) :
    Walk s result.parser := by
  cases state : s.parseState with
  | FindElementStart =>
      simp only [pass, state] at done
      exact findElementStart_walk state done
  | FindNameEnd =>
      simp only [pass, state] at done
      exact (findNameEnd_onward done).walk (by simp [state])
  | FindArgumentName =>
      simp only [pass, state] at done
      exact (findArgumentName_onward done).walk (by simp [state])
  | FindQuotedArgumentValue =>
      simp only [pass, state] at done
      exact (findQuotedArgumentValue_onward done).walk (by simp [state])
  | FindArgumentValue =>
      simp only [pass, state] at done
      exact (findArgumentValue_onward done).walk (by simp [state])
  | FindElementEnd =>
      simp only [pass, state] at done
      exact (findElementEnd_onward done).walk (by simp [state])
  | FindTLSEnd =>
      simp only [pass, state] at done
      exact (findTLSEnd_onward done).walk (by simp [state])

theorem loop_walk (passes : Nat) {s t : XmlParser} {result : Bool}
    (done : loop passes s = some (result, t)) : Walk s t := by
  induction passes generalizing s with
  | zero => cases done
  | succ passes ih =>
      rw [loop] at done
      split at done
      · split at done
        · cases done
        next ends =>
          cases done
          exact pass_walk ends
        next again => exact (pass_walk again).trans (ih done)
      · cases done
        exact walk_refl _

theorem operatorBool_walk {s t : XmlParser} {result : Bool}
    (done : s.operatorBool = some (result, t)) : Walk s t := loop_walk _ done

/-! ### The stream behind the buffer -/

/-- Byte `k` of the stream is a `<` in front of a letter. -/
def Opened (received : List Byte) (k : Nat) : Prop :=
  received[k]? = some Chr.lessThan ∧ ∃ c, received[k + 1]? = some c ∧ isalpha c = true

/-- The unread input ends the stream, and so does what the buffer has from `name` on,
where an element is in progress. -/
structure Heard (received : List Byte) (s : XmlParser) : Prop where
  ahead : s.unread <:+ received
  opened : s.parseState ≠ .FindElementStart → ∃ k, Opened received k ∧
    received.length = k + 1 + (s.data.length - s.name)

theorem opened_append {received more : List Byte} {k : Nat} (opened : Opened received k) :
    Opened (received ++ more) k := by
  obtain ⟨less, c, letter, alpha⟩ := opened
  have inside := (List.getElem?_eq_some_iff.mp less).1
  have inside' := (List.getElem?_eq_some_iff.mp letter).1
  refine ⟨?_, c, ?_, alpha⟩
  · rw [List.getElem?_append_left inside]
    exact less
  · rw [List.getElem?_append_left inside']
    exact letter

theorem heard_new (bufMax : Nat) : Heard [] (new bufMax) :=
  ⟨List.nil_suffix, fun busy => absurd rfl busy⟩

theorem suffix_at {received tail : List Byte} (suffix : tail <:+ received) (i : Nat) :
    received[received.length - tail.length + i]? = tail[i]? := by
  obtain ⟨earlier, rfl⟩ := suffix
  rw [List.getElem?_append_right (by simp)]
  simp

theorem Heard.walk {received : List Byte} {s t : XmlParser} (heard : Heard received s)
    (walk : Walk s t) : Heard received t := by
  have later : t.parsePos = s.parsePos + (t.parsePos - s.parsePos) := by
    have forward := walk.forward
    omega
  refine ⟨?_, ?_⟩
  · rw [walk.ahead, later, ← List.drop_drop]
    exact (List.drop_suffix _ _).trans heard.ahead
  · intro busy
    rcases walk.opened with start | ⟨before, same⟩ | ⟨behind, less, c, letter, alpha⟩
    · exact absurd start busy
    · rw [walk.length, same]
      exact heard.opened before
    · have size := heard.ahead.length_le
      have inside := (List.getElem?_eq_some_iff.mp letter).1
      have length : s.unread.length = s.data.length - s.parsePos := List.length_drop
      have at_place : ∀ i, s.parsePos ≤ i → i < s.data.length →
          received[received.length - (s.data.length - i)]? = s.data[i]? := by
        intro i above below
        rw [← unread_at s above, ← suffix_at heard.ahead]
        congr 1
        omega
      refine ⟨received.length - (s.data.length - t.name) - 1, ⟨?_, c, ?_, alpha⟩, ?_⟩
      · rw [← less, ← at_place (t.name - 1) (by omega) (by omega)]
        congr 1
        omega
      · rw [← letter, ← at_place t.name (by omega) inside]
        congr 1
        omega
      · rw [walk.length]
        omega

theorem MakesRoom.behind_name {s t : XmlParser} (busy : s.parseState ≠ .FindElementStart)
    (room : MakesRoom s t) : t.data.length - t.name = s.data.length - s.name := by
  cases room with
  | shift _ _ => simp [moveData]
  | grow _ => simp [XmlParser.grow, moveData]
  | reset _ start _ => exact absurd start busy
  | stay _ => rfl

theorem MakesRoom.name_low {s t : XmlParser} (held : s.Held)
    (busy : s.parseState ≠ .FindElementStart) (room : MakesRoom s t) :
    t.name ≤ t.data.length := by
  cases room with
  | shift _ _ => exact Nat.zero_le _
  | grow _ => exact Nat.zero_le _
  | reset _ start _ => exact absurd start busy
  | stay _ => exact Nat.le_trans held.name held.input

theorem Heard.read {received : List Byte} {s : XmlParser} (heard : Heard received s)
    (standing : Standing s) (ready : s.Ready) (sb : List Byte)
    (valid : (s.read sb).2.overflow = false) :
    Heard (received ++ sb.take (s.read sb).1) (s.read sb).2 := by
  obtain ⟨pre, u, b, rel⟩ := standing.place
  rcases read_cases s sb with ⟨-, -, -, reads⟩ | ⟨t, room, reads⟩
  · simp [reads] at valid
  · obtain ⟨⟨pre', moved⟩, -, -⟩ := room.rel standing rel ready
    have unread := (append_rel (sb.take (min sb.length (t.bufEnd - t.inputEnd))) moved).1.unread
    have before := rel.1.unread
    obtain ⟨earlier, whole⟩ := heard.ahead
    rw [reads]
    refine ⟨⟨earlier, ?_⟩, fun busy => ?_⟩
    · rw [append, unread, ← whole, before, List.append_assoc]
    · have began : s.parseState ≠ .FindElementStart := by
        rw [← room.parseState]
        exact busy
      obtain ⟨k, opened, length⟩ := heard.opened began
      have low := room.name_low (rel.held began) began
      refine ⟨k, opened_append opened, ?_⟩
      have same := room.behind_name began
      simp only [append, List.length_append] at same ⊢
      omega

theorem Reached.heard {bufMax : Nat} {received : List Byte} {s : XmlParser}
    (reached : Reached bufMax received s) : Heard received s := by
  induction reached with
  | start => exact heard_new bufMax
  | read sb before ready valid ih => exact ih.read before.standing ready sb valid
  | operatorBool _ done ih => exact ih.walk (operatorBool_walk done)

/-! ### Giving up -/

/-- The element in progress begins at byte `k` of the stream: the parser is inside it,
or it has still its `<` and its first letter before it. -/
def InProgress (received : List Byte) (s : XmlParser) (k : Nat) : Prop :=
  Opened received k ∧
    (s.parseState ≠ .FindElementStart ∧ received.length = k + 1 + (s.inputEnd - s.name) ∨
      s.parseState = .FindElementStart ∧ s.parsePos + 2 = s.inputEnd ∧ received.length = k + 2)

/-- An overflow is due to an element that needs the whole buffer. -/
def GivesUpRightly (received : List Byte) (s : XmlParser) (sb : List Byte) : Prop :=
  (s.read sb).2.overflow = true → ∃ k, InProgress received s k ∧ s.bufLenMax ≤ received.length - k

/-- Between two elements the buffer is not full at its limit with the last element at
its start, but for a limit that two bytes exceed. -/
def Spared (s : XmlParser) : Prop :=
  s.parseState = .FindElementStart → s.bufEnd = s.inputEnd → s.name ≤ 1 →
    s.bufLenMax ≤ s.bufEnd →
    s.bufLenMax ≤ 2 ∧ ∃ c, isalpha c = true ∧ s.unread = [Chr.lessThan, c]

theorem read_overflow_iff {s : XmlParser} (standing : Standing s) (sb : List Byte) :
    (s.read sb).2.overflow = true ↔
      s.bufEnd = s.inputEnd ∧ s.name ≤ 1 ∧ s.bufLenMax ≤ s.bufEnd := by
  rcases read_cases s sb with ⟨full, low, limit, reads⟩ | ⟨t, room, reads⟩
  · rw [reads]
    exact ⟨fun _ => ⟨full, low, limit⟩, fun _ => rfl⟩
  · have valid : (s.read sb).2.overflow = false := by
      rw [reads]
      exact room.overflow.trans standing.overflow
    rw [valid]
    constructor
    · exact nofun
    · rintro ⟨full, low, limit⟩
      rw [read, if_pos full, if_neg (Nat.not_lt.mpr low), if_pos limit] at valid
      cases valid

/-- An element that fills the buffer has as many bytes as the buffer. -/
theorem inProgress_long {received : List Byte} {s : XmlParser} (heard : Heard received s)
    (held : s.Held) (busy : s.parseState ≠ .FindElementStart) (full : s.bufEnd = s.inputEnd)
    (low : s.name ≤ 1) (limit : s.bufLenMax ≤ s.bufEnd) :
    ∃ k, InProgress received s k ∧ s.bufLenMax ≤ received.length - k := by
  obtain ⟨k, opened, length⟩ := heard.opened busy
  refine ⟨k, ⟨opened, .inl ⟨busy, length⟩⟩, ?_⟩
  have inside := Nat.le_trans held.name held.input
  simp only [inputEnd] at full
  omega

theorem inProgress_pending {received : List Byte} {s : XmlParser} {k : Nat}
    (heard : Heard received s) (start : s.parseState = .FindElementStart)
    (progress : InProgress received s k) :
    received.length = k + 2 ∧ ∃ c, isalpha c = true ∧ s.unread = [Chr.lessThan, c] := by
  obtain ⟨⟨less, c, letter, alpha⟩, ⟨busy, -⟩ | ⟨-, pos, length⟩⟩ := progress
  · exact absurd start busy
  · refine ⟨length, c, alpha, ?_⟩
    have two : s.unread.length = 2 := by
      simp only [unread, List.length_drop, inputEnd] at pos ⊢
      omega
    have first := suffix_at heard.ahead 0
    have second := suffix_at heard.ahead 1
    have place : received.length - s.unread.length + 0 = k := by omega
    have place' : received.length - s.unread.length + 1 = k + 1 := by omega
    rw [place, less] at first
    rw [place', letter] at second
    obtain ⟨a, b, shape⟩ := List.length_eq_two.mp two
    simp only [shape, List.getElem?_cons_zero, List.getElem?_cons_succ,
      Option.some.injEq] at first second
    rw [shape, ← first, ← second]

/-- Every overflow is due to an element in progress that has at least `bufLenMax` bytes,
if and only if the parser is spared. -/
theorem read_givesUpRightly_iff {bufMax : Nat} {received : List Byte} {s : XmlParser}
    (reached : Reached bufMax received s) (sb : List Byte) :
    GivesUpRightly received s sb ↔ Spared s := by
  have standing := reached.standing
  have heard := reached.heard
  rw [GivesUpRightly, read_overflow_iff standing]
  constructor
  · intro rightly start full low limit
    obtain ⟨k, progress, enough⟩ := rightly ⟨full, low, limit⟩
    obtain ⟨length, pending⟩ := inProgress_pending heard start progress
    exact ⟨by omega, pending⟩
  · rintro spared ⟨full, low, limit⟩
    by_cases start : s.parseState = .FindElementStart
    · obtain ⟨small, c, alpha, pending⟩ := spared start full low limit
      obtain ⟨earlier, whole⟩ := heard.ahead
      have pos : s.parsePos + 2 = s.inputEnd := by
        have two := congrArg List.length pending
        simp only [unread, List.length_drop, List.length_cons, List.length_nil] at two
        simp only [inputEnd]
        omega
      have length : received.length = earlier.length + 2 := by
        rw [← whole, pending, List.length_append]
        rfl
      refine ⟨earlier.length, ⟨⟨?_, c, ?_, alpha⟩, .inr ⟨start, pos, length⟩⟩, by omega⟩
      · rw [← whole, pending, List.getElem?_append_right (Nat.le_refl _), Nat.sub_self]
        rfl
      · rw [← whole, pending]
        simp
    · exact inProgress_long heard (standing.held start) start full low limit

theorem read_givesUpRightly_fresh : GivesUpRightly [] (new 8192) (ascii "<ping/>") :=
  (read_givesUpRightly_iff (.start) (ascii "<ping/>")).mpr fun _ _ _ large =>
    absurd large (by decide)

/-- A parser that has skipped `n` bytes of text, all of them still in its buffer. -/
def skipped (bufMax n : Nat) : XmlParser :=
  { new bufMax with
    allocated := n != 0
    bufEnd := n
    data := List.replicate n Chr.space
    parsePos := n }

/-- The loop finds no `<`. -/
theorem operatorBool_text {s : XmlParser} (start : s.parseState = .FindElementStart)
    (more : s.parsePos < s.inputEnd) (plain : ∀ c ∈ s.unread, c ≠ Chr.lessThan) :
    s.operatorBool = some (false, { s with parsePos := s.inputEnd }) := by
  have all : s.unread.takeWhile (fun c => c != Chr.lessThan) = s.unread :=
    List.takeWhile_eq_self_iff.mpr (by simpa using plain)
  have stops : s.scan (fun c => c != Chr.lessThan) s.parsePos = s.inputEnd := by
    rw [scan, ← unread, all, unread, List.length_drop]
    simp only [inputEnd] at more ⊢
    omega
  have ends : s.pass = some (.ret false { s with parsePos := s.inputEnd }) := by
    simp only [pass, start, findElementStart, stops, Option.pure_def, Option.bind_eq_bind]
    rw [if_pos]
    exact Nat.le_add_right s.inputEnd 2
  rw [operatorBool, loop, if_pos more, ends]

theorem skipped_full (bufMax n : Nat) :
    (skipped bufMax n).bufEnd = (skipped bufMax n).inputEnd := by
  simp [skipped, inputEnd]

theorem operatorBool_skipped (bufMax n : Nat) :
    (skipped bufMax n).operatorBool = some (false, skipped bufMax n) := by
  rw [operatorBool, loop, if_neg (by simp [skipped, inputEnd])]

theorem operatorBool_behind {bufMax n k : Nat} (some : 0 < k) :
    operatorBool { skipped bufMax (n + k) with parsePos := n } =
      Option.some (false, skipped bufMax (n + k)) := by
  rw [operatorBool_text]
  · simp [skipped, inputEnd]
  · rfl
  · simp [skipped, inputEnd, some]
  · have plain : Chr.space ≠ Chr.lessThan := by decide
    simp [unread, skipped, plain]

theorem read_skipped {bufMax n : Nat} (room : n < bufMax) :
    (skipped bufMax n).read (List.replicate bufIncrement Chr.space) = (bufIncrement,
      { skipped bufMax (n + bufIncrement) with parsePos := n }) := by
  have free : ¬ (skipped bufMax n).bufEnd ≥ (skipped bufMax n).bufLenMax := Nat.not_le.mpr room
  rw [read, if_pos (skipped_full bufMax n), if_neg (by simp [skipped, new]), if_neg free]
  have some : bufIncrement ≠ 0 := by decide
  simp [sgetn, moveData, skipped, new, inputEnd, rebase, some]

theorem reached_skipped {bufMax fills : Nat} (room : fills * bufIncrement ≤ bufMax) :
    ∃ received, Reached bufMax received (skipped bufMax (fills * bufIncrement)) := by
  induction fills with
  | zero => exact ⟨[], by simpa [skipped, new] using (Reached.start : Reached bufMax [] _)⟩
  | succ fills ih =>
      rw [Nat.succ_mul] at room ⊢
      have some : 0 < bufIncrement := by decide
      obtain ⟨received, reached⟩ := ih (by omega)
      generalize fills * bufIncrement = n at room reached ⊢
      have reads := read_skipped (show n < bufMax by omega)
      have valid : ((skipped bufMax n).read
          (List.replicate bufIncrement Chr.space)).2.overflow = false := by
        rw [reads]
        simp only [skipped, new]
      have next := Reached.read _ reached (.inr (operatorBool_skipped _ _)) valid
      rw [reads] at next
      exact ⟨_, .operatorBool next (operatorBool_behind some)⟩

/-- Text without any element is skipped, and yet it fills the buffer for good. -/
theorem read_gives_up_on_text :
    ¬ ∀ (bufMax : Nat) (received : List Byte) (s : XmlParser), Reached bufMax received s →
      ∀ sb, GivesUpRightly received s sb := by
  intro claim
  obtain ⟨received, reached⟩ := reached_skipped (show 8 * bufIncrement ≤ 8192 by decide)
  have gives := (read_overflow_iff reached.standing []).mpr
    ⟨skipped_full 8192 _, Nat.zero_le _, Nat.le_refl _⟩
  obtain ⟨k, ⟨-, ⟨busy, -⟩ | ⟨-, pending, -⟩⟩, -⟩ := claim 8192 received _ reached [] gives
  · exact busy rfl
  · have full : (skipped 8192 (8 * bufIncrement)).inputEnd =
        (skipped 8192 (8 * bufIncrement)).parsePos := (skipped_full 8192 _).symm
    omega

end XmlParser
end PdServ
