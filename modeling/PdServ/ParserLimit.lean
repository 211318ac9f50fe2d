import PdServ.XmlOverflow
import PdServ.IntegerText
import Mathlib.Algebra.Order.BigOperators.Group.List
import Mathlib.Algebra.Group.Action.Defs
import Mathlib.Tactic.Ring

/-!
The limit that `Session::run` gives its parser, and the longest command that writes a
parameter. The server reckons four characters for each byte of a parameter; the list of
an `int8_t` parameter may need five.
-/

namespace PdServ

/-- The loop of `createParameters`, without `parserbufferlimit`. -/
def maxInputBufferSize (memSizes : List Nat) : Nat :=
  memSizes.foldl (fun most memSize => max most (memSize * 4)) 0

/-- `std::max(server->getMaxInputBufferSize() + 1024UL, 8192UL)` -/
def parserLimit (memSizes : List Nat) : Nat := max (maxInputBufferSize memSizes + 1024) 8192

/-- `<wp index="..." value="..."/>` without its last character -/
def wpStart (index text : List Byte) : List Byte :=
  ascii "<wp index=" ++ Chr.doubleQuote :: index ++ Chr.doubleQuote :: ascii " value=" ++
    Chr.doubleQuote :: text ++ [Chr.doubleQuote, Chr.slash]

def wpCommand (index text : List Byte) : List Byte := wpStart index text ++ [Chr.greaterThan]

namespace XmlParser
open Scan

/-- The size at which the buffer has reached its limit. -/
def capacity (bufMax : Nat) : Nat := (bufMax + (bufIncrement - 1)) / bufIncrement * bufIncrement

/-- No read gives up on the command while more of it is to come, neither in a new session
nor in any other where the parser has begun with it. -/
def PassesThrough (bufMax : Nat) (command : List Byte) : Prop :=
  ∀ earlier part rest s, command = part ++ rest → rest ≠ [] →
    Reached bufMax (earlier ++ part) s → s.Ready →
    (earlier = [] ∨ s.parseState ≠ .FindElementStart ∧ part.length = 1 + (s.inputEnd - s.name)) →
    ∀ sb, (s.read sb).2.overflow = false

/-! ### The size of the buffer -/

/-- What the calls keep of the sizes. -/
structure Measured (bufMax : Nat) (received : List Byte) (s : XmlParser) : Prop where
  limit : s.bufLenMax = bufMax
  steps : bufIncrement ∣ s.bufEnd
  heard : s.data.length ≤ received.length

theorem MakesRoom.measured {bufMax : Nat} {received : List Byte} {s t : XmlParser}
    (measured : Measured bufMax received s) (room : MakesRoom s t) : Measured bufMax received t := by
  obtain ⟨limit, steps, heard⟩ := measured
  have fewer : s.moveData.data.length ≤ received.length :=
    Nat.le_trans (by simp [moveData]) heard
  cases room with
  | shift _ _ => exact ⟨limit, steps, fewer⟩
  | grow _ => exact ⟨limit, Nat.dvd_add steps (Nat.dvd_refl _), fewer⟩
  | reset _ _ _ => exact ⟨limit, steps, Nat.zero_le _⟩
  | stay _ => exact ⟨limit, steps, heard⟩

theorem Reached.measured {bufMax : Nat} {received : List Byte} {s : XmlParser}
    (reached : Reached bufMax received s) : Measured bufMax received s := by
  induction reached with
  | start => exact ⟨rfl, Nat.dvd_zero _, Nat.le_refl _⟩
  | @read received s sb before ready valid ih =>
      rcases read_cases s sb with ⟨-, -, -, reads⟩ | ⟨t, room, reads⟩
      · simp [reads] at valid
      · obtain ⟨limit, steps, heard⟩ := room.measured ih
        rw [reads]
        refine ⟨limit, steps, ?_⟩
        simp only [append, List.length_append]
        omega
  | operatorBool before done ih =>
      obtain ⟨pre, u, a, rel⟩ := before.standing.place
      obtain ⟨kept, -⟩ := operatorBool_rel rel done
      exact ⟨kept.bufLenMax.trans ih.limit, kept.bufEnd ▸ ih.steps, kept.length ▸ ih.heard⟩

theorem capacity_le {bufMax bufEnd : Nat} (steps : bufIncrement ∣ bufEnd) (limit : bufMax ≤ bufEnd) :
    capacity bufMax ≤ bufEnd := by
  obtain ⟨fills, rfl⟩ := steps
  simp only [capacity, bufIncrement] at limit ⊢
  omega

/-- A command that fits into the buffer passes. -/
theorem passesThrough_of_fits {bufMax : Nat} {command : List Byte}
    (fits : command.length ≤ capacity bufMax) : PassesThrough bufMax command := by
  intro earlier part rest s split more reached ready place sb
  by_contra gives
  have overflow := (read_overflow_iff reached.standing sb).mp (by simpa using gives)
  obtain ⟨full, low, limit⟩ := overflow
  obtain ⟨same, steps, heard⟩ := reached.measured
  have large := capacity_le steps (same ▸ limit)
  have proper : part.length < command.length := by
    rw [split, List.length_append]
    exact Nat.lt_add_of_pos_right (List.length_pos_iff.mpr more)
  simp only [inputEnd] at full place
  rcases place with rfl | ⟨-, begun⟩
  · rw [List.nil_append] at heard
    omega
  · omega

/-! ### The command in the buffer -/

theorem run_silent {a b : Scan} {u : List Byte} (silent : run a u = ([], b)) (v : List Byte) :
    run a (u ++ v) = run b v := by
  rw [run_append, silent, List.nil_append]

/-- The command has one `<`, its first character. -/
theorem wpStart_plain {index text : List Byte} (index_plain : ∀ c ∈ index, c ≠ Chr.lessThan)
    (text_plain : ∀ c ∈ text, c ≠ Chr.lessThan) :
    ∃ rest, wpStart index text = Chr.lessThan :: rest ∧ ∀ c ∈ rest, c ≠ Chr.lessThan := by
  have tag : ∀ c ∈ ascii "wp index=", c ≠ Chr.lessThan := by decide
  have name : ∀ c ∈ ascii " value=", c ≠ Chr.lessThan := by decide
  have quote : Chr.doubleQuote ≠ Chr.lessThan := by decide
  have ends : ∀ c ∈ [Chr.doubleQuote, Chr.slash], c ≠ Chr.lessThan := by decide
  refine ⟨ascii "wp index=" ++ Chr.doubleQuote :: index ++ Chr.doubleQuote :: ascii " value=" ++
    Chr.doubleQuote :: text ++ [Chr.doubleQuote, Chr.slash], rfl, ?_⟩
  simp only [List.forall_mem_append, List.forall_mem_cons]
  exact ⟨⟨⟨⟨tag, quote, index_plain⟩, quote, name⟩, quote, text_plain⟩,
    by simpa using ends⟩

/-- The tokenizer has no element before the last character. -/
theorem run_wpStart {index text : List Byte} (index_plain : ∀ c ∈ index, c ≠ Chr.doubleQuote)
    (text_plain : ∀ c ∈ text, c ≠ Chr.doubleQuote) :
    ∃ done, run .text (wpStart index text) = ([], .skipped done) := by
  have first : run .text (ascii "<wp index=" ++ [Chr.doubleQuote]) =
      ([], .quoted Chr.doubleQuote [(ascii "wp", none)] (ascii "index") []) := by decide
  have middle : run (.quoted Chr.doubleQuote [(ascii "wp", none)] (ascii "index") index)
      (Chr.doubleQuote :: ascii " value=" ++ [Chr.doubleQuote]) =
      ([], .quoted Chr.doubleQuote [(ascii "wp", none), (ascii "index", some index)]
        (ascii "value") []) := rfl
  have last : run (.quoted Chr.doubleQuote [(ascii "wp", none), (ascii "index", some index)]
      (ascii "value") text) [Chr.doubleQuote, Chr.slash] =
      ([], .skipped [(ascii "wp", none), (ascii "index", some index),
        (ascii "value", some text)]) := rfl
  have whole : wpStart index text = (ascii "<wp index=" ++ [Chr.doubleQuote]) ++ (index ++
      ((Chr.doubleQuote :: ascii " value=" ++ [Chr.doubleQuote]) ++
        (text ++ [Chr.doubleQuote, Chr.slash]))) := by
    simp [wpStart]
  refine ⟨[(ascii "wp", none), (ascii "index", some index), (ascii "value", some text)], ?_⟩
  rw [whole, run_silent first, run_quoted _ _ _ _ _ _ index_plain, List.nil_append,
    run_silent middle, run_quoted _ _ _ _ _ _ text_plain, List.nil_append, last]

/-- A beginning of a text with one `<`, in front of a rest that leads out of the text
between elements. -/
theorem run_part {part rest : List Byte} {done : List RawAttribute}
    (whole : run .text (part ++ rest) = ([], .skipped done))
    (plain : ∀ c ∈ rest, c ≠ Chr.lessThan) :
    (run .text part).1 = [] ∧ (run .text part).2 ≠ .text := by
  rw [run_append] at whole
  obtain ⟨elements, state⟩ := Prod.mk.inj whole
  refine ⟨(List.append_eq_nil_iff.mp elements).1, fun text => ?_⟩
  have stays := run_text rest [] plain
  rw [List.append_nil] at stays
  rw [text, stays] at state
  cases state

/-- The parser asks for more in the middle of the command, which begins at the start of
the buffer. -/
theorem operatorBool_part {s : XmlParser} {part : List Byte} (rel : Rel True s [] part .text)
    (silent : (run .text part).1 = []) (busy : (run .text part).2 ≠ .text)
    (tail : ∀ c ∈ part.tail, c ≠ Chr.lessThan) (long : 2 < part.length) :
    ∃ t, s.operatorBool = some (false, t) ∧ Kept s t ∧ t.parseState ≠ .FindElementStart ∧
      t.name = 1 := by
  have behind : ∀ i, 0 < i → ∀ c, part[i]? = some c → c ≠ Chr.lessThan := by
    intro i some c found
    refine tail c (List.mem_of_getElem? (i := i - 1) ?_)
    rw [← List.drop_one, List.getElem?_drop, Nat.add_sub_cancel' some]
    exact found
  have data : s.data = part := rel.1.data
  rcases operatorBool_spec rel with ⟨t, halts, kept, -, rest⟩ |
    ⟨t, pre, v, done, -, -, -, finds, -⟩
  · have walk := operatorBool_walk halts
    have began : t.parseState ≠ .FindElementStart := by
      intro start
      rcases rest with ⟨pre, v, b, again, ahead, short⟩ | ⟨pre, done, -, again⟩
      · have text := text_of_start again start
        subst text
        -- What is left is a short end of the part, which does not lead out of the text.
        have unread : v = part.drop t.parsePos := by
          rw [← again.1.unread, walk.ahead, data]
        have few := short rfl
        rw [unread, List.length_drop] at few
        have plain : ∀ c ∈ v, c ≠ Chr.lessThan := by
          intro c member
          rw [unread] at member
          obtain ⟨i, found⟩ := List.mem_iff_getElem?.mp member
          rw [List.getElem?_drop] at found
          exact behind (t.parsePos + i) (by omega) c found
        have stays := run_text v [] plain
        rw [List.append_nil, ahead] at stays
        exact busy (Prod.mk.inj stays).2
      · exact absurd (text_of_start again start) (by simp)
    refine ⟨t, halts, kept, began, ?_⟩
    rcases walk.opened with start | ⟨inside, -⟩ | ⟨low, less, -⟩
    · exact absurd start began
    · exact absurd rel.2 inside
    · rw [data] at less
      by_contra other
      exact behind (t.name - 1) (by omega) _ less rfl
  · rw [finds] at silent
    cases silent

/-! ### A run that overflows -/

/-- The buffer has its full size and little text in it, all of it read. -/
def roomy (bufMax n : Nat) : XmlParser :=
  { skipped bufMax (n + 1) with bufEnd := n + bufIncrement }

theorem operatorBool_roomy (bufMax n : Nat) :
    (roomy bufMax n).operatorBool = some (false, roomy bufMax n) := by
  rw [operatorBool, loop, if_neg (by simp [roomy, skipped, inputEnd])]

theorem read_roomy {bufMax n : Nat} (room : n < bufMax) :
    (skipped bufMax n).read [Chr.space] = (1, { roomy bufMax n with parsePos := n }) := by
  have free : ¬ (skipped bufMax n).bufEnd ≥ (skipped bufMax n).bufLenMax := Nat.not_le.mpr room
  rw [read, if_pos (skipped_full bufMax n), if_neg (by simp [skipped, new]), if_neg free]
  have space : min 1 bufIncrement = 1 := by decide
  simp [sgetn, moveData, roomy, skipped, new, inputEnd, rebase, space, List.replicate_succ']

theorem reached_roomy {bufMax fills : Nat} (room : fills * bufIncrement < bufMax) :
    ∃ received, Reached bufMax received (roomy bufMax (fills * bufIncrement)) := by
  obtain ⟨received, reached⟩ := reached_skipped (Nat.le_of_lt room)
  generalize fills * bufIncrement = n at room reached ⊢
  have reads := read_roomy room
  have valid : ((skipped bufMax n).read [Chr.space]).2.overflow = false := by
    rw [reads]
    rfl
  have next := Reached.read _ reached (.inr (operatorBool_skipped _ _)) valid
  rw [reads] at next
  have drained : operatorBool { roomy bufMax n with parsePos := n } =
      some (false, roomy bufMax n) := by
    rw [operatorBool_text]
    · simp [roomy, skipped, inputEnd]
    · rfl
    · simp [roomy, skipped, inputEnd]
    · have plain : Chr.space ≠ Chr.lessThan := by decide
      simp [unread, roomy, skipped, plain]
  exact ⟨_, .operatorBool next drained⟩

theorem read_roomy_command {bufMax n : Nat} {command : List Byte}
    (long : n + bufIncrement ≤ command.length) :
    (roomy bufMax n).read command = (n + bufIncrement,
      { roomy bufMax n with data := command.take (n + bufIncrement), parsePos := 0 }) := by
  have free : ¬ (roomy bufMax n).bufEnd = (roomy bufMax n).inputEnd := by
    simp [roomy, skipped, inputEnd, bufIncrement]
  have empty : (roomy bufMax n).parseState = .FindElementStart ∧
      (roomy bufMax n).parsePos = (roomy bufMax n).inputEnd := by
    simp [roomy, skipped, new, inputEnd]
  rw [read, if_neg free, if_pos empty]
  simp [sgetn, roomy, inputEnd, Nat.min_eq_right long]

theorem capacity_eq {bufMax : Nat} (some : 0 < bufMax) :
    ∃ fills, fills * bufIncrement < bufMax ∧ bufMax ≤ fills * bufIncrement + bufIncrement ∧
      capacity bufMax = fills * bufIncrement + bufIncrement := by
  refine ⟨(bufMax - 1) / bufIncrement, ?_⟩
  simp only [capacity, bufIncrement]
  omega

/-- A long command overflows where it begins in a buffer of full size. -/
theorem not_passesThrough {bufMax : Nat} {index text : List Byte}
    (index_plain : ∀ c ∈ index, c ≠ Chr.doubleQuote ∧ c ≠ Chr.lessThan)
    (text_plain : ∀ c ∈ text, c ≠ Chr.doubleQuote ∧ c ≠ Chr.lessThan) (some : 0 < bufMax)
    (long : capacity bufMax < (wpCommand index text).length) :
    ¬ PassesThrough bufMax (wpCommand index text) := by
  intro passes
  obtain ⟨fills, room, limit, size⟩ := capacity_eq some
  obtain ⟨received, reached⟩ := reached_roomy room
  generalize fills * bufIncrement = n at room limit size reached
  have step : 2 < bufIncrement := by decide
  have enough : n + bufIncrement ≤ (wpStart index text).length := by
    simp only [wpCommand, List.length_append, List.length_singleton] at long
    omega
  have begins : (wpCommand index text).take (n + bufIncrement) =
      (wpStart index text).take (n + bufIncrement) := by
    rw [wpCommand, List.take_append_of_le_length enough]
  have reads : (roomy bufMax n).read (wpCommand index text) = _ :=
    read_roomy_command (size ▸ Nat.le_of_lt long)
  have split := List.take_append_drop (n + bufIncrement) (wpCommand index text)
  have length : ((wpCommand index text).take (n + bufIncrement)).length = n + bufIncrement := by
    rw [List.length_take_of_le (by omega)]
  -- The part in the buffer is in the middle of the element.
  obtain ⟨done, whole⟩ := run_wpStart (fun c member => (index_plain c member).1)
    (fun c member => (text_plain c member).1)
  obtain ⟨rest, opens, plain⟩ := wpStart_plain (fun c member => (index_plain c member).2)
    (fun c member => (text_plain c member).2)
  have parts := List.take_append_drop (n + bufIncrement) (wpStart index text)
  obtain ⟨more, m⟩ : ∃ m, n + bufIncrement = m + 1 := ⟨n + bufIncrement - 1, by omega⟩
  rw [← parts] at whole
  obtain ⟨silent, busy⟩ := run_part whole (fun c member => by
    rw [opens, m, List.drop_succ_cons] at member
    exact plain c (List.mem_of_mem_drop member))
  have rel : Rel True { roomy bufMax n with
      data := (wpCommand index text).take (n + bufIncrement), parsePos := 0 } []
      ((wpCommand index text).take (n + bufIncrement)) .text := ⟨⟨rfl, rfl⟩, rfl⟩
  rw [← begins] at silent busy
  obtain ⟨t, halts, kept, began, name⟩ := operatorBool_part rel silent busy
    (by
      intro c member
      rw [begins, opens, m, List.take_succ_cons, List.tail_cons] at member
      exact plain c (List.mem_of_mem_take member)) (by omega)
  have valid : ((roomy bufMax n).read (wpCommand index text)).2.overflow = false := by
    rw [reads]
    rfl
  have first := Reached.read _ reached (.inr (operatorBool_roomy _ _)) valid
  rw [reads] at first
  have second := Reached.operatorBool first halts
  have filled : t.inputEnd = n + bufIncrement := by
    rw [inputEnd, kept.length]
    exact length
  have fits := passes received _ _ t split.symm (by
      rw [ne_eq, List.drop_eq_nil_iff]
      omega) second (.inl began) (.inr ⟨began, by omega⟩) []
  have gives := (read_overflow_iff second.standing []).mpr
    ⟨kept.bufEnd.trans filled.symm, by omega, by
      rw [kept.bufLenMax, kept.bufEnd]
      exact limit⟩
  rw [fits] at gives
  cases gives

/-! ### The parameters of a process -/

theorem maxInputBufferSize_ge {memSizes : List Nat} {memSize : Nat} (listed : memSize ∈ memSizes) :
    memSize * 4 ≤ maxInputBufferSize memSizes := by
  have grows : ∀ (list : List Nat) (most : Nat),
      most ≤ list.foldl (fun most memSize => max most (memSize * 4)) most := by
    intro list
    induction list with
    | nil => exact fun most => Nat.le_refl most
    | cons size rest ih => exact fun most => Nat.le_trans (Nat.le_max_left _ _) (ih _)
  have reaches : ∀ (list : List Nat) (most : Nat), memSize ∈ list →
      memSize * 4 ≤ list.foldl (fun most memSize => max most (memSize * 4)) most := by
    intro list
    induction list with
    | nil => exact fun most listed => by cases listed
    | cons size rest ih =>
        intro most listed
        rcases List.mem_cons.mp listed with rfl | inside
        · exact Nat.le_trans (Nat.le_max_right _ _) (grows rest _)
        · exact ih _ inside
  exact reaches memSizes 0 listed

theorem wpCommand_length (index text : List Byte) :
    (wpCommand index text).length = index.length + text.length + 23 := by
  have tag : (ascii "<wp index=").length = 10 := rfl
  have name : (ascii " value=").length = 7 := rfl
  simp only [wpCommand, wpStart, List.length_append, List.length_cons, List.length_nil, tag, name]
  omega

theorem isListed_plain {c : Byte} (listed : isListed c = true) :
    c ≠ Chr.doubleQuote ∧ c ≠ Chr.lessThan := by
  constructor
  · rintro rfl
    exact absurd listed (by decide)
  · rintro rfl
    exact absurd listed (by decide)

/-- Four characters a byte are enough for every type but `int8_t`. -/
theorem wpCommand_fits {kind : Primary} (integer : kind.isInteger = true) (other : kind ≠ .int8)
    {n : Nat} {memSizes : List Nat} (listed : n * kind.size ∈ memSizes) {memory : Memory}
    {data : Nat} {text : List Byte}
    (printed : DataType.printedText kind n memory data = some text) {index : List Byte}
    (few : index.length ≤ 10) :
    (wpCommand index text).length ≤ capacity (parserLimit memSizes) := by
  have short : text.length ≤ n * kind.size * 4 := by
    rcases DataType.printedText_length printed with ⟨-, rfl⟩ | whole
    · exact Nat.zero_le _
    · have each : ∀ length ∈ (List.range n).map fun i => (integerText
          (kind.value (memory.word (data + i * kind.size) kind.size))).length + 1,
          length ≤ 4 * kind.size := by
        intro length member
        obtain ⟨i, -, rfl⟩ := List.mem_map.mp member
        have width := Primary.integerText_width integer
          (memory.word_lt (data + i * kind.size) kind.size)
        have narrow := Primary.width_lt other
        omega
      have sum := List.sum_le_card_nsmul _ _ each
      rw [List.length_map, List.length_range, smul_eq_mul] at sum
      calc text.length ≤ n * (4 * kind.size) := by omega
        _ = n * kind.size * 4 := by ring
  have room := maxInputBufferSize_ge listed
  obtain ⟨fills, -, limit, size⟩ :=
    capacity_eq (show 0 < parserLimit memSizes by simp [parserLimit])
  have wide : maxInputBufferSize memSizes + 1024 ≤ parserLimit memSizes := Nat.le_max_left _ _
  rw [wpCommand_length]
  omega

/-- The command with the text that the server prints for a value of an integer parameter
passes; for `int8_t` this holds exactly as long as it fits into the buffer. -/
theorem passesThrough_iff {kind : Primary} (integer : kind.isInteger = true) (dim : DimType)
    {memSizes : List Nat} (listed : dim.nelem * kind.size ∈ memSizes) {memory : Memory}
    {data : Nat} {text : List Byte}
    (printed : DataType.printedText kind dim.nelem memory data = some text) {index : List Byte}
    (number : ∀ c ∈ index, isdigit c = true) (few : index.length ≤ 10) :
    PassesThrough (parserLimit memSizes) (wpCommand index text) ↔
      (kind = .int8 → (wpCommand index text).length ≤ capacity (parserLimit memSizes)) := by
  constructor
  · intro passes _
    by_contra long
    refine not_passesThrough ?_ ?_ (by simp [parserLimit]) (Nat.lt_of_not_le long) passes
    · intro c member
      exact isListed_plain (by simp [isListed, number c member])
    · intro c member
      exact isListed_plain (DataType.printedText_listed printed c member)
  · intro fits
    apply passesThrough_of_fits
    by_cases bytes : kind = .int8
    · exact fits bytes
    · exact wpCommand_fits integer bytes listed printed few

theorem passesThrough_three : PassesThrough (parserLimit [3])
    (wpCommand (ascii "7") (ascii "-100,-100,-100")) :=
  (passesThrough_iff rfl ⟨[3], DimType.positive_three⟩ (by decide)
    (show DataType.printedText .int8 3 (fun _ => 156) 0 = some (ascii "-100,-100,-100") by
      decide) (by decide) (by decide)).mpr fun _ => by decide

/-- Two thousand values of -100 need more than the buffer. -/
theorem passesThrough_fails :
    ¬ ∀ (kind : Primary) (dim : DimType) (memSizes : List Nat) (memory : Memory) (data : Nat)
      (text index : List Byte), kind.isInteger = true → dim.nelem * kind.size ∈ memSizes →
      DataType.printedText kind dim.nelem memory data = some text →
      (∀ c ∈ index, isdigit c = true) → index.length ≤ 10 →
      PassesThrough (parserLimit memSizes) (wpCommand index text) := by
  intro claim
  have count : (⟨[2000], by decide⟩ : DimType).nelem = 2000 := by decide
  obtain ⟨text, printed⟩ : ∃ text, DataType.printedText .int8 2000 (fun _ => 156) 0 = some text :=
    ⟨_, DataType.printedText_eq .int8 2000 (fun _ => 156) 0⟩
  have length := (DataType.printedText_length printed).resolve_left (by simp)
  have word : ∀ address, Memory.word (fun _ => 156) address 1 = 156 := fun _ => by
    simp [Memory.word, Memory.read, Memory.decode]
  have width : (integerText (Primary.value .int8 156)).length + 1 = 5 := by decide
  simp only [Primary.size, word, width, List.map_const', List.length_range, List.sum_replicate,
    smul_eq_mul] at length
  have passes := claim .int8 ⟨[2000], by decide⟩ [2000] (fun _ => 156) 0 text (ascii "7") rfl
    (by rw [count]; decide) (by rw [count]; exact printed) (by decide) (by decide)
  refine not_passesThrough ?_ ?_ (by decide) ?_ passes
  · decide
  · exact fun c member => isListed_plain (DataType.printedText_listed printed c member)
  · have digit : (ascii "7").length = 1 := rfl
    have limit : capacity (parserLimit [2000]) = 9216 := by decide
    rw [wpCommand_length, digit, limit]
    omega

end XmlParser
end PdServ
