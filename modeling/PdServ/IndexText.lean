import PdServ.HexValue
import PdServ.ParameterRead

/-!
The text of an `index` attribute. `getUnsigned` reads it with `strtoul`, which takes the
number that the text begins with, and keeps 32 bits of it; the parameter is looked up
with what is left.
-/

namespace PdServ

/-! ### Integer numerals -/

/-- The value of a string of digits. -/
def digitsValue (base value : Nat) (digits : List Byte) : Nat :=
  digits.foldl (fun value c => value * base + (digitValue c).getD 0) value

def AllDigits (base : Nat) (digits : List Byte) : Prop :=
  ∀ c ∈ digits, ∃ d, digitValue c = some d ∧ d < base

instance (base : Nat) (digits : List Byte) : Decidable (AllDigits base digits) :=
  decidable_of_iff (∀ c ∈ digits, ((digitValue c).any fun d => d < base) = true) (by
    simp [AllDigits, Option.any_eq_true])

/-- Decimal, octal and hexadecimal constants of C. -/
inductive Constant : List Byte → Nat → Prop
  | decimal {c : Byte} {rest : List Byte} (first : c ≠ Chr.digit0)
      (digits : AllDigits 10 (c :: rest)) : Constant (c :: rest) (digitsValue 10 0 (c :: rest))
  | octal {rest : List Byte} (digits : AllDigits 8 rest) :
      Constant (Chr.digit0 :: rest) (digitsValue 8 0 rest)
  | hexadecimal {x : Byte} {rest : List Byte} (mark : tolower x = 120) (some : rest ≠ [])
      (digits : AllDigits 16 rest) : Constant (Chr.digit0 :: x :: rest) (digitsValue 16 0 rest)

/-- A constant with or without a sign, and nothing else. -/
inductive IntegerNumeral : List Byte → Int → Prop
  | plain {t : List Byte} {n : Nat} (constant : Constant t n) : IntegerNumeral t n
  | plus {t : List Byte} {n : Nat} (constant : Constant t n) : IntegerNumeral (Chr.plus :: t) n
  | minus {t : List Byte} {n : Nat} (constant : Constant t n) : IntegerNumeral (Chr.minus :: t) (-n)

/-- What a text should lead to among so many parameters. -/
def Addresses (t : List Byte) (count : Nat) (addressed : Option Nat) : Prop :=
  (∀ v, IntegerNumeral t v → addressed = if 0 ≤ v ∧ v < count then some v.toNat else none) ∧
    ((∀ v, ¬ IntegerNumeral t v) → addressed = none)

/-! ### The number a text begins with -/

/-- Behind white space; zero, if there is none. -/
def leadingNumber (t : List Byte) : Int :=
  let value := t.dropWhile isspace
  let negative := value.head? == some Chr.minus
  let digits := if negative || value.head? == some Chr.plus then value.drop 1 else value
  let n := readDigits (splitBase digits).1 0 (splitBase digits).2
  if negative then -n else n

/-- What 32 bits keep of it. Numbers that are too large for 64 bits become the largest. -/
def wrapped (v : Int) : Nat := if 2 ^ 64 ≤ v.natAbs then 2 ^ 32 - 1 else (v % 2 ^ 32).toNat

theorem wrapped_lt (v : Int) : wrapped v < 2 ^ 32 := by
  unfold wrapped
  split <;> omega

theorem wrapped_of_lt {v : Int} (positive : 0 ≤ v) (small : v < 2 ^ 32) : wrapped v = v.toNat := by
  unfold wrapped
  rw [if_neg (by omega), Int.emod_eq_of_lt positive small]

/-- `getUnsigned` in terms of that number. -/
theorem strtoul_wrapped (t : List Byte) : strtoul t % 2 ^ 32 = wrapped (leadingNumber t) := by
  simp only [strtoul, leadingNumber]
  generalize readDigits _ 0 _ = n
  unfold wrapped
  cases (t.dropWhile isspace).head? == some Chr.minus with
  | true =>
      simp only [↓reduceIte]
      by_cases large : n ≥ 2 ^ 64
      · rw [if_pos large, if_pos (by omega)]
        rfl
      · rw [if_neg large, if_neg (by omega)]
        omega
  | false =>
      simp only [Bool.false_eq_true, ↓reduceIte]
      by_cases large : n ≥ 2 ^ 64
      · rw [if_pos large, if_pos (by omega)]
        rfl
      · rw [if_neg large, if_neg (by omega)]
        omega

theorem readDigits_all {base : Nat} {digits : List Byte} (value : Nat)
    (all : AllDigits base digits) : readDigits base value digits = digitsValue base value digits := by
  induction digits generalizing value with
  | nil => rfl
  | cons c rest ih =>
      obtain ⟨d, known, small⟩ := all c List.mem_cons_self
      rw [readDigits, known]
      simp only [if_pos small, digitsValue, List.foldl_cons, known, Option.getD_some]
      exact ih _ fun other member => all other (List.mem_cons_of_mem c member)

set_option maxRecDepth 20000 in
theorem isdigit_of_value (c : Byte) : ∀ d ∈ digitValue c, d < 10 → isdigit c = true :=
  Parameter.forall_byte (P := fun c => ∀ d ∈ digitValue c, d < 10 → isdigit c = true)
    (by decide) c

theorem digit_plain (c : Byte) (digit : isdigit c = true) :
    isspace c = false ∧ c ≠ Chr.minus ∧ c ≠ Chr.plus ∧ tolower c ≠ 120 := by
  simp only [isdigit, isspace, tolower, Chr.minus, Chr.plus, Bool.and_eq_true,
    decide_eq_true_eq] at *
  grind

theorem AllDigits.isdigit {base : Nat} {digits : List Byte} (all : AllDigits base digits)
    (small : base ≤ 10) {c : Byte} (member : c ∈ digits) : isdigit c = true := by
  obtain ⟨d, known, below⟩ := all c member
  exact isdigit_of_value c d known (by omega)

/-- The first byte of a constant is a decimal digit. -/
theorem Constant.first {t : List Byte} {n : Nat} (constant : Constant t n) :
    ∃ c rest, t = c :: rest ∧ isdigit c = true := by
  cases constant with
  | decimal first digits => exact ⟨_, _, rfl, digits.isdigit (Nat.le_refl 10) List.mem_cons_self⟩
  | octal digits => exact ⟨_, _, rfl, by decide⟩
  | hexadecimal mark some digits => exact ⟨_, _, rfl, by decide⟩

/-- `strtoul` finds the base of a constant, and reads all of it. -/
theorem Constant.read {t : List Byte} {n : Nat} (constant : Constant t n) :
    readDigits (splitBase t).1 0 (splitBase t).2 = n := by
  cases constant with
  | @decimal c rest first digits =>
      have decimal : splitBase (c :: rest) = (10, c :: rest) := by
        unfold splitBase
        exact if_neg first
      rw [decimal]
      exact readDigits_all 0 digits
  | @octal rest digits =>
      have octal : splitBase (Chr.digit0 :: rest) = (8, Chr.digit0 :: rest) := by
        unfold splitBase
        dsimp only
        rw [if_pos rfl]
        split
        · next x d _ =>
          -- an octal digit does not mark the base
          have plain := digit_plain x (digits.isdigit (by omega) List.mem_cons_self)
          rw [if_neg fun both => plain.2.2.2 both.1]
        · rfl
      rw [octal]
      apply readDigits_all 0
      intro c member
      rcases List.mem_cons.mp member with rfl | later
      · exact ⟨0, rfl, Nat.succ_pos 7⟩
      · exact digits c later
  | @hexadecimal x rest mark some digits =>
      obtain ⟨d, later, rfl⟩ := List.exists_cons_of_ne_nil some
      obtain ⟨v, known, small⟩ := digits d List.mem_cons_self
      have hexadecimal : splitBase (Chr.digit0 :: x :: d :: later) = (16, d :: later) := by
        unfold splitBase
        dsimp only
        rw [if_pos rfl, if_pos ⟨mark, by simpa [known] using small⟩, List.drop_one, List.tail_cons]
      rw [hexadecimal]
      exact readDigits_all 0 digits

theorem IntegerNumeral.leading {t : List Byte} {v : Int} (numeral : IntegerNumeral t v) :
    leadingNumber t = v := by
  cases numeral with
  | plain constant =>
      obtain ⟨c, rest, rfl, digit⟩ := constant.first
      obtain ⟨black, minus, plus, -⟩ := digit_plain c digit
      have read := constant.read
      simp only [leadingNumber, List.dropWhile_cons_of_neg (ne_true_of_eq_false black), List.head?_cons,
        Option.some_beq_some, beq_eq_false_iff_ne.mpr minus, beq_eq_false_iff_ne.mpr plus,
        Bool.or_self, Bool.false_eq_true, ↓reduceIte, read]
  | plus constant =>
      have read := constant.read
      simp [leadingNumber, isspace, Chr.plus, Chr.minus, Chr.space, read]
  | minus constant =>
      have read := constant.read
      simp [leadingNumber, isspace, Chr.plus, Chr.minus, Chr.space, read]

/-! ### The parameter a command leads to -/

/-- `getParameter` of what 32 bits keep of a number. -/
def parameterAt (count : Nat) (v : Int) : Option Nat :=
  if wrapped v < count then some (wrapped v) else none

/-- The text is a numeral below `2 ^ 32`, or what is left of it lies behind the parameters. -/
def Addressable (t : List Byte) (count : Nat) : Prop :=
  (∃ v, IntegerNumeral t v ∧ 0 ≤ v ∧ v < 2 ^ 32) ∨ count ≤ wrapped (leadingNumber t)

theorem parameterAt_iff (t : List Byte) (count : Nat) :
    Addresses t count (parameterAt count (leadingNumber t)) ↔ Addressable t count := by
  have bound := wrapped_lt (leadingNumber t)
  constructor
  · rintro ⟨numeral, other⟩
    unfold parameterAt at numeral other
    by_cases inside : wrapped (leadingNumber t) < count
    · rw [if_pos inside] at numeral other
      by_cases some : ∃ v, IntegerNumeral t v
      · obtain ⟨v, reads⟩ := some
        have addressed := numeral v reads
        by_cases range : 0 ≤ v ∧ v < count
        · rw [if_pos range, Option.some.injEq] at addressed
          exact .inl ⟨v, reads, range.1, by omega⟩
        · rw [if_neg range] at addressed
          cases addressed
      · cases other fun v reads => some ⟨v, reads⟩
    · exact .inr (Nat.le_of_not_lt inside)
  · rintro (⟨v, reads, positive, small⟩ | behind)
    · have keeps := wrapped_of_lt positive small
      have leading := reads.leading
      refine ⟨?_, fun none => absurd reads (none v)⟩
      intro w same
      have equal : w = v := same.leading.symm.trans leading
      subst equal
      rw [leading, parameterAt, keeps]
      by_cases inside : w.toNat < count
      · rw [if_pos inside, if_pos ⟨positive, by omega⟩]
      · rw [if_neg inside, if_neg (by omega)]
    · unfold parameterAt
      rw [if_neg (by omega)]
      refine ⟨?_, fun _ => rfl⟩
      intro v reads
      rw [reads.leading] at behind bound
      -- a number that is in range would be kept as it is
      rw [if_neg]
      rintro ⟨positive, inside⟩
      have keeps := wrapped_of_lt positive (by omega)
      omega

/-- `setXmlAttributes` writes the index, so the reply tells which parameter was meant. -/
theorem Session.readOne_inj {getValue : GetValue} {style : ReadStyle} {server : Server}
    {left right : Option Nat} (hl : ∀ i ∈ left, i < server.parameters.length)
    (hr : ∀ i ∈ right, i < server.parameters.length)
    (same : readOne getValue style server left = readOne getValue style server right) :
    left = right := by
  cases left with
  | none =>
      cases right with
      | none => rfl
      | some j => simp [readOne, List.getElem?_eq_getElem (hr j rfl)] at same
  | some i =>
      cases right with
      | none => simp [readOne, List.getElem?_eq_getElem (hl i rfl)] at same
      | some j =>
          simp only [readOne, List.getElem?_eq_getElem (hl i rfl),
            List.getElem?_eq_getElem (hr j rfl), ReadReply.parameter.injEq,
            Parameter.setXmlAttributes, ParameterElement.mk.injEq] at same
          rw [same.1]

theorem Addresses.lt {t : List Byte} {count : Nat} {addressed : Option Nat}
    (addresses : Addresses t count addressed) : ∀ i ∈ addressed, i < count := by
  intro i found
  obtain rfl : addressed = some i := found
  by_cases some : ∃ v, IntegerNumeral t v
  · obtain ⟨v, reads⟩ := some
    have leads := addresses.1 v reads
    split at leads
    · cases leads
      omega
    · cases leads
  · cases addresses.2 fun v reads => some ⟨v, reads⟩

/-- A command without a name leads to the parameter that its index says, for both commands
exactly when the text is addressable. -/
theorem Server.addressed_iff (server : Server) (find : List Byte → Option Nat)
    (getValue : GetValue) (command : Command) (t : List Byte)
    (unnamed : command.getString (ascii "name") = none)
    (given : command.find (ascii "index") = some (some t)) :
    (Addresses t server.parameters.length (server.addressed find command) ↔
      Addressable t server.parameters.length) ∧
    ((∃ addressed, Addresses t server.parameters.length addressed ∧
        Session.readParameter getValue server find command =
          Session.readOne getValue
            ⟨command.isTrue (ascii "short"), command.isTrue (ascii "hex")⟩ server addressed) ↔
      Addressable t server.parameters.length) := by
  have index : command.getUnsigned (ascii "index") = some (wrapped (leadingNumber t)) := by
    rw [Command.getUnsigned, given, ← strtoul_wrapped]
  have write : server.addressed find command =
      parameterAt server.parameters.length (leadingNumber t) := by
    simp only [Server.addressed, unnamed, index, parameterAt]
  have read : Session.readParameter getValue server find command =
      Session.readOne getValue ⟨command.isTrue (ascii "short"), command.isTrue (ascii "hex")⟩
        server (parameterAt server.parameters.length (leadingNumber t)) := by
    simp only [Session.readParameter, unnamed, index, parameterAt]
  have exactly := parameterAt_iff t server.parameters.length
  rw [write, read]
  refine ⟨exactly, ?_⟩
  rw [← exactly]
  constructor
  · rintro ⟨addressed, addresses, reply⟩
    have here : ∀ i ∈ parameterAt server.parameters.length (leadingNumber t),
        i < server.parameters.length := by
      intro i found
      unfold parameterAt at found
      split at found
      · next inside =>
        cases Option.mem_some_iff.mp found
        exact inside
      · cases found
    rw [Session.readOne_inj here addresses.lt reply]
    exact addresses
  · intro addresses
    exact ⟨_, addresses, rfl⟩

/-- The index of the second parameter. -/
theorem Server.addressed_second :
    Addresses (ascii "1") 2 ((createParameters true [twoBytes (ascii "b")]).addressed
      (fun _ => none) [(ascii "index", some (ascii "1"))]) :=
  (addressed_iff (createParameters true [twoBytes (ascii "b")]) (fun _ => none) twoValues
    [(ascii "index", some (ascii "1"))] (ascii "1") rfl rfl).1.mpr
    (.inl ⟨1, .plain (.decimal (by decide) (by decide)), by decide, by decide⟩)

/-- `4294967296` leads to the first parameter. -/
theorem Server.addressed_wraps :
    ¬ ∀ (server : Server) (find : List Byte → Option Nat) (command : Command) (t : List Byte),
      command.getString (ascii "name") = none → command.find (ascii "index") = some (some t) →
      Addresses t server.parameters.length (server.addressed find command) := by
  intro claim
  have addresses := claim (createParameters true [twoBytes (ascii "b")]) (fun _ => none)
    [(ascii "index", some (ascii "4294967296"))] (ascii "4294967296") rfl rfl
  have leads := addresses.1 4294967296 (.plain (.decimal (by decide) (by decide)))
  revert leads
  decide

end PdServ
