import PdServ.XmlElementForm
import PdServ.XmlAttributes

/-!
What an element weighs. Some of the characters are counted, in the names and values of
an element as in the text it is found in: no element weighs more than the text between
its `<` and its end, and what `getString` makes of a value weighs no more than the
value. So the weight tells elements that a text has room for from those it has not.
-/

namespace PdServ
namespace Scan
open XmlParser

variable (counted : Byte → Bool)

/-- The weight of the attributes of an element. -/
def weight : List RawAttribute → Nat
  | [] => 0
  | a :: rest => a.1.countP counted + (a.2.getD []).countP counted + weight rest

theorem weight_append (done more : List RawAttribute) :
    weight counted (done ++ more) = weight counted done + weight counted more := by
  induction done with
  | nil => simp [weight]
  | cons a rest ih =>
      simp only [List.cons_append, weight, ih]
      omega

/-- The attributes complete in this state, if an element is in progress. -/
def done? : Scan → Option (List RawAttribute)
  | .text => none
  | .opened => none
  | .name done _ => some done
  | .equals done _ => some done
  | .quoted _ done _ _ => some done
  | .unquoted done _ _ => some done
  | .closed done => some done
  | .skipped done => some done
  | .gap done => some done
  | .slash done => some done
  | .tlsEnd done => some done
  | .tlsReturn done => some done

/-- What has been collected of the attribute in progress. -/
def partWeight : Scan → Nat
  | .name _ arg => arg.countP counted
  | .equals _ arg => arg.countP counted
  | .quoted _ _ arg value => arg.countP counted + value.countP counted
  | .unquoted _ arg value => arg.countP counted + value.countP counted
  | _ => 0

def stateWeight (a : Scan) : Nat := weight counted (a.done?.getD []) + partWeight counted a

/-- What one character may add, and the element it may complete. -/
def StepWeighs (limit : Nat) (r : Result) : Prop :=
  stateWeight counted r.1 ≤ limit ∧ ∀ done ∈ r.2, weight counted done ≤ limit

theorem textStep_weighs (limit : Nat) (c : Byte) : StepWeighs counted limit (textStep c) := by
  unfold textStep
  split <;> simp [StepWeighs, stateWeight, done?, partWeight, weight]

theorem finish_weighs (done : List RawAttribute) (limit : Nat)
    (fits : weight counted done ≤ limit) : StepWeighs counted limit (finish done) := by
  unfold finish
  split <;> simp [StepWeighs, stateWeight, done?, partWeight, weight, fits]

theorem gapStep_weighs (done : List RawAttribute) (c : Byte) (limit : Nat)
    (fits : weight counted done + [c].countP counted ≤ limit) :
    StepWeighs counted limit (gapStep done c) := by
  have kept : weight counted done ≤ limit := Nat.le_trans (Nat.le_add_right _ _) fits
  unfold gapStep
  split
  · simp [StepWeighs, stateWeight, done?, partWeight, kept]
  split
  · simp [StepWeighs, stateWeight, done?, partWeight, kept]
  split
  · exact ⟨fits, by simp⟩
  split
  · exact finish_weighs counted done limit kept
  · exact textStep_weighs counted limit c

/-- Every character is collected at most once. -/
theorem step_weighs (a : Scan) (c : Byte) :
    StepWeighs counted (stateWeight counted a + [c].countP counted) (a.step c) := by
  cases a with
  | text => exact textStep_weighs counted _ c
  | opened =>
      simp only [step]
      split
      · simp [StepWeighs, stateWeight, done?, partWeight, weight]
      · exact textStep_weighs counted _ c
  | name done arg =>
      simp only [step]
      split
      · split
        · simp [StepWeighs, stateWeight, done?, partWeight]
        · apply gapStep_weighs
          simp [weight_append, weight, stateWeight, done?, partWeight]
      · simp [StepWeighs, stateWeight, done?, partWeight, List.countP_append, Nat.add_assoc]
  | equals done arg =>
      simp only [step]
      split <;> simp [StepWeighs, stateWeight, done?, partWeight, Nat.add_assoc]
  | quoted quote done arg value =>
      simp only [step]
      split
      · simp [StepWeighs, stateWeight, done?, partWeight, weight_append, weight]
      · simp [StepWeighs, stateWeight, done?, partWeight, List.countP_append, Nat.add_assoc]
  | unquoted done arg value =>
      simp only [step]
      split
      · apply gapStep_weighs
        simp [weight_append, weight, stateWeight, done?, partWeight]
      · simp [StepWeighs, stateWeight, done?, partWeight, List.countP_append, Nat.add_assoc]
  | closed done =>
      simp only [step]
      split
      · exact gapStep_weighs counted done c _ (Nat.le_refl _)
      · simp [StepWeighs, stateWeight, done?, partWeight]
  | skipped done =>
      simp only [step]
      split
      · exact gapStep_weighs counted done c _ (Nat.le_refl _)
      · simp [StepWeighs, stateWeight, done?, partWeight]
  | gap done => exact gapStep_weighs counted done c _ (Nat.le_refl _)
  | slash done =>
      simp only [step]
      split
      · exact finish_weighs counted done _ (Nat.le_add_right _ _)
      · simp [StepWeighs, stateWeight, done?, partWeight, weight]
  | tlsEnd done =>
      simp only [step]
      split
      · simp [StepWeighs, stateWeight, done?, partWeight, weight]
      split
      · simp [StepWeighs, stateWeight, done?, partWeight]
      · exact textStep_weighs counted _ c
  | tlsReturn done =>
      simp only [step]
      split
      · simp [StepWeighs, stateWeight, done?, partWeight, weight]
      · exact textStep_weighs counted _ c

theorem run_weighs (u : List Byte) (a : Scan) :
    ∀ done ∈ (run a u).1, weight counted done ≤ stateWeight counted a + u.countP counted := by
  induction u generalizing a with
  | nil => simp [run]
  | cons c rest ih =>
      intro done found
      obtain ⟨within, emitted⟩ := step_weighs counted a c
      have split : (c :: rest).countP counted = [c].countP counted + rest.countP counted := by
        rw [← List.countP_append]
        rfl
      rw [run_cons] at found
      rcases List.mem_append.mp found with now | later
      · have limit := emitted done (by simpa using now)
        omega
      · have limit := ih (a.step c).1 done later
        omega

/-! ### The element in progress and the next ones -/

/-- The element in progress, if there is one, begins with these attributes. -/
def Begins (base : List RawAttribute) (a : Scan) : Prop :=
  ∃ done, a.done? = some done ∧ base <+: done

/-- A step goes on with the element, ends it, or leaves it for the text. -/
def StepKeeps (base : List RawAttribute) (r : Result) : Prop :=
  (Begins base r.1 ∨ r.1 = .text ∨ r.1 = .opened) ∧ ∀ done ∈ r.2, base <+: done

theorem textStep_keeps (base : List RawAttribute) (c : Byte) : StepKeeps base (textStep c) := by
  unfold textStep
  split <;> simp [StepKeeps]

theorem goesOn_keeps {base done : List RawAttribute} {b : Scan} (known : b.done? = some done)
    (begun : base <+: done) : StepKeeps base (b, none) :=
  ⟨.inl ⟨done, known, begun⟩, by simp⟩

theorem ends_keeps {base done : List RawAttribute} (begun : base <+: done) :
    StepKeeps base (.text, some done) :=
  ⟨.inr (.inl rfl), by simpa using begun⟩

theorem finish_keeps {base done : List RawAttribute} (begun : base <+: done) :
    StepKeeps base (finish done) := by
  unfold finish
  split
  · exact goesOn_keeps rfl begun
  · exact ends_keeps begun

theorem gapStep_keeps {base done : List RawAttribute} (c : Byte) (begun : base <+: done) :
    StepKeeps base (gapStep done c) := by
  unfold gapStep
  split
  · exact goesOn_keeps rfl begun
  split
  · exact goesOn_keeps rfl begun
  split
  · exact goesOn_keeps rfl begun
  split
  · exact finish_keeps begun
  · exact textStep_keeps base c

theorem step_keeps {base : List RawAttribute} {a : Scan} (begins : Begins base a) (c : Byte) :
    StepKeeps base (a.step c) := by
  have starts {done : List RawAttribute} (known : a.done? = some done) : base <+: done := by
    obtain ⟨_, same, begun⟩ := begins
    cases same.symm.trans known
    exact begun
  have longer (more : List RawAttribute) {done : List RawAttribute} (begun : base <+: done) :
      base <+: done ++ more := begun.trans (List.prefix_append _ _)
  cases a with
  | text => exact absurd begins (by simp [Begins, done?])
  | opened => exact absurd begins (by simp [Begins, done?])
  | name done arg =>
      have begun : base <+: done := starts rfl
      simp only [step]
      split
      · split
        · exact goesOn_keeps rfl begun
        · exact gapStep_keeps c (longer _ begun)
      · exact goesOn_keeps rfl begun
  | equals done arg =>
      have begun : base <+: done := starts rfl
      simp only [step]
      split <;> exact goesOn_keeps rfl begun
  | quoted quote done arg value =>
      have begun : base <+: done := starts rfl
      simp only [step]
      split
      · exact goesOn_keeps rfl (longer _ begun)
      · exact goesOn_keeps rfl begun
  | unquoted done arg value =>
      have begun : base <+: done := starts rfl
      simp only [step]
      split
      · exact gapStep_keeps c (longer _ begun)
      · exact goesOn_keeps rfl begun
  | closed done =>
      have begun : base <+: done := starts rfl
      simp only [step]
      split
      · exact gapStep_keeps c begun
      · exact goesOn_keeps rfl begun
  | skipped done =>
      have begun : base <+: done := starts rfl
      simp only [step]
      split
      · exact gapStep_keeps c begun
      · exact goesOn_keeps rfl begun
  | gap done =>
      have begun : base <+: done := starts rfl
      exact gapStep_keeps c begun
  | slash done =>
      have begun : base <+: done := starts rfl
      simp only [step]
      split
      · exact finish_keeps begun
      · -- anything but a `>` drops the element
        exact ⟨.inr (.inl rfl), by simp⟩
  | tlsEnd done =>
      have begun : base <+: done := starts rfl
      simp only [step]
      split
      · exact ends_keeps begun
      split
      · exact goesOn_keeps rfl begun
      · exact textStep_keeps base c
  | tlsReturn done =>
      have begun : base <+: done := starts rfl
      simp only [step]
      split
      · exact ends_keeps begun
      · exact textStep_keeps base c

/-- An element found from here on is the one in progress, or the text from here on has
room for it. -/
theorem run_keeps (u : List Byte) {base : List RawAttribute} {a : Scan} (begins : Begins base a) :
    ∀ done ∈ (run a u).1, base <+: done ∨ weight counted done ≤ u.countP counted := by
  induction u generalizing a with
  | nil => simp [run]
  | cons c rest ih =>
      intro done found
      obtain ⟨next, emitted⟩ := step_keeps begins c
      have fewer : rest.countP counted ≤ (c :: rest).countP counted :=
        (List.sublist_cons_self c rest).countP_le
      -- a state without an element weighs nothing
      have fresh : (a.step c).1 = .text ∨ (a.step c).1 = .opened →
          stateWeight counted (a.step c).1 = 0 := by
        rintro (text | opened)
        · rw [text]
          rfl
        · rw [opened]
          rfl
      rw [run_cons] at found
      rcases List.mem_append.mp found with now | later
      · exact .inl (emitted done (by simpa using now))
      · rcases next with begins | left
        · exact (ih begins done later).imp_right fun limit => Nat.le_trans limit fewer
        · have limit := run_weighs counted rest (a.step c).1 done later
          rw [fresh left, Nat.zero_add] at limit
          exact .inr (Nat.le_trans limit fewer)

end Scan

/-! ### What `getString` makes of a value -/

namespace Command

theorem references_shorten : ∀ r ∈ references, r.2.length = 1 ∧ 4 ≤ r.1.length := by decide

theorem references_find {c : Byte} {rest : List Byte} {r : List Byte × List Byte}
    (found : (references.find? fun r => r.1.isPrefixOf (c :: rest)) = some r) :
    r ∈ references ∧ ∃ behind, c :: rest = r.1 ++ behind ∧ rest.drop (r.1.length - 1) = behind := by
  have listed := List.mem_of_find?_eq_some found
  have fits : r.1.isPrefixOf (c :: rest) = true := by simpa using List.find?_some found
  obtain ⟨behind, same⟩ := List.isPrefixOf_iff_prefix.mp fits
  refine ⟨listed, behind, same.symm, ?_⟩
  obtain ⟨-, long⟩ := references_shorten r listed
  obtain ⟨k, size⟩ : ∃ k, r.1.length = k + 1 := ⟨r.1.length - 1, by omega⟩
  have dropped : (c :: rest).drop r.1.length = behind := by rw [← same, List.drop_left]
  rw [size, List.drop_succ_cons] at dropped
  rw [size]
  exact dropped

theorem unescape_length (left : Nat) (value : List Byte) :
    (unescape left value).length ≤ value.length := by
  induction left generalizing value with
  | zero => simp [unescape]
  | succ left ih =>
      cases value with
      | nil => simp [unescape]
      | cons c rest =>
          simp only [unescape]
          split
          · split
            · next r found =>
              obtain ⟨listed, behind, whole, dropped⟩ := references_find found
              obtain ⟨one, long⟩ := references_shorten r listed
              have later := ih behind
              rw [dropped, whole, List.length_append, List.length_append]
              omega
            · simpa using ih rest
          · simpa using ih rest

theorem references_ampersand {c : Byte} {rest : List Byte} {r : List Byte × List Byte}
    (listed : r ∈ references) (front : r.1 <+: c :: rest) : c = Chr.ampersand := by
  have first : ∀ r ∈ references, r.1.head? = some Chr.ampersand := by decide
  have head := first r listed
  obtain ⟨behind, whole⟩ := front
  cases shape : r.1 with
  | nil => simp [shape] at head
  | cons x text =>
      rw [shape] at head whole
      have same : x = Chr.ampersand := by simpa using head
      rw [← same]
      exact (List.cons.inj whole).1.symm

/-- Without a reference nothing is replaced; with one the value gets shorter. -/
theorem unescape_eq_iff (left : Nat) (value : List Byte) (enough : value.length ≤ left) :
    unescape left value = value ↔ ∀ r ∈ references, ¬ r.1 <:+: value := by
  induction left generalizing value with
  | zero =>
      cases List.eq_nil_of_length_eq_zero (Nat.le_zero.mp enough)
      simp only [unescape, true_iff]
      decide
  | succ left ih =>
      cases value with
      | nil =>
          simp only [unescape, true_iff]
          decide
      | cons c rest =>
          have within : rest.length ≤ left := by simpa using enough
          simp only [unescape]
          cases found : references.find? fun r => r.1.isPrefixOf (c :: rest) with
          | some r =>
              obtain ⟨listed, behind, whole, dropped⟩ := references_find found
              obtain ⟨one, long⟩ := references_shorten r listed
              have ampersand := references_ampersand listed ⟨behind, whole.symm⟩
              have later := unescape_length left behind
              simp only [ampersand, ↓reduceIte, dropped]
              rw [← ampersand]
              constructor
              · -- four characters or more have become one
                intro same
                have size := congrArg List.length (same.trans whole)
                simp only [List.length_append] at size
                omega
              · intro none
                exact absurd ⟨[], behind, by simp [whole]⟩ (none r listed)
          | none =>
              have here : ∀ r ∈ references, ¬ r.1 <+: c :: rest := by
                intro r listed front
                have misses := List.find?_eq_none.mp found r listed
                exact misses (List.isPrefixOf_iff_prefix.mpr front)
              have copied : (if c = Chr.ampersand then c :: unescape left rest
                  else c :: unescape left rest) = c :: unescape left rest := by
                split <;> rfl
              rw [copied, List.cons.injEq, and_iff_right rfl, ih rest within]
              constructor
              · intro none r listed inside
                rcases List.infix_cons_iff.mp inside with front | later
                · exact here r listed front
                · exact none r listed later
              · intro none r listed inside
                exact none r listed (List.infix_cons_iff.mpr (.inr inside))

/-- The characters that a reference stands for are not counted. -/
theorem unescape_weighs (counted : Byte → Bool)
    (special : ∀ r ∈ references, r.2.countP counted = 0) (left : Nat) (value : List Byte) :
    (unescape left value).countP counted ≤ value.countP counted := by
  induction left generalizing value with
  | zero => simp [unescape]
  | succ left ih =>
      cases value with
      | nil => simp [unescape]
      | cons c rest =>
          simp only [unescape]
          split
          · split
            · next r found =>
              obtain ⟨listed, behind, whole, dropped⟩ := references_find found
              have none := special r listed
              have later := ih behind
              rw [dropped, whole, List.countP_append, List.countP_append]
              omega
            · simpa [List.countP_cons] using ih rest
          · simpa [List.countP_cons] using ih rest

/-! ### Looking for an attribute -/

theorem find_of_mem {command : Command} {name : List Byte} {value : Option (List Byte)}
    (member : (name, value) ∈ command) (single : (command.map Prod.fst).Nodup)
    (apart : ∀ n ∈ command.map Prod.fst, strcasecmp name n = true → n = name) :
    command.find name = some value := by
  induction command with
  | nil => cases member
  | cons a rest ih =>
      rw [List.map_cons, List.nodup_cons] at single
      obtain ⟨fresh, single⟩ := single
      rcases List.mem_cons.mp member with rfl | later
      · have self : strcasecmp name name = true := by simp [strcasecmp]
        simp [find, self]
      · have other : strcasecmp name a.1 = false := by
          by_contra same
          have equal := apart a.1 (by simp) (by simpa using same)
          exact fresh (equal ▸ List.mem_map_of_mem later)
        have found := ih later single fun n listed => apart n (List.mem_cons_of_mem _ listed)
        simpa [find, other] using found

theorem find_of_absent {command : Command} {name : List Byte}
    (absent : name ∉ command.map Prod.fst)
    (apart : ∀ n ∈ command.map Prod.fst, strcasecmp name n = true → n = name) :
    command.find name = none := by
  rw [find, Option.map_eq_none_iff, List.find?_eq_none]
  intro a member same
  have listed : a.1 ∈ command.map Prod.fst := List.mem_map_of_mem member
  exact absent (apart a.1 listed same ▸ listed)

end Command

/-! ### Values between double quotes -/

namespace Scan
open XmlParser

variable (counted : Byte → Bool)

/-- An attribute and what is written between its quotes. -/
abbrev Entry := NameForm × List Byte

def Entry.bytes (a : Entry) : List Byte :=
  Chr.space :: (a.1.bytes ++ Chr.equals :: Chr.doubleQuote :: (a.2 ++ [Chr.doubleQuote]))

def Entry.raw (a : Entry) : RawAttribute := (a.1.bytes, some a.2)

def Entry.weight (a : Entry) : Nat := a.1.bytes.countP counted + a.2.countP counted

/-- A value that is not escaped is read up to its first quote. -/
theorem behind_value {done : List RawAttribute} {b : Scan} (behind : Behind done b)
    (name : NameForm) (value rest : List Byte) (quiet : Chr.doubleQuote ∉ value) :
    run b (Chr.space :: (name.bytes ++ Chr.equals :: Chr.doubleQuote ::
      (value ++ Chr.doubleQuote :: rest))) =
      run (.closed (done ++ [(name.bytes, some value)])) rest := by
  have inside : ∀ c ∈ value, c ≠ Chr.doubleQuote := by
    rintro c member rfl
    exact quiet member
  rw [behind_space behind, gap_name, run_cons, run_cons]
  have reads := run_quoted Chr.doubleQuote done name.bytes [] value (Chr.doubleQuote :: rest) inside
  rw [List.nil_append, run_cons (.quoted Chr.doubleQuote done name.bytes value)] at reads
  simpa [step, endsName, isQuote] using reads

theorem behind_entries (entries : List Entry) {done : List RawAttribute} {b : Scan}
    (behind : Behind done b) (quiet : ∀ a ∈ entries, Chr.doubleQuote ∉ a.2) (rest : List Byte) :
    ∃ b', Behind (done ++ entries.map Entry.raw) b' ∧ (isUnquoted b = false → isUnquoted b' = false) ∧
      run b (entries.flatMap Entry.bytes ++ rest) = run b' rest := by
  induction entries generalizing done b with
  | nil => exact ⟨b, by simpa using behind, id, rfl⟩
  | cons a others ih =>
      have value := behind_value behind a.1 a.2 (others.flatMap Entry.bytes ++ rest)
        (quiet a List.mem_cons_self)
      obtain ⟨b', last, closed, reads⟩ := ih (.closed (done ++ [a.raw]))
        fun y member => quiet y (List.mem_cons_of_mem a member)
      refine ⟨b', by simpa using last, fun _ => closed rfl, ?_⟩
      rw [List.flatMap_cons, List.append_assoc, ← reads]
      simpa [Entry.bytes, Entry.raw] using value

theorem countP_bytes (plain : counted Chr.space = false ∧ counted Chr.equals = false ∧
    counted Chr.doubleQuote = false) (entries : List Entry) :
    (entries.flatMap Entry.bytes).countP counted = (entries.map (Entry.weight counted)).sum := by
  obtain ⟨space, equals, quote⟩ := plain
  induction entries with
  | nil => rfl
  | cons a others ih =>
      simp only [List.flatMap_cons, List.countP_append, ih, List.map_cons, List.sum_cons,
        Entry.bytes, Entry.weight, List.countP_cons, List.countP_nil, space, equals, quote]
      simp

/-- What is read for each of these attributes weighs at least as much as was written. -/
theorem weight_ge {entries : List Entry} {read : List RawAttribute}
    (heavier : List.Forall₂ (fun (a : RawAttribute) (y : Entry) =>
      a.1 = y.1.bytes ∧ y.2.countP counted ≤ (a.2.getD []).countP counted) read entries) :
    (entries.map (Entry.weight counted)).sum ≤ weight counted read := by
  induction heavier with
  | nil => exact Nat.le_refl _
  | cons head _ ih =>
      obtain ⟨name, value⟩ := head
      simp only [List.map_cons, List.sum_cons, Entry.weight, weight, name]
      omega

theorem takeWhile_defined {text : List Byte} (defined : Chr.nul ∉ text) :
    text.takeWhile (fun c => c != Chr.nul) = text := by
  rw [List.takeWhile_eq_self_iff]
  intro c member
  rw [bne_iff_ne]
  rintro rfl
  exact defined member

theorem name_defined (name : NameForm) : Chr.nul ∉ name.bytes := fun member =>
  (name_ends name _ member).2 rfl

theorem cutAttribute_raw {y : Entry} (defined : Chr.nul ∉ y.2) : cutAttribute y.raw = y.raw := by
  simp only [cutAttribute, Entry.raw, Option.map_some, takeWhile_defined (name_defined y.1),
    takeWhile_defined defined]

theorem weight_cut (done : List RawAttribute) :
    weight counted (done.map cutAttribute) ≤ weight counted done := by
  induction done with
  | nil => exact Nat.le_refl _
  | cons a rest ih =>
      have name : (a.1.takeWhile fun c => c != Chr.nul).countP counted ≤ a.1.countP counted :=
        (List.takeWhile_sublist _).countP_le
      have value : ((a.2.map fun value => value.takeWhile fun c => c != Chr.nul).getD []).countP
          counted ≤ (a.2.getD []).countP counted := by
        cases a.2 with
        | none => exact Nat.le_refl _
        | some value => exact (List.takeWhile_sublist _).countP_le
      simp only [List.map_cons, weight, cutAttribute]
      omega

/-- The text of an element with these attributes, and what follows them. -/
def entriesText (blanks : Nat) (tag : NameForm) (entries : List Entry) (tail : List Byte) :
    List Byte :=
  List.replicate blanks Chr.space ++
    Chr.lessThan :: (tag.bytes ++ (entries.flatMap Entry.bytes ++ tail))

theorem run_entriesText (blanks : Nat) (tag : NameForm) (entries : List Entry)
    (quiet : ∀ a ∈ entries, Chr.doubleQuote ∉ a.2) (tail : List Byte) :
    ∃ b, Behind ((tag.bytes, none) :: entries.map Entry.raw) b ∧ isUnquoted b = false ∧
      run .text (entriesText blanks tag entries tail) = run b tail := by
  obtain ⟨b, behind, closed, reads⟩ := behind_entries entries (.name [] tag.bytes) quiet tail
  refine ⟨b, behind, closed rfl, ?_⟩
  have outside : ∀ c ∈ List.replicate blanks Chr.space, c ≠ Chr.lessThan := by
    intro c member
    rw [List.eq_of_mem_replicate member]
    decide
  rw [entriesText, run_opening tag _ _ outside, reads]

/-- Where a value holds a quote, the text in front of it and the text behind it. -/
theorem run_quote (blanks : Nat) (tag name : NameForm) (front rest : List Entry)
    (before behind tail : List Byte) (quiet : ∀ a ∈ front, Chr.doubleQuote ∉ a.2)
    (first : Chr.doubleQuote ∉ before) :
    run .text (entriesText blanks tag
      (front ++ (name, before ++ Chr.doubleQuote :: behind) :: rest) tail) =
      run (.closed ((tag.bytes, none) :: front.map Entry.raw ++ [(name.bytes, some before)]))
        (behind ++ Chr.doubleQuote :: (rest.flatMap Entry.bytes ++ tail)) := by
  obtain ⟨b, after, -, reads⟩ := run_entriesText blanks tag front quiet
    (Entry.bytes (name, before ++ Chr.doubleQuote :: behind) ++ (rest.flatMap Entry.bytes ++ tail))
  have value := behind_value after name before
    (behind ++ Chr.doubleQuote :: (rest.flatMap Entry.bytes ++ tail)) first
  rw [← value, entriesText, List.flatMap_append, List.flatMap_cons, List.append_assoc,
    List.append_assoc]
  rw [entriesText] at reads
  rw [reads]
  simp [Entry.bytes]

/-- The value read for a name weighs at least as much as what `getString` makes of it. -/
theorem value_heavier (special : ∀ r ∈ Command.references, r.2.countP counted = 0)
    {command : Command} {name text : List Byte} {value : Option (List Byte)}
    (found : command.find name = some value) (decoded : command.getString name = some text) :
    text.countP counted ≤ (value.getD []).countP counted := by
  rw [Command.getString, found] at decoded
  cases value with
  | none => cases decoded
  | some value =>
      cases decoded
      exact Command.unescape_weighs counted special _ value

theorem aligned {α β : Type} {read : List α} {written : List β} {f : α → List Byte}
    {g : β → List Byte} {agrees : α → β → Prop} (names : read.map f = written.map g)
    (each : ∀ a ∈ read, ∀ y ∈ written, f a = g y → agrees a y) :
    List.Forall₂ (fun a y => f a = g y ∧ agrees a y) read written := by
  induction written generalizing read with
  | nil =>
      rw [List.map_eq_nil_iff.mp names]
      exact .nil
  | cons y written ih =>
      obtain ⟨a, others, rfl, same, names⟩ := List.map_eq_cons_iff.mp names
      refine .cons ⟨same, each a (by simp) y (by simp) same⟩ (ih names ?_)
      intro b later z listed
      exact each b (List.mem_cons_of_mem a later) z (List.mem_cons_of_mem y listed)

/-- Up to its first quote a value is too short. -/
theorem too_short {command : Command} {name : NameForm} {before behind : List Byte}
    (found : command.find name.bytes = some (some before)) :
    command.getString name.bytes ≠ some (before ++ Chr.doubleQuote :: behind) := by
  intro value
  have shorter := Command.unescape_length before.length before
  rw [Command.getString, found] at value
  have size := congrArg List.length (Option.some.inj value)
  rw [List.length_append, List.length_cons] at size
  omega

/-- No element read from such a text has the attributes that were to be written: the one
in progress has too short a value, and for another one there is no room any more. -/
theorem no_room (blanks : Nat) (tag name : NameForm) (front rest : List Entry)
    (before behind tail : List Byte) (quiet : ∀ a ∈ front, Chr.doubleQuote ∉ a.2)
    (first : Chr.doubleQuote ∉ before) (defined : Chr.nul ∉ before)
    (plain : counted Chr.space = false ∧ counted Chr.equals = false ∧
      counted Chr.doubleQuote = false)
    (special : ∀ r ∈ Command.references, r.2.countP counted = 0)
    (tagCounted : 0 < tag.bytes.countP counted) (tailPlain : tail.countP counted = 0)
    {done : List RawAttribute}
    (found : done ∈ (run .text (entriesText blanks tag
      (front ++ (name, before ++ Chr.doubleQuote :: behind) :: rest) tail)).1)
    {command : Command} (cut : command = done.map cutAttribute)
    (names : command.map Prod.fst = tag.bytes ::
      (front ++ (name, before ++ Chr.doubleQuote :: behind) :: rest).map fun a => a.1.bytes)
    (single : (command.map Prod.fst).Nodup)
    (apart : ∀ n ∈ command.map Prod.fst, ∀ k ∈ command.map Prod.fst,
      strcasecmp n k = true → k = n) :
    ¬ ∀ y ∈ (name, before ++ Chr.doubleQuote :: behind) :: rest,
      (y.2.countP counted = 0 ∧ Chr.doubleQuote ∉ y.2) ∨
        command.getString y.1.bytes = some y.2 := by
  intro intended
  have value : command.getString name.bytes = some (before ++ Chr.doubleQuote :: behind) :=
    (intended _ List.mem_cons_self).resolve_left fun none => none.2 (by simp)
  have read (a : RawAttribute) (member : a ∈ command) : command.find a.1 = some a.2 :=
    Command.find_of_mem member single (apart a.1 (List.mem_map_of_mem member))
  rw [run_quote blanks tag name front rest before behind tail quiet first] at found
  have begins : Begins ((tag.bytes, none) :: front.map Entry.raw ++ [(name.bytes, some before)])
      (.closed ((tag.bytes, none) :: front.map Entry.raw ++ [(name.bytes, some before)])) :=
    ⟨_, rfl, List.prefix_refl _⟩
  rcases run_keeps counted _ begins done found with ⟨more, extended⟩ | light
  · -- the value of the element in progress ends at the quote
    have inDone : Entry.raw (name, before) ∈ done := by simp [Entry.raw, ← extended]
    have member : Entry.raw (name, before) ∈ command := by
      rw [cut, ← cutAttribute_raw (y := (name, before)) defined]
      exact List.mem_map_of_mem inDone
    exact too_short (read _ member) value
  · -- a later one would need the characters in front of the quote once more
    have lighter := weight_cut counted done
    rw [← cut] at lighter
    rw [List.map_append, List.map_cons] at names
    obtain ⟨t, others, shape, tagName, behindTag⟩ := List.map_eq_cons_iff.mp names
    obtain ⟨readFront, later, rfl, -, behindFront⟩ := List.map_eq_append_iff.mp behindTag
    obtain ⟨x, readRest, rfl, xName, behindName⟩ := List.map_eq_cons_iff.mp behindFront
    have each : ∀ a ∈ readRest, ∀ y ∈ rest, a.1 = y.1.bytes →
        y.2.countP counted ≤ (a.2.getD []).countP counted := by
      intro a member y listed same
      have here : a ∈ command := by simp [shape, member]
      rcases intended y (List.mem_cons_of_mem _ listed) with none | decoded
      · rw [none.1]
        exact Nat.zero_le _
      · rw [← same] at decoded
        exact value_heavier counted special (read a here) decoded
    have heavier := weight_ge counted (aligned behindName each)
    have here : x ∈ command := by simp [shape]
    rw [← xName] at value
    have held := value_heavier counted special (read x here) value
    obtain ⟨space, equals, quote⟩ := plain
    simp only [shape, List.cons_append, weight, weight_append, tagName, List.countP_append,
      List.countP_cons, quote, countP_bytes counted ⟨space, equals, quote⟩, tailPlain] at *
    omega

end Scan
end PdServ
