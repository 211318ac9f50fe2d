import PdServ.XmlRefinement

/-!
Every pass of `operator bool` keeps its contract. The lemmas follow the switch
from its last fall-through backwards: each state function is used by the one in
front of it.
-/

namespace PdServ
namespace XmlParser
open Scan

variable {lost : Prop}

/-! ### Reading at a cut of the buffer -/

theorem span_cases (test : Byte → Bool) (u : List Byte) :
    ∃ w v, u = w ++ v ∧ u.takeWhile test = w ∧ (∀ c ∈ w, test c = true) ∧
      (v = [] ∨ ∃ c rest, v = c :: rest ∧ test c = false) := by
  induction u with
  | nil => exact ⟨[], [], rfl, rfl, by simp, Or.inl rfl⟩
  | cons c u ih =>
      obtain ⟨w, v, split, taken, inside, tail⟩ := ih
      by_cases hit : test c = true
      · refine ⟨c :: w, v, by simp [split], by simp [hit, taken], ?_, tail⟩
        intro x member
        rcases List.mem_cons.mp member with same | later
        · rw [same]; exact hit
        · exact inside x later
      · exact ⟨[], c :: u, rfl, by simp [hit], by simp, Or.inr ⟨c, u, rfl, by simpa using hit⟩⟩

theorem inputEnd_at {s : XmlParser} {pre u : List Byte} (data : s.data = pre ++ u) :
    s.inputEnd = pre.length + u.length := by
  simp [inputEnd, data]

/-- Before the end of the input there are unread bytes. -/
theorem At.more {s : XmlParser} {pre u : List Byte} (cut : At s pre u)
    (inside : s.parsePos < s.inputEnd) : u ≠ [] := by
  rintro rfl
  rw [inputEnd_at cut.data, cut.pos] at inside
  simp at inside

theorem scan_at {s : XmlParser} {pre u : List Byte} (cut : At s pre u) (test : Byte → Bool) :
    s.scan test s.parsePos = pre.length + (u.takeWhile test).length := by
  simp [scan, cut.data, cut.pos]

theorem deref_at {s : XmlParser} {pre u : List Byte} (data : s.data = pre ++ u) (k : Nat) :
    s.deref (pre.length + k) = u[k]? := by
  rw [deref, data, List.getElem?_append_right (by omega)]
  simp

theorem deref_here {s : XmlParser} {pre rest : List Byte} {c : Byte}
    (cut : At s pre (c :: rest)) : s.deref s.parsePos = some c := by
  simpa [cut.pos] using deref_at cut.data 0

theorem isTls_value (done : List RawAttribute) (arg value : List Byte) :
    isTls (done ++ [(arg, some value)]) = isTls done := by
  cases done with
  | nil => rfl
  | cons a rest => exact isTls_append _ _ (by simp)

theorem not_alpha_of_endsValue {c : Byte} (ends : endsValue c = true) : isalpha c = false := by
  simp only [endsValue, Bool.or_eq_true, beq_iff_eq] at ends
  rcases ends with rfl | rfl <;> decide

theorem not_alpha_of_endsName {c : Byte} (ends : endsName c = true) : isalpha c = false := by
  simp only [endsName, Bool.or_eq_true, beq_iff_eq] at ends
  rcases ends with (((rfl | rfl) | rfl) | rfl) | rfl <;> decide

theorem not_endsName_of_alpha {c : Byte} (letter : isalpha c = true) : endsName c = false := by
  by_contra ends
  rw [not_alpha_of_endsName (by simpa using ends)] at letter
  exact Bool.false_ne_true letter

theorem not_blank_of_alpha {c : Byte} (letter : isalpha c = true) : c ≠ Chr.space := by
  rintro rfl
  exact absurd letter (by decide)

theorem not_slash_of_alpha {c : Byte} (letter : isalpha c = true) : c ≠ Chr.slash := by
  rintro rfl
  exact absurd letter (by decide)

/-- The value of a recorded attribute joins the others. -/
theorem collect_value {s : XmlParser} {pre : List Byte} {done : List RawAttribute}
    {arg value : List Byte} {hold : Nat → List Byte → Prop} (valueAt : ValueAt lost s pre done arg value)
    (keep : ∀ i bytes, Ended pre i bytes → hold i bytes)
    (last : ∀ j, Reaching pre j value → hold j value) :
    Collected lost hold s.name s.attributes s.starttls (done ++ [(arg, some value)]) := by
  obtain ⟨earlier, i, j, shape, collected, low, low', first, ended, reaching⟩ := valueAt
  rw [shape]
  apply collected_push (collected_mono keep collected)
  · exact ⟨i, low, rfl, keep i arg ended, j, low', rfl, last j reaching⟩
  · intro none
    rw [first none]
  · rw [isTls_value, collected.isTls]

/-! ### Behind a value -/

/-- The loop that skips to the next space or `>`. -/
theorem findArgumentValue_at {s : XmlParser} {pre u : List Byte} (cut : At s pre u)
    (more : u ≠ []) :
    s.findArgumentValue = some (
      if (u.takeWhile fun c => !endsValue c).length = u.length then
        .ret false { s with parsePos := pre.length + u.length }
      else .again { s with
        parsePos := pre.length + (u.takeWhile fun c => !endsValue c).length
        parseState := .FindElementEnd }) := by
  obtain ⟨c, rest, rfl⟩ := List.exists_cons_of_ne_nil more
  have same : (fun c : Byte => c != Chr.space && c != Chr.greaterThan) =
      fun c => !endsValue c := by
    funext c
    simp [endsValue, bne]
  have here := deref_here cut
  simp only [findArgumentValue, here, same, scan_at cut, Option.pure_def, Option.bind_eq_bind,
    Option.bind_some]
  have size : XmlParser.inputEnd { s with
      parsePos := pre.length + ((c :: rest).takeWhile fun c => !endsValue c).length } =
      pre.length + (c :: rest).length := inputEnd_at cut.data
  rw [size]
  by_cases all : ((c :: rest).takeWhile fun c => !endsValue c).length = (c :: rest).length
  · simp only [all, ↓reduceIte]
  · rw [if_neg (by omega), if_neg all]

theorem unquoted_pass {s : XmlParser} {pre u : List Byte} {done : List RawAttribute}
    {arg value : List Byte} (rel : Rel lost s pre u (.unquoted done arg value)) (more : u ≠ []) :
    PassSpec lost s (.unquoted done arg value) u (3 * u.length + 2) s.findArgumentValue := by
  obtain ⟨cut, state, valueAt⟩ := rel
  obtain ⟨w, v, split, taken, inside, tail⟩ := span_cases (fun c => !endsValue c) u
  rw [findArgumentValue_at cut more, taken]
  have moved : ∀ t : XmlParser, t.name = s.name → t.attributes = s.attributes →
      t.starttls = s.starttls → ValueAt lost t (pre ++ w) done arg (value ++ w) := by
    intro t name attributes tls
    obtain ⟨earlier, i, j, shape, collected, low, low', first, ended, reaching⟩ := valueAt
    rw [ValueAt, name, attributes, tls]
    exact ⟨earlier, i, j, shape, collected_mono (fun i b => ended_append pre w i b) collected,
      low, low', first, ended_append pre w i arg ended, reaching_append pre w j value reaching⟩
  have reads := run_unquoted done arg value w v (by simpa using inside)
  have length : u.length = w.length + v.length := by simp [split]
  rcases tail with rfl | ⟨c, rest, rfl, ends⟩
  · have all : w = u := by simp [split]
    simp only [all, ↓reduceIte]
    refine pass_waits (pre ++ w) [] (.unquoted done arg (value ++ w))
      ⟨rfl, rfl, rfl, rfl, rfl, Or.inl rfl⟩ ⟨⟨?_, ?_⟩, state, moved _ rfl rfl rfl⟩ ?_ rfl (by simp)
    · simp [cut.data, split]
    · simp [all]
    · rw [split, reads]
  · have part : ¬ w.length = u.length := by simp [length]
    simp only [part, ↓reduceIte]
    have ends' : endsValue c = true := by simpa using ends
    refine ⟨⟨rfl, rfl, rfl, rfl, rfl, Or.inl rfl⟩, pre ++ w, c :: rest,
      .gap (done ++ [(arg, some (value ++ w))]), ⟨⟨?_, ?_⟩, rfl, by simp, ?_, Or.inr ⟨?_, c, rest,
      rfl, not_alpha_of_endsValue ends'⟩⟩, ?_, ?_⟩
    · simp [cut.data, split]
    · simp
    · obtain ⟨_, i, _, _, _, low, _, _, ⟨rest, ended⟩, _⟩ := valueAt
      have inside : i < pre.length := by
        by_contra beyond
        rw [List.drop_eq_nil_of_le (by omega)] at ended
        simp at ended
      simp only [List.length_append]
      omega
    · exact collect_value (moved _ rfl rfl rfl) (fun i b ended => Or.inl ended)
        fun j reaching => Or.inr reaching
    · rw [split, reads]
      simp [run_cons, step, ends']
    · simp only [rank, List.length_cons] at *
      omega

theorem collected_append {s : XmlParser} {pre : List Byte} {done : List RawAttribute}
    (w : List Byte) (h : Collected lost (Ended pre) s.name s.attributes s.starttls done) :
    Collected lost (Ended (pre ++ w)) s.name s.attributes s.starttls done :=
  collected_mono (fun i bytes ended => ended_append pre w i bytes ended) h

/-- The same loop behind a closing quote. The parser state names the gap already,
so that running out of input here loses what was being skipped. -/
theorem closed_pass {s : XmlParser} (pre : List Byte) {u : List Byte} {done : List RawAttribute}
    (cut : At s pre u) (more : u ≠ []) (state : s.parseState = .FindElementEnd)
    (some : done ≠ []) (low : s.name < pre.length)
    (collected : Collected lost (Ended pre) s.name s.attributes s.starttls done) :
    PassSpec lost s (.closed done) u (3 * u.length + 2) s.findArgumentValue := by
  obtain ⟨w, v, split, taken, inside, tail⟩ := span_cases (fun c => !endsValue c) u
  have outside : ∀ c ∈ w, endsValue c = false := by simpa using inside
  rw [findArgumentValue_at cut more, taken]
  have reads : run (.closed done) u = run (if w = [] then .closed done else .skipped done) v := by
    rw [split]
    cases w with
    | nil => rfl
    | cons c w =>
        have head : endsValue c = false := outside c List.mem_cons_self
        have rest := run_skipped done w v fun x member => outside x (List.mem_cons_of_mem c member)
        simp [run_cons, step, head, rest]
  have length : u.length = w.length + v.length := by simp [split]
  have kept := collected_append w collected
  have lower : s.name < (pre ++ w).length := by
    simp only [List.length_append]
    omega
  rcases tail with rfl | ⟨c, rest, rfl, ends⟩
  · have all : w = u := by simp [split]
    have nonempty : w ≠ [] := by rw [all]; exact more
    simp only [nonempty, ↓reduceIte] at reads
    simp only [all, ↓reduceIte]
    refine ⟨⟨rfl, rfl, rfl, rfl, rfl, Or.inl rfl⟩, by rw [reads]; rfl, Or.inr ⟨pre ++ w, done,
      by rw [reads]; rfl, ⟨?_, ?_⟩, state, some, lower, Or.inl kept⟩⟩
    · simp [cut.data, split]
    · simp [all]
  · have part : ¬ w.length = u.length := by simp [length]
    have ends' : endsValue c = true := by simpa using ends
    have reads' : run (.closed done) u = run (.gap done) (c :: rest) := by
      rw [reads]
      by_cases none : w = []
      · rw [if_pos none, run_closed_end done c rest ends']
      · rw [if_neg none, run_skipped_end done c rest ends']
    simp only [part, ↓reduceIte]
    refine ⟨⟨rfl, rfl, rfl, rfl, rfl, Or.inl rfl⟩, pre ++ w, c :: rest, .gap done,
      ⟨⟨?_, ?_⟩, rfl, some, lower, Or.inl kept⟩, reads', ?_⟩
    · simp [cut.data, split]
    · simp
    · simp only [rank, List.length_cons] at *
      omega

/-! ### Inside quotes -/

theorem clobber_at {s : XmlParser} {pre rest : List Byte} {c : Byte}
    (data : s.data = pre ++ c :: rest) :
    (s.clobber pre.length).data = pre ++ Chr.nul :: rest := by
  simp [clobber, data]

theorem valueAt_append {s : XmlParser} {pre : List Byte} {done : List RawAttribute}
    {arg value : List Byte} (w : List Byte) (h : ValueAt lost s pre done arg value) :
    ValueAt lost s (pre ++ w) done arg (value ++ w) := by
  obtain ⟨earlier, i, j, shape, collected, low, low', first, ended, reaching⟩ := h
  exact ⟨earlier, i, j, shape, collected_mono (fun i b => ended_append pre w i b) collected,
    low, low', first, ended_append pre w i arg ended, reaching_append pre w j value reaching⟩

theorem valueAt_low {s : XmlParser} {pre : List Byte} {done : List RawAttribute}
    {arg value : List Byte} (h : ValueAt lost s pre done arg value) : s.name < pre.length := by
  obtain ⟨_, i, _, _, _, low, _, _, ⟨rest, ended⟩, _⟩ := h
  have inside : i < pre.length := by
    by_contra beyond
    rw [List.drop_eq_nil_of_le (by omega)] at ended
    simp at ended
  omega

theorem quoted_pass {s : XmlParser} (pre : List Byte) {u : List Byte} {quote : Byte}
    {done : List RawAttribute} {arg value : List Byte} (cut : At s pre u)
    (state : s.parseState = .FindQuotedArgumentValue) (delimiter : s.quote = quote)
    (valueAt : ValueAt lost s pre done arg value) :
    PassSpec lost s (.quoted quote done arg value) u (3 * u.length + 2)
      s.findQuotedArgumentValue := by
  obtain ⟨w, v, split, taken, inside, tail⟩ := span_cases (fun c => c != quote) u
  have reads := run_quoted quote done arg value w v (by simpa using inside)
  have position : s.scan (fun c => c != s.quote) s.parsePos = (pre ++ w).length := by
    rw [delimiter, scan_at cut, taken, List.length_append]
  have data : s.data = (pre ++ w) ++ v := by rw [cut.data, split, List.append_assoc]
  have size : XmlParser.inputEnd { s with parsePos := (pre ++ w).length } =
      (pre ++ w).length + v.length := inputEnd_at data
  have moved := valueAt_append w valueAt
  simp only [findQuotedArgumentValue, position, size]
  rcases tail with rfl | ⟨c, rest, rfl, ends⟩
  · rw [if_pos (by simp)]
    refine pass_waits (pre ++ w) [] (.quoted quote done arg (value ++ w))
      ⟨rfl, rfl, rfl, rfl, rfl, Or.inl rfl⟩ ⟨⟨data, rfl⟩, state, delimiter, moved⟩ ?_ rfl (by simp)
    rw [split, reads]
  · have close : c = quote := by simpa using ends
    cases rest with
    | nil =>
        rw [if_pos (by simp)]
        refine pass_waits (pre ++ w) [c] (.quoted quote done arg (value ++ w))
          ⟨rfl, rfl, rfl, rfl, rfl, Or.inl rfl⟩ ⟨⟨data, rfl⟩, state, delimiter, moved⟩ ?_ ?_ (by simp)
        · rw [split, reads]
        · simp [run, step, close]
    | cons d rest =>
        rw [if_neg (by simp)]
        have ended : ∀ j bytes, Settled (pre ++ w) j bytes →
            Ended (pre ++ w ++ [Chr.nul]) j bytes := settled_ends (pre ++ w) []
        have collected := collect_value moved
          (fun i bytes h => ended i bytes (Or.inl h)) (fun j h => ended j _ (Or.inr h))
        refine pass_spec_of (b := .closed (done ++ [(arg, some (value ++ w))]))
          (v := d :: rest) ?_ ?_ ?_ ?_ (closed_pass (pre ++ w ++ [Chr.nul]) ?_ ?_ ?_ ?_ ?_
          ?_)
        · exact ⟨rfl, rfl, rfl, rfl, by simp [clobber], Or.inl rfl⟩
        · rw [split, reads, run_cons]
          simp [step, close]
        · simp only [split, List.length_append, List.length_cons]
          omega
        · simp only [split, List.length_append, List.length_cons]
          omega
        · refine ⟨?_, by simp [Nat.add_assoc]⟩
          have overwritten := clobber_at (s := { s with parsePos := (pre ++ w).length }) data
          simpa using overwritten
        · simp
        · rfl
        · simp
        · have low := valueAt_low moved
          simp only [List.length_append, List.length_singleton] at low ⊢
          exact Nat.lt_succ_of_lt low
        · exact collected

/-! ### Attribute names -/

/-- Comparing the first bytes does not look beyond a delimiter. -/
theorem take_before_delimiter (pattern w rest : List Byte) (c : Byte) (foreign : c ∉ pattern) :
    (w ++ c :: rest).take pattern.length = pattern ↔ w.take pattern.length = pattern := by
  by_cases long : pattern.length ≤ w.length
  · rw [List.take_append_of_le_length long]
  · constructor
    · intro same
      have member : c ∈ (w ++ c :: rest).take pattern.length := by
        rw [List.take_append, List.mem_append]
        obtain ⟨k, size⟩ : ∃ k, pattern.length - w.length = k + 1 :=
          ⟨pattern.length - w.length - 1, by omega⟩
        right
        simp [size]
      rw [same] at member
      exact absurd member foreign
    · intro same
      have short := congrArg List.length same
      simp only [List.length_take] at short
      omega

theorem not_in_starttls {c : Byte} (ends : endsName c = true) : c ∉ ascii "starttls" := by
  intro member
  have letters : ∀ x ∈ ascii "starttls", isalpha x = true := by decide
  have letter := letters c member
  rw [not_alpha_of_endsName ends] at letter
  exact Bool.false_ne_true letter

theorem nameAt_append {s : XmlParser} {pre : List Byte} {done : List RawAttribute}
    {arg : List Byte} (w : List Byte) (h : NameAt lost s pre done arg) :
    NameAt lost s (pre ++ w) done (arg ++ w) := by
  obtain ⟨collected, i, argument, low, first, reaching⟩ := h
  exact ⟨collected_append w collected, i, argument, low, first,
    reaching_append pre w i arg reaching⟩

/-- Only the tag decides about `starttls`, and only if it has no value. -/
theorem startsTls_at {s : XmlParser} {pre rest : List Byte} {c : Byte}
    {done : List RawAttribute} {arg : List Byte} (data : s.data = pre ++ c :: rest)
    (nameAt : NameAt lost s pre done arg) (ends : endsName c = true) :
    (if s.argument = .inBuf s.name then s.startsTls else s.starttls) =
      isTls (done ++ [(arg, none)]) := by
  obtain ⟨collected, i, argument, low, first, inside, reaching⟩ := nameAt
  by_cases tag : done = []
  · have same : i = s.name := first.mpr tag
    subst same
    rw [if_pos argument, startsTls, data, List.drop_append_of_le_length inside, reaching, tag]
    have compare := take_before_delimiter (ascii "starttls") arg rest c (not_in_starttls ends)
    have eight : (ascii "starttls").length = 8 := by decide
    rw [eight] at compare
    rw [Bool.eq_iff_iff]
    simpa [isTls] using compare
  · have other : ¬ s.argument = .inBuf s.name := by
      rw [argument]
      intro same
      exact tag (first.mp (CharPtr.inBuf.inj same))
    rw [if_neg other, isTls_append done _ tag, collected.isTls]

theorem nameAt_low {s : XmlParser} {pre : List Byte} {done : List RawAttribute}
    {arg : List Byte} (h : NameAt lost s pre done arg) (some : arg ≠ []) : s.name < pre.length := by
  obtain ⟨_, i, _, low, _, inside, reaching⟩ := h
  have positive := List.length_pos_of_ne_nil some
  rw [← reaching, List.length_drop] at positive
  omega

/-- Overwriting the `=` ends the name and opens the value at `j`. -/
theorem valueAt_starts {s t : XmlParser} {pre w value : List Byte} {done : List RawAttribute}
    {arg : List Byte} {j : Nat} (nameAt : NameAt lost s pre done arg) (low : s.name ≤ j)
    (reaching : Reaching (pre ++ Chr.nul :: w) j value) (name : t.name = s.name)
    (tls : t.starttls = s.starttls)
    (pushed : t.attributes = s.attributes ++ [(s.argument, .inBuf j)]) :
    ValueAt lost t (pre ++ Chr.nul :: w) done arg value := by
  obtain ⟨collected, i, argument, lower, first, reached⟩ := nameAt
  rw [ValueAt, name, tls, pushed, argument]
  exact ⟨s.attributes, i, j, rfl, collected_append _ collected, lower, low, first.mpr,
    reaching_ends pre w i arg reached, reaching⟩

/-- Behind the `=` a value without quotes starts; its first character is read as well. -/
theorem bareValue_pass {s : XmlParser} (pre : List Byte) {rest u : List Byte} {quote : Byte}
    {done : List RawAttribute} {arg : List Byte} {a : Scan} {bound : Nat}
    (data : s.data = pre ++ Chr.equals :: quote :: rest) (nameAt : NameAt lost s pre done arg)
    (low : s.name < pre.length) (bare : isQuote quote = false)
    (reads : run a u = run (.equals done arg) (quote :: rest))
    (room : 3 * rest.length + 2 < bound) :
    PassSpec lost s a u bound (some (.again { s.clobber pre.length with
      quote := quote
      attributes := s.attributes ++ [(s.argument, .inBuf (pre.length + 1))]
      parsePos := pre.length + 2
      parseState := .FindArgumentValue })) := by
  have overwritten := clobber_at data
  have here := reaching_here (pre ++ [Chr.nul]) [quote]
  have starts : Reaching (pre ++ Chr.nul :: [quote]) (pre.length + 1) [quote] := by
    simpa using here
  refine ⟨⟨rfl, rfl, rfl, rfl, by simp [clobber], Or.inl rfl⟩, pre ++ Chr.nul :: [quote], rest,
    .unquoted done arg [quote], ⟨⟨?_, by simp⟩, rfl,
    valueAt_starts nameAt (by omega) starts rfl rfl rfl⟩, ?_, room⟩
  · simpa [clobber] using overwritten
  · rw [reads, run_cons]
    simp [step, bare]

/-- Behind the `=` a quote opens the value, and the pass goes on inside it. -/
theorem quotedValue_pass {s : XmlParser} (pre : List Byte) {rest u : List Byte} {quote : Byte}
    {done : List RawAttribute} {arg : List Byte} {a : Scan} {bound : Nat}
    (data : s.data = pre ++ Chr.equals :: quote :: rest) (nameAt : NameAt lost s pre done arg)
    (low : s.name < pre.length) (mark : isQuote quote = true)
    (reads : run a u = run (.equals done arg) (quote :: rest))
    (shorter : rest.length ≤ u.length) (room : 3 * rest.length + 2 ≤ bound) :
    PassSpec lost s a u bound (findQuotedArgumentValue { s.clobber pre.length with
      quote := quote
      attributes := s.attributes ++ [(s.argument, .inBuf (pre.length + 2))]
      parsePos := pre.length + 2
      parseState := .FindQuotedArgumentValue }) := by
  have overwritten := clobber_at data
  have here := reaching_here (pre ++ [Chr.nul, quote]) []
  have starts : Reaching (pre ++ Chr.nul :: [quote]) (pre.length + 2) [] := by simpa using here
  refine pass_spec_of (b := .quoted quote done arg []) (v := rest) ?_ ?_ shorter room
    (quoted_pass (pre ++ Chr.nul :: [quote]) ?_ rfl rfl
      (valueAt_starts nameAt (by omega) starts rfl rfl rfl))
  · exact ⟨rfl, rfl, rfl, rfl, by simp [clobber], Or.inl rfl⟩
  · rw [reads, run_cons]
    simp [step, mark]
  · refine ⟨?_, by simp⟩
    simpa [clobber] using overwritten

theorem argumentName_pass {s : XmlParser} (pre : List Byte) {u : List Byte} {done : List RawAttribute}
    {arg : List Byte} {bound : Nat} (cut : At s pre u) (more : u ≠ [])
    (state : s.parseState = .FindArgumentName) (nameAt : NameAt lost s pre done arg)
    (start : arg ≠ [] ∨ ∃ c rest, u = c :: rest ∧ isalpha c = true)
    (room : 3 * (u.dropWhile fun c => !endsName c).length + 2 ≤ bound) :
    PassSpec lost s (.name done arg) u bound s.findArgumentName := by
  obtain ⟨w, v, split, taken, inside, tail⟩ := span_cases (fun c => !endsName c) u
  have reads := run_name done arg w v (by simpa using inside)
  have position : s.scan (fun c => !endsName c) s.parsePos = (pre ++ w).length := by
    rw [scan_at cut, taken, List.length_append]
  have data : s.data = (pre ++ w) ++ v := by rw [cut.data, split, List.append_assoc]
  have size : XmlParser.inputEnd { s with parsePos := (pre ++ w).length } =
      (pre ++ w).length + v.length := inputEnd_at data
  have behind (k : Nat) : XmlParser.deref { s with parsePos := (pre ++ w).length }
      ((pre ++ w).length + k) = v[k]? := deref_at data k
  have moved := nameAt_append w nameAt
  have left : u.dropWhile (fun c => !endsName c) = v := by
    have all := List.takeWhile_append_dropWhile (p := fun c => !endsName c) (l := u)
    rw [taken, split] at all
    rw [split]
    exact List.append_cancel_left all
  rw [left] at room
  have nonempty : arg ++ w ≠ [] := by
    rcases start with some | ⟨c, rest, first, letter⟩
    · simp [some]
    · have head : w ≠ [] := by
        rw [← taken, first]
        simp [not_endsName_of_alpha letter]
      simp [head]
  obtain ⟨first, others, shape⟩ := List.exists_cons_of_ne_nil more
  have here : s.deref s.parsePos = some first := by
    subst shape
    exact deref_here cut
  simp only [findArgumentName, here, position, size, Option.pure_def, Option.bind_eq_bind,
    Option.bind_some]
  -- the name goes on behind the next `read`, whatever may have been looked at
  have waits (quote : Byte) (silent : (run (.name done (arg ++ w)) v).1 = []) :
      PassSpec lost s (.name done arg) u bound
        (some (.ret false { s with parsePos := (pre ++ w).length, quote := quote })) :=
    pass_waits (pre ++ w) v (.name done (arg ++ w)) ⟨rfl, rfl, rfl, rfl, rfl, Or.inl rfl⟩
      ⟨⟨data, rfl⟩, state, nonempty, moved⟩ (by rw [split, reads]) silent (by simp)
  rcases tail with rfl | ⟨c, rest, rfl, ends⟩
  · rw [if_pos (by simp)]
    exact waits s.quote rfl
  · have ends' : endsName c = true := by simpa using ends
    rw [if_neg (by simp)]
    have delimiter := behind 0
    simp only [Nat.add_zero, List.getElem?_cons_zero] at delimiter
    rw [delimiter]
    simp only [Option.bind_some]
    by_cases valued : c = Chr.equals
    · -- a value follows
      rw [if_neg (by simp [valued])]
      subst valued
      have halt : run (.name done arg) u = run (.equals done (arg ++ w)) rest := by
        rw [split, reads]
        simp [run_cons, step, ends']
      rcases rest with _ | ⟨quote, rest⟩
      · rw [if_pos (by simp)]
        exact waits s.quote (by simp [run, step, ends'])
      · rw [if_neg (by simp)]
        have next := behind 1
        simp only [List.getElem?_cons_succ, List.getElem?_cons_zero] at next
        rw [next]
        simp only [Option.bind_some]
        have low := nameAt_low moved nonempty
        by_cases plain : quote ≠ Chr.doubleQuote ∧ quote ≠ Chr.singleQuote
        · rw [if_pos plain]
          have bare : isQuote quote = false := by simp [isQuote, plain]
          refine bareValue_pass (pre ++ w) data moved low bare halt ?_
          simp only [List.length_cons] at room
          omega
        · rw [if_neg plain]
          have mark : isQuote quote = true := by
            simp only [isQuote, Bool.or_eq_true, beq_iff_eq]
            by_contra neither
            exact plain (not_or.mp neither)
          rcases rest with _ | ⟨d, rest⟩
          · -- behind a quote the parser needs one more character
            rw [if_pos (by simp [inputEnd, data]; omega)]
            exact waits quote (by simp [run, step, ends', mark])
          · rw [if_neg (by simp [inputEnd, data]; omega)]
            refine quotedValue_pass (pre ++ w) data moved low mark halt ?_ ?_
            · simp only [split, List.length_append, List.length_cons]
              omega
            · simp only [List.length_cons] at room ⊢
              omega
    · -- the attribute has no value
      rw [if_pos valued]
      have low := nameAt_low moved nonempty
      have tls := startsTls_at data moved ends'
      obtain ⟨collected, i, argument, lower, first, reaching⟩ := moved
      refine ⟨⟨rfl, rfl, rfl, rfl, rfl, Or.inl rfl⟩, pre ++ w, c :: rest,
        .gap (done ++ [(arg ++ w, none)]), ⟨⟨data, rfl⟩, rfl, by simp, low, Or.inr ⟨?_, c, rest,
        rfl, not_alpha_of_endsName ends'⟩⟩, ?_, ?_⟩
      · apply collected_push (collected_mono (fun _ _ ended => Or.inl ended) collected)
        · exact ⟨i, lower, argument, Or.inr reaching, Or.inl rfl⟩
        · intro none
          simp only [argument, first.mpr none]
        · exact tls
      · rw [split, reads]
        simp [run_cons, step, ends', valued]
      · simp only [rank, List.length_cons] at *
        omega

/-! ### The end of an element -/

theorem clobberSpaces_at {s : XmlParser} {pre w v : List Byte} (cut : At s pre (w ++ v))
    (taken : (w ++ v).takeWhile (fun c => c == Chr.space) = w) :
    s.clobberSpaces = { s with
      data := pre ++ List.replicate w.length Chr.nul ++ v
      parsePos := pre.length + w.length } := by
  have behind : s.data.drop (pre.length + w.length) = v := by simp [cut.data]
  have before : s.data.take pre.length = pre := by simp [cut.data]
  have position : s.scan (fun c => c == Chr.space) s.parsePos = pre.length + w.length := by
    rw [scan_at cut, taken]
  simp only [clobberSpaces, position]
  simp only [cut.pos, before, behind, Nat.add_sub_cancel_left]

/-- Once the blanks are overwritten, or the delimiter is about to be, every string
in front of the gap has its NUL. -/
theorem gap_ends {s : XmlParser} {pre unread : List Byte} {done : List RawAttribute}
    (w : List Byte) (gap : GapAt lost s pre unread done) :
    Collected lost (Ended (pre ++ Chr.nul :: w)) s.name s.attributes s.starttls done := by
  rcases gap with collected | ⟨collected, _⟩
  · exact collected_append _ collected
  · exact collected_mono (fun i bytes settled => settled_ends pre w i bytes settled) collected

theorem gap_append {s : XmlParser} {pre u v : List Byte} {done : List RawAttribute}
    (blanks : Nat) (some : blanks ≠ 0) (gap : GapAt lost s pre u done) :
    GapAt lost s (pre ++ List.replicate blanks Chr.nul) v done := by
  obtain ⟨k, rfl⟩ := Nat.exists_eq_succ_of_ne_zero some
  exact Or.inl (by rw [List.replicate_succ]; exact gap_ends _ gap)

theorem cstring_ended {s : XmlParser} {pre rest bytes : List Byte} {i : Nat}
    (data : s.data = pre ++ rest) (ended : Ended pre i bytes) :
    s.cstring (.inBuf i) = readText bytes := by
  obtain ⟨tail, behind⟩ := ended_append pre rest i bytes ended
  have first : (bytes ++ Chr.nul :: tail).takeWhile (fun c => c != Chr.nul) =
      bytes.takeWhile fun c => c != Chr.nul := by
    rw [List.takeWhile_append]
    split
    · rename_i all
      have whole := (List.takeWhile_prefix fun c => c != Chr.nul).eq_of_length all
      simp [whole]
    · rfl
  simp only [cstring, data, behind, readText, first]
  simp

theorem attribute_read {s : XmlParser} {pre rest : List Byte} {p : CharPtr × CharPtr}
    {a : RawAttribute} (data : s.data = pre ++ rest)
    (h : AttributeAt lost (Ended pre) s.name p a) :
    AttributeReads lost (s.cstring p.1, s.cstring p.2) a := by
  obtain ⟨i, _, first, ended, second⟩ := h
  refine ⟨by rw [first, cstring_ended data ended, readAttribute], ?_⟩
  cases value : a.2 with
  | none =>
      simp only [value] at second
      rcases second with null | ⟨moved, _⟩
      · left
        simp only [null, readAttribute, value]
        rfl
      · exact .inr ⟨moved, rfl⟩
  | some bytes =>
      simp only [value] at second
      obtain ⟨j, _, at_value, ended'⟩ := second
      left
      simp only [readAttribute, value]
      rw [at_value, cstring_ended data ended']

theorem attributes_read {s : XmlParser} {pre rest : List Byte}
    {attributes : List (CharPtr × CharPtr)} {done : List RawAttribute} (data : s.data = pre ++ rest)
    (stored : List.Forall₂ (AttributeAt lost (Ended pre) s.name) attributes done) :
    List.Forall₂ (AttributeReads lost)
      (attributes.map fun p => (s.cstring p.1, s.cstring p.2)) done := by
  induction stored with
  | nil => exact .nil
  | cons head tail ih => exact .cons (attribute_read data head) ih

theorem element_collected {s : XmlParser} (pre rest : List Byte) {done : List RawAttribute}
    (data : s.data = pre ++ rest) (some : done ≠ [])
    (collected : Collected lost (Ended pre) s.name s.attributes s.starttls done) :
    Reads lost s.element done := by
  have listed := attributes_read data collected.stored
  obtain ⟨tag, more, rfl⟩ := List.exists_cons_of_ne_nil some
  cases shape : s.attributes with
  | nil =>
      have none := (collected_nil_iff collected).mp shape
      simp at none
  | cons p others =>
      have stored := collected.stored
      rw [shape] at stored
      cases stored with
      | cons head tail =>
          have first : p.1 = .inBuf s.name := collected.tag p (by simp [shape])
          have name := (attribute_read data head).1
          rw [first] at name
          exact ⟨name, listed⟩

/-- What the blanks of a gap leave: the same attributes in front of the first
byte that is no blank. -/
structure Skipped (s t : XmlParser) (pre u v : List Byte) (done : List RawAttribute) : Prop where
  cut : At t pre v
  kept : Kept s t
  name : t.name = s.name
  attributes : t.attributes = s.attributes
  starttls : t.starttls = s.starttls
  parseState : t.parseState = s.parseState
  reads : run (.gap done) u = run (.gap done) v
  shorter : v.length ≤ u.length
  head : ∀ c ∈ v.head?, c ≠ Chr.space

theorem clobberSpaces_skips {s : XmlParser} {pre u : List Byte} {done : List RawAttribute}
    (cut : At s pre u) (low : s.name < pre.length) (gap : GapAt lost s pre u done) :
    ∃ pre' v, Skipped s s.clobberSpaces pre' u v done ∧ GapAt lost s pre' v done ∧
      s.name < pre'.length := by
  obtain ⟨w, v, split, taken, inside, tail⟩ := span_cases (fun c => c == Chr.space) u
  have blank : ∀ c ∈ w, c = Chr.space := by simpa using inside
  have clobbered := clobberSpaces_at (by rw [← split]; exact cut) (by rw [← split]; exact taken)
  have same : s.data = pre ++ (w ++ v) := by rw [cut.data, split]
  refine ⟨pre ++ List.replicate w.length Chr.nul, v, ?_, ?_, ?_⟩
  · rw [clobbered]
    refine ⟨⟨rfl, by simp⟩, ⟨rfl, rfl, rfl, rfl, by simp [same], Or.inl rfl⟩, rfl, rfl, rfl, rfl,
      by rw [split, run_spaces done w v blank], by simp [split], ?_⟩
    rcases tail with rfl | ⟨c, rest, rfl, other⟩
    · simp
    · simpa using other
  · by_cases none : w = []
    · subst none
      simpa [split] using gap
    · exact gap_append _ (by simpa using none) gap
  · simp only [List.length_append]
    omega

/-- A letter starts the next name. -/
theorem letter_pass {s : XmlParser} {pre rest : List Byte} {c : Byte}
    {done : List RawAttribute} {bound : Nat} (cut : At s pre (c :: rest))
    (letter : isalpha c = true) (low : s.name ≤ pre.length)
    (first : pre.length = s.name ↔ done = [])
    (collected : Collected lost (Ended pre) s.name s.attributes s.starttls done)
    (room : 3 * rest.length + 2 ≤ bound) :
    PassSpec lost s (.gap done) (c :: rest) bound (findArgumentName { s with
      argument := .inBuf s.parsePos, parseState := .FindArgumentName }) := by
  have inside : endsName c = false := not_endsName_of_alpha letter
  have shorter : ((c :: rest).dropWhile fun c => !endsName c).length ≤ rest.length := by
    simp only [List.dropWhile_cons, inside, Bool.not_false, ↓reduceIte]
    exact (List.dropWhile_sublist _).length_le
  have fits : 3 * ((c :: rest).dropWhile fun c => !endsName c).length + 2 ≤ bound := by omega
  refine pass_spec_of (b := .name done []) (v := c :: rest) ?_ ?_ (Nat.le_refl _)
    (Nat.le_refl _) (argumentName_pass pre ?_ (by simp) rfl ?_
    (Or.inr ⟨c, rest, rfl, letter⟩) fits)
  · exact ⟨rfl, rfl, rfl, rfl, rfl, Or.inl rfl⟩
  · rw [run_cons, run_cons]
    simp [step, gapStep, inside, letter, not_blank_of_alpha letter, not_slash_of_alpha letter]
  · exact ⟨cut.data, cut.pos⟩
  · refine ⟨collected, pre.length, by rw [← cut.pos], low, first, ?_⟩
    have here := reaching_here pre []
    simpa using here

/-- Both closings leave the parser at the end of the element. -/
theorem finish_pass {s t : XmlParser} (pre rest : List Byte) {u : List Byte} {done : List RawAttribute}
    {a : Scan} {bound : Nat} (kept : Kept s t) (cut : At t pre rest) (some : done ≠ [])
    (state : t.parseState = .FindElementStart)
    (collected : Collected lost (Ended pre) t.name t.attributes t.starttls done)
    (reads : run a u = ((finish done).2.toList ++ (run (finish done).1 rest).1,
      (run (finish done).1 rest).2))
    (shorter : rest.length < u.length) (room : 3 * rest.length + 1 < bound) :
    PassSpec lost s a u bound (if !t.starttls then Option.some (.ret true t)
      else Option.some (.again { t with parseState := .FindTLSEnd })) := by
  have same := collected.isTls
  by_cases tls : t.starttls = true
  · rw [if_neg (by simp [tls])]
    rw [tls] at same
    simp only [finish, ← same, ↓reduceIte, Option.toList_none, List.nil_append] at reads
    exact ⟨⟨kept.bufLenMax, kept.bufEnd, kept.allocated, kept.overflow, kept.length, kept.name⟩,
      pre, rest, .tlsEnd done, ⟨⟨cut.data, cut.pos⟩, rfl, some, collected⟩, reads, room⟩
  · have plain : t.starttls = false := by simpa using tls
    rw [if_pos (by simp [plain])]
    rw [plain] at same
    simp only [finish, ← same, Bool.false_eq_true, ↓reduceIte, Option.toList_some,
      List.singleton_append] at reads
    exact ⟨kept, pre, rest, done, ⟨cut, state⟩, reads, element_collected pre rest cut.data some collected,
      shorter⟩

theorem deref_behind {s : XmlParser} {pre rest : List Byte} {c next : Byte}
    (cut : At s pre (c :: next :: rest)) :
    (s.clobber s.parsePos).deref (s.parsePos + 1) = some next := by
  have overwritten := clobber_at cut.data
  rw [cut.pos]
  exact deref_at overwritten 1

/-- The slash closes the element, or the element is rejected with it. -/
theorem slash_pass {s : XmlParser} {pre rest : List Byte} {next : Byte}
    {done : List RawAttribute} {bound : Nat} (cut : At s pre (Chr.slash :: next :: rest))
    (some : done ≠ []) (gap : GapAt lost s pre (Chr.slash :: next :: rest) done)
    (room : 3 * rest.length + 1 < bound) :
    let t : XmlParser := { s.clobber s.parsePos with
      parsePos := s.parsePos + 2, parseState := .FindElementStart }
    PassSpec lost s (.gap done) (Chr.slash :: next :: rest) bound
      (if next = Chr.greaterThan then
        if !t.starttls then Option.some (.ret true t)
        else Option.some (.again { t with parseState := .FindTLSEnd })
      else Option.some (.again t)) := by
  intro t
  have overwritten := clobber_at cut.data
  rw [← cut.pos] at overwritten
  have kept : Kept s t := ⟨rfl, rfl, rfl, rfl, by simp [t, clobber], Or.inl rfl⟩
  have behind : At t (pre ++ [Chr.nul, next]) rest :=
    ⟨by simp [t, overwritten], by simp [t, cut.pos]⟩
  have blank : Chr.slash ≠ Chr.space := by decide
  by_cases close : next = Chr.greaterThan
  · rw [if_pos close]
    refine finish_pass _ rest kept behind some rfl (gap_ends [next] gap) ?_ ?_ room
    · rw [run_cons, run_cons]
      simp [step, gapStep, blank, close]
    · simp only [List.length_cons]
      omega
  · rw [if_neg close]
    refine ⟨kept, _, rest, .text, ⟨behind, rfl⟩, ?_, ?_⟩
    · rw [run_cons, run_cons]
      simp [step, gapStep, blank, close]
    · simp only [rank, t]
      omega

/-- A `>` closes the element, any other character that is no letter rejects it. -/
theorem closing_pass {s : XmlParser} {pre rest : List Byte} {c : Byte}
    {done : List RawAttribute} {bound : Nat} (cut : At s pre (c :: rest)) (some : done ≠ [])
    (gap : GapAt lost s pre (c :: rest) done) (blank : c ≠ Chr.space) (slash : c ≠ Chr.slash)
    (letter : isalpha c = false) (room : 3 * (c :: rest).length < bound) :
    let t : XmlParser := { s with parseState := .FindElementStart }
    let u : XmlParser := { t.clobber t.parsePos with parsePos := t.parsePos + 1 }
    PassSpec lost s (.gap done) (c :: rest) bound
      (if c = Chr.greaterThan then
        if !u.starttls then Option.some (.ret true u)
        else Option.some (.again { u with parseState := .FindTLSEnd })
      else Option.some (.again t)) := by
  intro t u
  by_cases close : c = Chr.greaterThan
  · subst close
    rw [if_pos rfl]
    have overwritten := clobber_at cut.data
    rw [← cut.pos] at overwritten
    refine finish_pass (pre ++ [Chr.nul]) rest ?_ ?_ some rfl (gap_ends [] gap) ?_ ?_ ?_
    · exact ⟨rfl, rfl, rfl, rfl, by simp [u, t, clobber], Or.inl rfl⟩
    · exact ⟨by simpa [u, t, clobber] using overwritten, by simp [u, t, cut.pos]⟩
    · rw [run_cons]
      simp [step, gapStep, blank, slash, letter]
    · simp
    · simp only [List.length_cons] at room
      omega
  · rw [if_neg close]
    refine ⟨⟨rfl, rfl, rfl, rfl, rfl, Or.inl rfl⟩, pre, c :: rest, .text,
      ⟨⟨cut.data, cut.pos⟩, rfl⟩, ?_, room⟩
    rw [run_cons, run_cons]
    simp [step, gapStep, blank, slash, letter, close]

theorem elementEnd_pass {s : XmlParser} {pre u : List Byte} {done : List RawAttribute}
    (rel : Rel lost s pre u (.gap done)) (more : u ≠ []) :
    PassSpec lost s (.gap done) u (3 * u.length + 1) s.findElementEnd := by
  obtain ⟨cut, state, some, low, gap⟩ := rel
  obtain ⟨first, others, shape⟩ := List.exists_cons_of_ne_nil more
  have here : s.deref s.parsePos = Option.some first := by
    subst shape
    exact deref_here cut
  obtain ⟨pre', v, skipped, gap', low'⟩ := clobberSpaces_skips cut low gap
  simp only [findElementEnd, here, Option.pure_def, Option.bind_eq_bind, Option.bind_some]
  generalize s.clobberSpaces = t at skipped
  obtain ⟨cut', kept, name, attributes, tls, state', reads, shorter, head⟩ := skipped
  have size : t.inputEnd = pre'.length + v.length := inputEnd_at cut'.data
  have gapAt : GapAt lost t pre' v done := by
    rw [GapAt, name, attributes, tls]
    exact gap'
  have low' : t.name < pre'.length := by
    rw [name]
    exact low'
  refine pass_spec_of (b := .gap done) (v := v) (m := 3 * u.length + 1) kept reads shorter
    (Nat.le_refl _) ?_
  rcases v with _ | ⟨c, rest⟩
  · -- nothing but blanks
    rw [if_pos (by rw [size, cut'.pos]; rfl)]
    exact pass_waits pre' [] (.gap done) (kept_refl t)
      ⟨cut', state'.trans state, some, low', gapAt⟩ rfl rfl (by simp)
  · have blank : c ≠ Chr.space := head c (by simp)
    rw [if_neg (by rw [size, cut'.pos]; simp), deref_here cut', Option.bind_some]
    by_cases slash : c = Chr.slash
    · -- the slash in front of the `>`
      subst slash
      rw [if_pos rfl]
      rcases rest with _ | ⟨next, rest⟩
      · rw [if_pos (by rw [size, cut'.pos]; simp)]
        exact pass_waits pre' [Chr.slash] (.gap done) (kept_refl t)
          ⟨cut', state'.trans state, some, low', gapAt⟩ rfl rfl (by simp)
      · rw [if_neg (by rw [size, cut'.pos]; simp)]
        have behind : (t.clobber t.parsePos).deref ((t.clobber t.parsePos).parsePos + 1) =
            Option.some next := deref_behind cut'
        rw [behind, Option.bind_some]
        refine slash_pass cut' some gapAt ?_
        simp only [List.length_cons] at shorter
        omega
    · -- a letter starts the next attribute
      rw [if_neg slash]
      by_cases letter : isalpha c = true
      · rw [if_neg (by simp [letter])]
        have ended : Collected lost (Ended pre') t.name t.attributes t.starttls done := by
          rcases gapAt with ended | ⟨_, d, others, same, other⟩
          · exact ended
          · rw [(List.cons.inj same).1, other] at letter
            exact absurd letter Bool.false_ne_true
        refine letter_pass cut' letter (Nat.le_of_lt low') ?_ ended ?_
        · exact ⟨fun same => absurd same low'.ne', fun none => absurd none some⟩
        · simp only [List.length_cons] at shorter
          omega
      · rw [if_pos (by simpa using letter)]
        refine closing_pass cut' some gapAt blank slash (by simpa using letter) ?_
        simp only [List.length_cons] at shorter ⊢
        omega

/-! ### The start of an element -/

/-- No element ends within two characters. -/
theorem run_text_short (v : List Byte) (few : v.length ≤ 2) :
    run .text v = ([], (run .text v).2) := by
  rcases v with _ | ⟨c, _ | ⟨d, _ | ⟨e, v⟩⟩⟩
  · rfl
  · simp only [run, step, textStep]
    split <;> rfl
  · by_cases less : c = Chr.lessThan
    · by_cases letter : isalpha d = true
      · simp [run, step, textStep, less, letter]
      · by_cases again : d = Chr.lessThan
        · simp only [run, step, textStep, less, ↓reduceIte, if_neg letter, if_pos again]
          rfl
        · simp only [run, step, textStep, less, ↓reduceIte, if_neg letter, if_neg again]
          rfl
    · simp only [run, step, textStep, less, ↓reduceIte]
      split <;> simp
  · simp at few

/-- Behind the `<` a letter starts the tag right away. -/
theorem elementEnd_letter {s : XmlParser} {pre rest : List Byte} {c : Byte}
    (cut : At s pre (c :: rest)) (letter : isalpha c = true) :
    s.findElementEnd = findArgumentName { s with
      argument := .inBuf s.parsePos, parseState := .FindArgumentName } := by
  have blank := not_blank_of_alpha letter
  have skipped : s.clobberSpaces = s := by
    rw [clobberSpaces_at (w := []) cut (by simp [blank])]
    simp [← cut.data, ← cut.pos]
  have size : s.inputEnd = pre.length + (c :: rest).length := inputEnd_at cut.data
  simp only [findElementEnd, deref_here cut, skipped, Option.pure_def, Option.bind_eq_bind,
    Option.bind_some]
  rw [if_neg (by rw [size, cut.pos]; simp), if_neg (not_slash_of_alpha letter),
    if_neg (by simp [letter])]

theorem elementStart_pass {s : XmlParser} {pre u : List Byte} (rel : Rel lost s pre u .text) :
    PassSpec lost s .text u (3 * u.length) s.findElementStart := by
  obtain ⟨cut, state⟩ := rel
  obtain ⟨w, v, split, taken, inside, tail⟩ := span_cases (fun c => c != Chr.lessThan) u
  have reads := run_text w v (by simpa using inside)
  rw [← split] at reads
  have position : s.scan (fun c => c != Chr.lessThan) s.parsePos = (pre ++ w).length := by
    rw [scan_at cut, taken, List.length_append]
  have data : s.data = (pre ++ w) ++ v := by rw [cut.data, split, List.append_assoc]
  have size : XmlParser.inputEnd { s with parsePos := (pre ++ w).length } =
      (pre ++ w).length + v.length := inputEnd_at data
  simp only [findElementStart, position, size, Option.pure_def, Option.bind_eq_bind]
  by_cases few : v.length ≤ 2
  · rw [if_pos (by omega)]
    -- two characters behind the `<` are looked at together
    have silent := run_text_short v few
    exact pass_waits (pre ++ w) v .text ⟨rfl, rfl, rfl, rfl, rfl, Or.inl rfl⟩
      ⟨⟨data, rfl⟩, state⟩ reads (congrArg Prod.fst silent) fun _ => few
  · rw [if_neg (by omega)]
    rcases tail with rfl | ⟨c, rest, rfl, less⟩
    · simp at few
    have first : c = Chr.lessThan := by simpa using less
    subst first
    rcases rest with _ | ⟨c, rest⟩
    · simp at few
    have behind : ∀ t : XmlParser, t.data = s.data →
        t.deref ((pre ++ w).length + 1) = some c := by
      intro t same
      rw [deref_at (same.trans data) 1]
      rfl
    have longer : u.length = w.length + rest.length + 2 := by
      simp only [split, List.length_append, List.length_cons]
      omega
    have opened : run .text u = run .opened (c :: rest) := by
      rw [reads, run_cons]
      simp [step, textStep]
    have name : (pre ++ w).length + 1 + 2 ≤ s.data.length := by
      simp only [data, List.length_append, List.length_cons] at few ⊢
      omega
    rw [behind { s with name := (pre ++ w).length + 1, parsePos := (pre ++ w).length + 1 } rfl,
      Option.bind_some]
    by_cases letter : isalpha c = true
    · rw [if_neg (by simp [letter])]
      have start : At { s with
          name := (pre ++ w).length + 1
          parsePos := (pre ++ w).length + 1
          attributes := []
          starttls := false
          parseState := .FindElementEnd } (pre ++ w ++ [Chr.lessThan]) (c :: rest) :=
        ⟨by simp [data], by simp [Nat.add_assoc]⟩
      rw [elementEnd_letter start letter]
      refine pass_spec_of (b := .gap []) (v := c :: rest) ?_ ?_ ?_ (Nat.le_refl _)
        (letter_pass start letter ?_ ?_ ?_ ?_)
      · exact ⟨rfl, rfl, rfl, rfl, rfl, Or.inr name⟩
      · rw [opened, run_cons, run_cons]
        simp [step, gapStep, letter, not_blank_of_alpha letter, not_slash_of_alpha letter]
      · simp only [List.length_cons]
        omega
      · simp [Nat.add_assoc]
      · simp [Nat.add_assoc]
      · exact ⟨.nil, by simp, rfl⟩
      · omega
    · -- this `<` begins no element
      rw [if_pos (by simpa using letter)]
      refine ⟨⟨rfl, rfl, rfl, rfl, rfl, Or.inr name⟩, pre ++ w ++ [Chr.lessThan], c :: rest,
        .text, ⟨⟨by simp [data], by simp [Nat.add_assoc]⟩, state⟩, ?_, ?_⟩
      · rw [opened, run_cons, run_cons]
        simp [step, letter]
      · have start : s.parseState = .FindElementStart := state
        simp only [rank, start, List.length_cons]
        omega

/-! ### The line behind `starttls` -/

theorem tlsEnd_pass {s : XmlParser} {pre u : List Byte} {done : List RawAttribute}
    (rel : Rel lost s pre u (.tlsEnd done)) (more : u ≠ []) :
    PassSpec lost s (.tlsEnd done) u (3 * u.length + 1) s.findTLSEnd := by
  obtain ⟨cut, state, some, collected⟩ := rel
  obtain ⟨c, rest, rfl⟩ := List.exists_cons_of_ne_nil more
  have size : s.inputEnd = pre.length + (c :: rest).length := inputEnd_at cut.data
  simp only [findTLSEnd, deref_here cut, Option.pure_def, Option.bind_eq_bind, Option.bind_some]
  have distinct : Chr.carriageReturn ≠ Chr.lineFeed := by decide
  by_cases back : c = Chr.carriageReturn
  · subst back
    rcases rest with _ | ⟨d, rest⟩
    · rw [if_pos ⟨rfl, by rw [size, cut.pos]; rfl⟩]
      exact pass_waits pre [Chr.carriageReturn] (.tlsEnd done) (kept_refl s)
        ⟨cut, state, some, collected⟩ rfl rfl (by simp)
    · rw [if_neg (by rw [size, cut.pos]; simp), if_pos rfl]
      have behind : XmlParser.deref { s with
          parsePos := s.parsePos + 1, parseState := .FindElementStart } (s.parsePos + 1) =
          Option.some d := by
        rw [cut.pos]
        exact deref_at cut.data 1
      rw [behind, Option.bind_some]
      by_cases feed : d = Chr.lineFeed
      · rw [if_pos feed]
        refine ⟨⟨rfl, rfl, rfl, rfl, rfl, Or.inl rfl⟩, pre ++ [Chr.carriageReturn, d], rest, done,
          ⟨⟨?_, ?_⟩, rfl⟩, ?_, ?_, ?_⟩
        · simp [cut.data]
        · simp [cut.pos]
        · rw [run_cons, run_cons]
          simp [step, distinct, feed]
        · refine element_collected pre (Chr.carriageReturn :: d :: rest) ?_ some collected
          exact cut.data
        · simp only [List.length_cons]
          omega
      · -- another character behind the CR: back to the text
        rw [if_neg feed]
        refine ⟨⟨rfl, rfl, rfl, rfl, rfl, Or.inl rfl⟩, pre ++ [Chr.carriageReturn], d :: rest,
          .text, ⟨⟨?_, ?_⟩, rfl⟩, ?_, ?_⟩
        · simp [cut.data]
        · simp [cut.pos]
        · rw [run_cons, run_cons, run_cons]
          simp [step, distinct, feed]
        · simp only [rank, List.length_cons]
          omega
  · rw [if_neg (by simp [back]), if_neg back]
    have same : XmlParser.deref { s with parseState := .FindElementStart } s.parsePos =
        Option.some c := by
      have here := deref_here cut
      exact here
    rw [same, Option.bind_some]
    by_cases feed : c = Chr.lineFeed
    · rw [if_pos feed]
      refine ⟨⟨rfl, rfl, rfl, rfl, rfl, Or.inl rfl⟩, pre ++ [c], rest, done, ⟨⟨?_, ?_⟩, rfl⟩,
        ?_, ?_, ?_⟩
      · simp [cut.data]
      · simp [cut.pos]
      · rw [run_cons]
        simp [step, feed]
      · exact element_collected pre (c :: rest) cut.data some collected
      · simp
    · rw [if_neg feed]
      refine ⟨⟨rfl, rfl, rfl, rfl, rfl, Or.inl rfl⟩, pre, c :: rest, .text, ⟨⟨?_, ?_⟩, rfl⟩, ?_,
        ?_⟩
      · exact cut.data
      · exact cut.pos
      · rw [run_cons, run_cons]
        simp [step, feed, back]
      · simp only [rank]
        omega

/-! ### The loop over the passes -/

theorem pass_spec {s : XmlParser} {pre u : List Byte} {a : Scan} (rel : Rel lost s pre u a)
    (more : u ≠ []) :
    PassSpec lost s a u (3 * u.length + rank s.parseState) s.pass := by
  have means := rel.2
  cases a with
  | text =>
      have state : s.parseState = .FindElementStart := means
      rw [pass, state]
      exact elementStart_pass rel
  | name done arg =>
      obtain ⟨state, some, nameAt⟩ := means
      rw [pass, state]
      refine argumentName_pass pre rel.1 more state nameAt (Or.inl some) ?_
      have shorter := (List.dropWhile_sublist (l := u) fun c => !endsName c).length_le
      simp only [rank]
      omega
  | quoted quote done arg value =>
      obtain ⟨state, delimiter, valueAt⟩ := means
      rw [pass, state]
      exact quoted_pass pre rel.1 state delimiter valueAt
  | unquoted done arg value =>
      have state := means.1
      rw [pass, state]
      exact unquoted_pass rel more
  | gap done =>
      have state := means.1
      rw [pass, state]
      exact elementEnd_pass rel more
  | tlsEnd done =>
      have state := means.1
      rw [pass, state]
      exact tlsEnd_pass rel more
  | opened => exact means.elim
  | equals => exact means.elim
  | closed => exact means.elim
  | skipped => exact means.elim
  | slash => exact means.elim
  | tlsReturn => exact means.elim

end XmlParser
end PdServ
