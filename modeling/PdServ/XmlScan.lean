import PdServ.XmlParser

/-!
What the tokenizer is for, apart from any buffer: a machine that takes the input
one character at a time and keeps the strings collected so far as values. The
only memory is the state, so a stream means the same however it arrives.
-/

namespace PdServ

/-- An attribute as collected from the input: its name, and its value if any. -/
abbrev RawAttribute := List Byte × Option (List Byte)

inductive Scan where
  | text
  | opened
  | name (done : List RawAttribute) (arg : List Byte)
  | equals (done : List RawAttribute) (arg : List Byte)
  | quoted (quote : Byte) (done : List RawAttribute) (arg value : List Byte)
  | unquoted (done : List RawAttribute) (arg value : List Byte)
  /-- right behind a closing quote -/
  | closed (done : List RawAttribute)
  /-- further behind a closing quote, where all but a space and `>` is ignored -/
  | skipped (done : List RawAttribute)
  | gap (done : List RawAttribute)
  | slash (done : List RawAttribute)
  | tlsEnd (done : List RawAttribute)
  | tlsReturn (done : List RawAttribute)
deriving DecidableEq, Repr

namespace Scan

/-- An element whose tag has no value and begins with `starttls` counts only
together with the end of its line. -/
def isTls : List RawAttribute → Bool
  | (tag, none) :: _ => tag.take 8 == ascii "starttls"
  | _ => false

abbrev Result := Scan × Option (List RawAttribute)

def textStep (c : Byte) : Result :=
  if c = Chr.lessThan then (.opened, none) else (.text, none)

def finish (done : List RawAttribute) : Result :=
  if isTls done then (.tlsEnd done, none) else (.text, some done)

def gapStep (done : List RawAttribute) (c : Byte) : Result :=
  if c = Chr.space then (.gap done, none)
  else if c = Chr.slash then (.slash done, none)
  else if isalpha c then (.name done [c], none)
  else if c = Chr.greaterThan then finish done
  else textStep c

def endsValue (c : Byte) : Bool := c == Chr.space || c == Chr.greaterThan

def isQuote (c : Byte) : Bool := c == Chr.doubleQuote || c == Chr.singleQuote

def step : Scan → Byte → Result
  | .text, c => textStep c
  | .opened, c => if isalpha c then (.name [] [c], none) else textStep c
  | .name done arg, c =>
      if XmlParser.endsName c then
        if c = Chr.equals then (.equals done arg, none) else gapStep (done ++ [(arg, none)]) c
      else (.name done (arg ++ [c]), none)
  | .equals done arg, c =>
      if isQuote c then (.quoted c done arg [], none) else (.unquoted done arg [c], none)
  | .quoted quote done arg value, c =>
      if c = quote then (.closed (done ++ [(arg, some value)]), none)
      else (.quoted quote done arg (value ++ [c]), none)
  | .unquoted done arg value, c =>
      if endsValue c then gapStep (done ++ [(arg, some value)]) c
      else (.unquoted done arg (value ++ [c]), none)
  | .closed done, c => if endsValue c then gapStep done c else (.skipped done, none)
  | .skipped done, c => if endsValue c then gapStep done c else (.skipped done, none)
  | .gap done, c => gapStep done c
  | .slash done, c => if c = Chr.greaterThan then finish done else (.text, none)
  | .tlsEnd done, c =>
      if c = Chr.lineFeed then (.text, some done)
      else if c = Chr.carriageReturn then (.tlsReturn done, none)
      else textStep c
  | .tlsReturn done, c => if c = Chr.lineFeed then (.text, some done) else textStep c

/-- The elements recognised in a text, and the state behind it. -/
def run : Scan → List Byte → List (List RawAttribute) × Scan
  | a, [] => ([], a)
  | a, c :: rest =>
      let next := a.step c
      let tail := run next.1 rest
      (next.2.toList ++ tail.1, tail.2)

theorem run_append (a : Scan) (u v : List Byte) :
    run a (u ++ v) = ((run a u).1 ++ (run (run a u).2 v).1, (run (run a u).2 v).2) := by
  induction u generalizing a with
  | nil => simp [run]
  | cons c rest ih => simp [run, ih, List.append_assoc]

theorem run_cons (a : Scan) (c : Byte) (rest : List Byte) :
    run a (c :: rest) = ((a.step c).2.toList ++ (run (a.step c).1 rest).1,
      (run (a.step c).1 rest).2) := rfl

/-! ### Stretches that one state reads as a whole -/

theorem run_text (w rest : List Byte) (plain : ∀ c ∈ w, c ≠ Chr.lessThan) :
    run .text (w ++ rest) = run .text rest := by
  induction w with
  | nil => rfl
  | cons c w ih =>
      have head : c ≠ Chr.lessThan := plain c List.mem_cons_self
      have tail := ih fun x member => plain x (List.mem_cons_of_mem c member)
      simp [run_cons, step, textStep, head, tail]

theorem run_name (done : List RawAttribute) (arg w rest : List Byte)
    (inside : ∀ c ∈ w, XmlParser.endsName c = false) :
    run (.name done arg) (w ++ rest) = run (.name done (arg ++ w)) rest := by
  induction w generalizing arg with
  | nil => simp
  | cons c w ih =>
      have head : XmlParser.endsName c = false := inside c List.mem_cons_self
      have tail := ih (arg ++ [c]) fun x member => inside x (List.mem_cons_of_mem c member)
      simp [run_cons, step, head, tail]

theorem run_quoted (quote : Byte) (done : List RawAttribute) (arg value w rest : List Byte)
    (inside : ∀ c ∈ w, c ≠ quote) :
    run (.quoted quote done arg value) (w ++ rest) =
      run (.quoted quote done arg (value ++ w)) rest := by
  induction w generalizing value with
  | nil => simp
  | cons c w ih =>
      have head : c ≠ quote := inside c List.mem_cons_self
      have tail := ih (value ++ [c]) fun x member => inside x (List.mem_cons_of_mem c member)
      simp [run_cons, step, head, tail]

theorem run_unquoted (done : List RawAttribute) (arg value w rest : List Byte)
    (inside : ∀ c ∈ w, endsValue c = false) :
    run (.unquoted done arg value) (w ++ rest) =
      run (.unquoted done arg (value ++ w)) rest := by
  induction w generalizing value with
  | nil => simp
  | cons c w ih =>
      have head : endsValue c = false := inside c List.mem_cons_self
      have tail := ih (value ++ [c]) fun x member => inside x (List.mem_cons_of_mem c member)
      simp [run_cons, step, head, tail]

theorem run_skipped (done : List RawAttribute) (w rest : List Byte)
    (inside : ∀ c ∈ w, endsValue c = false) :
    run (.skipped done) (w ++ rest) = run (.skipped done) rest := by
  induction w with
  | nil => rfl
  | cons c w ih =>
      have head : endsValue c = false := inside c List.mem_cons_self
      have tail := ih fun x member => inside x (List.mem_cons_of_mem c member)
      simp [run_cons, step, head, tail]

theorem run_spaces (done : List RawAttribute) (w rest : List Byte)
    (blank : ∀ c ∈ w, c = Chr.space) : run (.gap done) (w ++ rest) = run (.gap done) rest := by
  induction w with
  | nil => rfl
  | cons c w ih =>
      have head : c = Chr.space := blank c List.mem_cons_self
      have tail := ih fun x member => blank x (List.mem_cons_of_mem c member)
      simp [run_cons, step, gapStep, head, tail]

/-- At a space or a `>` the states behind a value go on as the gap does. -/
theorem run_closed_end (done : List RawAttribute) (c : Byte) (rest : List Byte)
    (ends : endsValue c = true) :
    run (.closed done) (c :: rest) = run (.gap done) (c :: rest) := by
  simp [run_cons, step, ends]

theorem run_skipped_end (done : List RawAttribute) (c : Byte) (rest : List Byte)
    (ends : endsValue c = true) :
    run (.skipped done) (c :: rest) = run (.gap done) (c :: rest) := by
  simp [run_cons, step, ends]

end Scan

/-! ### The recognised element as the user of the parser sees it -/

/-- A C string ends at its first NUL, also where the input holds one. -/
def readText (bytes : List Byte) : CString := .text (bytes.takeWhile fun c => c != Chr.nul)

def readAttribute (a : RawAttribute) : CString × CString :=
  (readText a.1, match a.2 with
    | none => .null
    | some value => readText value)

def readElement (done : List RawAttribute) : Element where
  tag := match done with
    | [] => .null
    | tag :: _ => readText tag.1
  attributes := done.map readAttribute

/-- The elements of a stream of bytes. -/
def elementsOf (stream : List Byte) : List Element :=
  (Scan.run .text stream).1.map readElement

end PdServ
