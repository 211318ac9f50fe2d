import PdServ.ParameterForest
import Mathlib.Data.List.Forall2

/-!
Which parameters a write is reported for. `inform` walks the tree of one root, the
one `parameterMap` leads to; that of a compound parameter is the root of its last
element only.
-/

namespace PdServ
namespace Server

/-! ### What `inform` reports -/

theorem intersects_iff {p : Parameter} {first last : Nat} (some : 0 < p.memSize)
    (range : first < last) :
    Intersects p first last ↔ first < p.offset + p.memSize ∧ p.offset < last := by
  simp only [Intersects]
  omega

theorem not_intersects_empty {p : Parameter} (first last : Nat) (none : p.memSize = 0) :
    ¬ Intersects p first last := by
  simp only [Intersects]
  omega

theorem leaf_childless {mainSize : Nat → Nat} {s : Server} (forest : Forest mainSize s) {m n : Nat}
    {q : Parameter} (here : s.parameters[m]? = some q) (dependent : q.dependent = some n) :
    s.children m = [] := by
  rw [List.eq_nil_iff_forall_not_mem]
  intro k member
  obtain ⟨r, at_k, under⟩ := (forest.listed m k).mp member
  obtain ⟨_, p, at_m, top, _⟩ := forest.leaf k r m at_k under
  rw [here] at at_m
  cases at_m
  rw [dependent] at top
  cases top

theorem inform_leaf {mainSize : Nat → Nat} {s : Server} (forest : Forest mainSize s)
    (first last depth m n : Nat) (q : Parameter) (here : s.parameters[m]? = some q)
    (dependent : q.dependent = some n) :
    s.inform first last (depth + 1) m =
      if first ≥ q.offset + q.memSize then (false, [])
      else if q.offset ≥ last then (true, []) else (false, [m]) := by
  simp [inform, here, leaf_childless forest here dependent, informChildren]

section Inform

variable {mainSize : Nat → Nat} {s : Server} (forest : Forest mainSize s) {first last : Nat}
  (range : first < last)
include forest range

/-- The loop ends at a leaf behind the range only when all that follow are too. -/
theorem informChildren_reports (depth n : Nat) (children : List Nat)
    (listed : ∀ m ∈ children, m ∈ s.children n)
    (sorted : children.Pairwise fun i j => ∀ p q : Parameter, s.parameters[i]? = some p →
      s.parameters[j]? = some q → p.offset ≤ q.offset) (m : Nat) :
    m ∈ informChildren (s.inform first last (depth + 1)) children ↔
      m ∈ children ∧ ∃ q, s.parameters[m]? = some q ∧ Intersects q first last := by
  induction children with
  | nil => simp [informChildren]
  | cons child rest ih =>
      have later := ih (fun k member => listed k (List.mem_cons_of_mem child member))
        (List.pairwise_cons.mp sorted).2
      obtain ⟨p, here, dependent⟩ := (forest.listed n child).mp (listed child List.mem_cons_self)
      have some := (forest.leaf child p n here dependent).1
      have informed := inform_leaf forest first last depth child n p here dependent
      have touches := intersects_iff some range
      rw [informChildren, informed]
      by_cases ended : first ≥ p.offset + p.memSize
      · have apart : ¬ Intersects p first last := by
          rw [touches]
          omega
        simp only [ended, ↓reduceIte, Bool.false_eq_true, List.nil_append, later, List.mem_cons]
        constructor
        · rintro ⟨member, found⟩
          exact ⟨Or.inr member, found⟩
        · rintro ⟨rfl | member, q, at_m, hit⟩
          · rw [here] at at_m
            cases at_m
            exact absurd hit apart
          · exact ⟨member, q, at_m, hit⟩
      · by_cases beyond : p.offset ≥ last
        · simp only [ended, beyond, ↓reduceIte, List.not_mem_nil, false_iff, not_and,
            List.mem_cons]
          rintro member ⟨q, at_m, hit⟩
          have behind : last ≤ q.offset := by
            rcases member with rfl | member
            · rw [here] at at_m
              cases at_m
              exact beyond
            · have ordered := (List.pairwise_cons.mp sorted).1 m member p q here at_m
              omega
          simp only [Intersects] at hit
          omega
        · have hit : Intersects p first last := by
            rw [touches]
            omega
          simp only [ended, beyond, ↓reduceIte, Bool.false_eq_true, List.singleton_append,
            List.mem_cons, later]
          constructor
          · rintro (rfl | ⟨member, found⟩)
            · exact ⟨Or.inl rfl, p, here, hit⟩
            · exact ⟨Or.inr member, found⟩
          · rintro ⟨rfl | member, found⟩
            · exact Or.inl rfl
            · exact Or.inr ⟨member, found⟩

/-- A root is pruned unless the range reaches it; then its leaves are told apart. -/
theorem inform_root (n : Nat) (root : Parameter) (here : s.parameters[n]? = some root) (m : Nat) :
    m ∈ (s.inform first last s.parameters.length n).2 ↔
      (first < root.offset + root.memSize ∧ root.offset < last) ∧
        (m = n ∨ m ∈ s.children n ∧ ∃ q, s.parameters[m]? = some q ∧ Intersects q first last) := by
  obtain ⟨depth, size⟩ := Nat.exists_eq_succ_of_ne_zero
    (Nat.ne_of_gt (Nat.zero_lt_of_lt (List.getElem?_eq_some_iff.mp here).1))
  rw [size, inform, here]
  by_cases ended : first ≥ root.offset + root.memSize
  · simp [ended, Nat.not_lt.mpr ended]
  · by_cases beyond : root.offset ≥ last
    · simp [ended, beyond, Nat.not_lt.mpr beyond]
    · have visited : first < root.offset + root.memSize ∧ root.offset < last := by omega
      simp only [ended, beyond, ↓reduceIte, visited, List.mem_cons, true_and, and_self]
      cases depth with
      | zero =>
          have none : s.children n = [] := by
            rw [List.eq_nil_iff_forall_not_mem]
            intro k member
            obtain ⟨q, at_k, under⟩ := (forest.listed n k).mp member
            have below := (List.getElem?_eq_some_iff.mp at_k).1
            have own := (List.getElem?_eq_some_iff.mp here).1
            have same : k = n := by omega
            subst same
            obtain ⟨_, p, at_n, top, _⟩ := forest.leaf k q k at_k under
            rw [at_k] at at_n
            cases at_n
            rw [under] at top
            cases top
          simp [none, informChildren]
      | succ depth =>
          rw [informChildren_reports forest range depth n (s.children n) (fun _ member => member)
            (forest.sorted n)]

end Inform

/-! ### What reaches the sessions -/

/-- A session is marked with exactly the parameters of `var` that the range reaches,
unless it is polite. -/
def MarksExactly (s : Server) (var first last : Nat) (before after : Session) : Prop :=
  after.polite = before.polite ∧
    ∀ m, m ∈ after.changedParameter ↔ m ∈ before.changedParameter ∨
      (before.polite = false ∧ ∃ q, s.parameters[m]? = some q ∧ q.mainParam = var ∧
        Intersects q first last)

/-- A write is reported to every session as it should be, whoever is connected. -/
def ReportsExactly (s : Server) (var offset count : Nat) : Prop :=
  ∀ sessions, ∃ after, s.parameterChanged sessions var offset count = some after ∧
    List.Forall₂ (MarksExactly s var offset (offset + count)) sessions after

/-- There is a last root, and the range reaches nothing outside its tree. A root whose
number of elements was truncated to zero must not lie inside the range, nor may any of
its leaves be reached. -/
def LastTreeOnly (s : Server) (var first last : Nat) : Prop :=
  ∃ (n : Nat) (root : Parameter),
    s.parameters[n]? = some root ∧ root.mainParam = var ∧ root.dependent = none ∧
    (∀ m, s.IsRoot var m → m ≤ n) ∧
    (∀ (m : Nat) (q : Parameter), s.parameters[m]? = some q → q.mainParam = var → m ≠ n → q.dependent ≠ some n →
      ¬ Intersects q first last) ∧
    (root.memSize = 0 → ¬ (first < root.offset ∧ root.offset < last) ∧
      ∀ (m : Nat) (q : Parameter), s.parameters[m]? = some q → q.dependent = some n →
        ¬ Intersects q first last)

theorem foldl_parameterChanged (marks : List Nat) (session : Session) :
    (marks.foldl Session.parameterChanged session).polite = session.polite ∧
      ∀ m, m ∈ (marks.foldl Session.parameterChanged session).changedParameter ↔
        m ∈ session.changedParameter ∨ (session.polite = false ∧ m ∈ marks) := by
  induction marks generalizing session with
  | nil => simp
  | cons p rest ih =>
      obtain ⟨polite, changed⟩ := ih (session.parameterChanged p)
      have kept : (session.parameterChanged p).polite = session.polite := by
        simp only [Session.parameterChanged]
        split <;> rfl
      rw [List.foldl_cons]
      refine ⟨polite.trans kept, ?_⟩
      intro m
      rw [changed, kept, List.mem_cons]
      cases mode : session.polite with
      | true => simp [Session.parameterChanged, mode]
      | false =>
          simp only [Session.parameterChanged, mode, Bool.false_eq_true, ↓reduceIte,
            List.mem_insert_iff, true_and]
          tauto

theorem reports_marks {s : Server} {var offset count n : Nat}
    (map : s.parameterMap var = some n)
    (marks : ∀ m, m ∈ (s.inform offset (offset + count) s.parameters.length n).2 ↔
      ∃ q, s.parameters[m]? = some q ∧ q.mainParam = var ∧ Intersects q offset (offset + count)) :
    s.ReportsExactly var offset count := by
  intro sessions
  refine ⟨_, by rw [parameterChanged, map], ?_⟩
  rw [List.forall₂_map_right_iff]
  apply List.forall₂_same.mpr
  intro session _
  obtain ⟨polite, changed⟩ := foldl_parameterChanged
    (s.inform offset (offset + count) s.parameters.length n).2 session
  refine ⟨polite, ?_⟩
  intro m
  rw [changed, marks]

/-- One session that listens and knows nothing yet tells all. -/
theorem marks_of_reports {s : Server} {var offset count : Nat}
    (reports : s.ReportsExactly var offset count) :
    ∃ n, s.parameterMap var = some n ∧
      ∀ m, m ∈ (s.inform offset (offset + count) s.parameters.length n).2 ↔
        ∃ q, s.parameters[m]? = some q ∧ q.mainParam = var ∧
          Intersects q offset (offset + count) := by
  obtain ⟨after, changed, exactly⟩ := reports [⟨false, []⟩]
  cases map : s.parameterMap var with
  | none => simp [parameterChanged, map] at changed
  | some n =>
      refine ⟨n, rfl, ?_⟩
      intro m
      simp only [parameterChanged, map, Option.some.injEq, List.map_cons, List.map_nil] at changed
      subst changed
      cases exactly with
      | cons session _ =>
          have marked := session.2 m
          rw [(foldl_parameterChanged _ _).2] at marked
          simpa using marked

/-- A write inside a parameter of the application is reported exactly when it stays
within the tree built last for it. -/
theorem reportsExactly_iff (itemize : Bool) (mainParams : List MainParameter) (var : Nat)
    (param : MainParameter) (offset count : Nat) (at_var : mainParams[var]? = some param)
    (some : 0 < count) (inside : offset + count ≤ param.memSize) :
    (createParameters itemize mainParams).ReportsExactly var offset count ↔
      (createParameters itemize mainParams).LastTreeOnly var offset (offset + count) := by
  have forest := createParameters_forest itemize mainParams
  have size : mainSizes mainParams var = param.memSize := by simp [mainSizes, at_var]
  have range : offset < offset + count := Nat.lt_add_of_pos_right some
  generalize createParameters itemize mainParams = s at forest
  constructor
  · intro reports
    obtain ⟨n, map, marks⟩ := marks_of_reports reports
    obtain ⟨⟨root, here, main, top⟩, last⟩ := (forest.latest var n).mp map
    have told := inform_root forest range n root here
    refine ⟨n, root, here, main, top, last, ?_, ?_⟩
    · intro m q at_m same other elsewhere hit
      rcases ((told m).mp ((marks m).mpr ⟨q, at_m, same, hit⟩)).2 with rfl | ⟨member, _⟩
      · exact other rfl
      · obtain ⟨r, at_r, dependent⟩ := (forest.listed n m).mp member
        rw [at_m] at at_r
        cases at_r
        exact elsewhere dependent
    · intro none
      -- a root without bytes is not visited: it would be reported itself
      have unvisited : ¬ (offset < root.offset + root.memSize ∧ root.offset < offset + count) := by
        intro visited
        obtain ⟨q, at_n, _, hit⟩ := (marks n).mp ((told n).mpr ⟨visited, Or.inl rfl⟩)
        rw [here] at at_n
        cases at_n
        exact not_intersects_empty _ _ none hit
      constructor
      · rw [none, Nat.add_zero] at unvisited
        exact unvisited
      · intro m q at_m dependent hit
        obtain ⟨_, p, at_n, _, same, _⟩ := forest.leaf m q n at_m dependent
        rw [here] at at_n
        cases at_n
        exact unvisited ((told m).mp ((marks m).mpr ⟨q, at_m, same.symm.trans main, hit⟩)).1
  · rintro ⟨n, root, here, main, top, last, others, empty⟩
    have map : s.parameterMap var = Option.some n :=
      (forest.latest var n).mpr ⟨⟨root, here, main, top⟩, last⟩
    apply reports_marks map
    intro m
    rw [inform_root forest range n root here]
    constructor
    · rintro ⟨visited, rfl | ⟨member, q, at_m, hit⟩⟩
      · refine ⟨root, here, main, ?_⟩
        by_cases none : root.memSize = 0
        · rw [none, Nat.add_zero] at visited
          exact absurd visited (empty none).1
        · exact (intersects_iff (Nat.pos_of_ne_zero none) range).mpr visited
      · obtain ⟨r, at_r, dependent⟩ := (forest.listed n m).mp member
        rw [at_m] at at_r
        cases at_r
        obtain ⟨_, p, at_n, _, same, _⟩ := forest.leaf m q n at_m dependent
        rw [here] at at_n
        cases at_n
        exact ⟨q, at_m, same.symm.trans main, hit⟩
    · rintro ⟨q, at_m, same, hit⟩
      by_cases own : m = n
      · subst own
        rw [here] at at_m
        cases at_m
        -- what is hit has bytes
        have bytes : 0 < root.memSize := by
          by_contra none
          exact not_intersects_empty _ _ (by omega) hit
        exact ⟨(intersects_iff bytes range).mp hit, Or.inl rfl⟩
      · by_cases dependent : q.dependent = Option.some n
        · obtain ⟨_, p, at_n, _, _, covers⟩ := forest.leaf m q n at_m dependent
          rw [here] at at_n
          cases at_n
          refine ⟨?_, Or.inr ⟨(forest.listed n m).mpr ⟨q, at_m, dependent⟩, q, at_m, hit⟩⟩
          simp only [Intersects] at hit
          rcases covers with ⟨low, high⟩ | ⟨start, whole⟩ | none
          · omega
          · rw [main, size] at whole
            omega
          · exact absurd hit (by simpa only [Intersects] using (empty none).2 m q at_m dependent)
        · exact absurd hit (others m q at_m same own dependent)

/-- A vector of three numbers at `/v`. -/
def vectorParameter : MainParameter :=
  ⟨ascii "/v", .primary .double, ⟨[3], DimType.positive_three⟩⟩

theorem reportsExactly_vectorParameter :
    (createParameters true [vectorParameter]).ReportsExactly 0 8 8 ↔
      (createParameters true [vectorParameter]).LastTreeOnly 0 8 (8 + 8) :=
  reportsExactly_iff true [vectorParameter] 0 vectorParameter 8 8 rfl (by decide) (by decide)

/-- A structure of two numbers at `/s`. -/
def pairParameter : MainParameter :=
  ⟨ascii "/s", .compound 16 (.cons (ascii "a") (.primary .double) 0 .single
    (.cons (ascii "b") (.primary .double) 8 .single .nil)), .single⟩

/-- A write to the first field of a structure is reported to nobody. -/
theorem pairParameter_unreported :
    ¬ ∀ (itemize : Bool) (mainParams : List MainParameter) (var : Nat) (param : MainParameter)
      (offset count : Nat), mainParams[var]? = some param → 0 < count →
      offset + count ≤ param.memSize →
      (createParameters itemize mainParams).ReportsExactly var offset count := by
  intro claim
  obtain ⟨after, changed, exactly⟩ := claim true [pairParameter] 0 pairParameter 0 8 rfl (by decide)
    (by decide) [⟨false, []⟩]
  have silent : (createParameters true [pairParameter]).parameterChanged [⟨false, []⟩] 0 0 8 =
      some [⟨false, []⟩] := by decide
  rw [silent] at changed
  cases changed
  cases exactly with
  | cons session _ =>
      have marked : 0 ∈ ([] : List Nat) := by
        rw [session.2 0]
        exact Or.inr ⟨rfl, _, rfl, rfl, by decide⟩
      exact absurd marked (by simp)

end Server
end PdServ
