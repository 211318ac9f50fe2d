import PdServ.ParameterTree

/-!
The shape of what the server has built: per application parameter a list of roots,
each with leaves ordered by offset that lie within it. `parameterMap` leads to the
last root only, so a write is reported for the tree of that root.
-/

namespace PdServ

open DataType Iterator CreateParameter

namespace Server

/-- Two ranges of bytes have a byte in common. -/
def Intersects (p : Parameter) (first last : Nat) : Prop :=
  max first p.offset < min last (p.offset + p.memSize)

instance (p : Parameter) (first last : Nat) : Decidable (Intersects p first last) :=
  inferInstanceAs (Decidable (_ < _))

def IsRoot (s : Server) (var n : Nat) : Prop :=
  ∃ p, s.parameters[n]? = some p ∧ p.mainParam = var ∧ p.dependent = none

/-- A leaf of `bytes` bytes at `offset` is seen wherever its root is: it lies within
the root, or the root is all of the application's parameter, or has no bytes. -/
def Covers (mainSize : Nat) (root : Parameter) (offset bytes : Nat) : Prop :=
  (root.offset ≤ offset ∧ offset + bytes ≤ root.offset + root.memSize) ∨
    (root.offset = 0 ∧ root.memSize = mainSize) ∨ root.memSize = 0

structure Forest (mainSize : Nat → Nat) (s : Server) : Prop where
  listed : ∀ n m, m ∈ s.children n ↔ ∃ q, s.parameters[m]? = some q ∧ q.dependent = some n
  leaf : ∀ (m : Nat) (q : Parameter) (n : Nat), s.parameters[m]? = some q → q.dependent = some n → 0 < q.memSize ∧
    ∃ p, s.parameters[n]? = some p ∧ p.dependent = none ∧ p.mainParam = q.mainParam ∧
      Covers (mainSize p.mainParam) p q.offset q.memSize
  sorted : ∀ n, (s.children n).Pairwise fun i j => ∀ p q : Parameter, s.parameters[i]? = some p →
    s.parameters[j]? = some q → p.offset ≤ q.offset
  latest : ∀ var n, s.parameterMap var = some n ↔
    s.IsRoot var n ∧ ∀ m, s.IsRoot var m → m ≤ n

/-! ### Adding a parameter -/

theorem getElem?_push {parameters : List Parameter} {p q : Parameter} {m : Nat} :
    (parameters ++ [p])[m]? = some q ↔
      parameters[m]? = some q ∨ m = parameters.length ∧ p = q := by
  rcases Nat.lt_trichotomy m parameters.length with below | same | above
  · rw [List.getElem?_append_left below]
    constructor
    · exact Or.inl
    · rintro (here | ⟨rfl, _⟩)
      · exact here
      · exact absurd below (Nat.lt_irrefl _)
  · subst same
    simp
  · rw [List.getElem?_eq_none (by simp; omega), List.getElem?_eq_none (Nat.le_of_lt above)]
    simp
    omega

theorem Forest.old_of_listed {mainSize : Nat → Nat} {s : Server} {p a : Parameter} {n m : Nat}
    (forest : Forest mainSize s) (member : m ∈ s.children n)
    (here : (s.parameters ++ [p])[m]? = some a) : s.parameters[m]? = some a := by
  obtain ⟨q, old, _⟩ := (forest.listed n m).mp member
  rcases getElem?_push.mp here with same | ⟨length, _⟩
  · exact same
  · have below := (List.getElem?_eq_some_iff.mp old).1
    omega

theorem push_root {mainSize : Nat → Nat} {s : Server} {p : Parameter}
    (forest : Forest mainSize s) (root : p.dependent = none) :
    Forest mainSize { s with
      parameters := s.parameters ++ [p]
      parameterMap := Function.update s.parameterMap p.mainParam (some s.parameters.length) } where
  listed := by
    intro n m
    rw [forest.listed n m]
    constructor
    · rintro ⟨q, here, dependent⟩
      exact ⟨q, getElem?_push.mpr (Or.inl here), dependent⟩
    · rintro ⟨q, here, dependent⟩
      rcases getElem?_push.mp here with old | ⟨_, rfl⟩
      · exact ⟨q, old, dependent⟩
      · rw [root] at dependent
        cases dependent
  leaf := by
    intro m q n here dependent
    rcases getElem?_push.mp here with old | ⟨_, rfl⟩
    · obtain ⟨bytes, r, at_root, rest⟩ := forest.leaf m q n old dependent
      exact ⟨bytes, r, getElem?_push.mpr (Or.inl at_root), rest⟩
    · rw [root] at dependent
      cases dependent
  sorted := by
    intro n
    refine (forest.sorted n).imp_of_mem ?_
    intro i j first second ordered a b at_i at_j
    exact ordered a b (forest.old_of_listed first at_i) (forest.old_of_listed second at_j)
  latest := by
    intro var n
    by_cases same : p.mainParam = var
    · subst same
      simp only [Function.update_self, Option.some.injEq]
      constructor
      · rintro rfl
        refine ⟨⟨p, by simp, rfl, root⟩, ?_⟩
        rintro m ⟨q, here, _⟩
        rcases getElem?_push.mp here with old | ⟨here, _⟩
        · exact Nat.le_of_lt (List.getElem?_eq_some_iff.mp old).1
        · exact Nat.le_of_eq here
      · rintro ⟨⟨q, here, _⟩, last⟩
        have above := last s.parameters.length ⟨p, by simp, rfl, root⟩
        rcases getElem?_push.mp here with old | ⟨here, _⟩
        · have below := (List.getElem?_eq_some_iff.mp old).1
          omega
        · exact here.symm
    · -- the roots of the other parameters stay
      have others : ∀ m, IsRoot { s with
          parameters := s.parameters ++ [p]
          parameterMap := Function.update s.parameterMap p.mainParam (some s.parameters.length) }
          var m ↔ s.IsRoot var m := by
        intro m
        constructor
        · rintro ⟨q, here, main, dependent⟩
          rcases getElem?_push.mp here with old | ⟨_, rfl⟩
          · exact ⟨q, old, main, dependent⟩
          · exact absurd main same
        · rintro ⟨q, here, main, dependent⟩
          exact ⟨q, getElem?_push.mpr (Or.inl here), main, dependent⟩
      simp only [others, Function.update_of_ne (Ne.symm same)]
      exact forest.latest var n

/-- A leaf joins the children of its root, behind all of them. -/
theorem push_leaf {mainSize : Nat → Nat} {s : Server} {p root : Parameter} {n : Nat}
    (forest : Forest mainSize s) (dependent : p.dependent = some n)
    (at_root : s.parameters[n]? = some root) (top : root.dependent = none)
    (main : root.mainParam = p.mainParam) (bytes : 0 < p.memSize)
    (covers : Covers (mainSize root.mainParam) root p.offset p.memSize)
    (behind : ∀ m ∈ s.children n, ∀ q : Parameter, s.parameters[m]? = some q →
      q.offset ≤ p.offset) :
    Forest mainSize { s with
      parameters := s.parameters ++ [p]
      children := Function.update s.children n (s.children n ++ [s.parameters.length]) } where
  listed := by
    intro k m
    have olds : m ∈ s.children k ↔ ∃ q, s.parameters[m]? = some q ∧ q.dependent = some k :=
      forest.listed k m
    by_cases same : k = n
    · subst same
      simp only [Function.update_self, List.mem_append, List.mem_singleton, olds]
      constructor
      · rintro (⟨q, here, under⟩ | rfl)
        · exact ⟨q, getElem?_push.mpr (Or.inl here), under⟩
        · exact ⟨p, by simp, dependent⟩
      · rintro ⟨q, here, under⟩
        rcases getElem?_push.mp here with old | ⟨here, _⟩
        · exact Or.inl ⟨q, old, under⟩
        · exact Or.inr here
    · simp only [Function.update_of_ne same, olds]
      constructor
      · rintro ⟨q, here, under⟩
        exact ⟨q, getElem?_push.mpr (Or.inl here), under⟩
      · rintro ⟨q, here, under⟩
        rcases getElem?_push.mp here with old | ⟨_, rfl⟩
        · exact ⟨q, old, under⟩
        · rw [dependent] at under
          exact absurd (Option.some.inj under).symm same
  leaf := by
    intro m q k here under
    rcases getElem?_push.mp here with old | ⟨_, rfl⟩
    · obtain ⟨some, r, at_r, rest⟩ := forest.leaf m q k old under
      exact ⟨some, r, getElem?_push.mpr (Or.inl at_r), rest⟩
    · rw [dependent] at under
      cases under
      exact ⟨bytes, root, getElem?_push.mpr (Or.inl at_root), top, main, covers⟩
  sorted := by
    intro k
    have olds : (s.children k).Pairwise fun i j => ∀ a b : Parameter,
        (s.parameters ++ [p])[i]? = some a → (s.parameters ++ [p])[j]? = some b →
        a.offset ≤ b.offset := by
      refine (forest.sorted k).imp_of_mem ?_
      intro i j first second ordered a b at_i at_j
      exact ordered a b (forest.old_of_listed first at_i) (forest.old_of_listed second at_j)
    by_cases same : k = n
    · subst same
      simp only [Function.update_self]
      apply List.pairwise_append.mpr
      refine ⟨olds, List.pairwise_singleton _ _, ?_⟩
      intro i first j second a b at_i at_j
      -- the new leaf is the last one, and no other begins behind it
      rw [List.mem_singleton.mp second] at at_j
      have last : p = b := by simpa using at_j
      rw [← last]
      exact behind i first a (forest.old_of_listed first at_i)
    · simp only [Function.update_of_ne same]
      exact olds
  latest := by
    intro var k
    have others : ∀ m, IsRoot { s with
        parameters := s.parameters ++ [p]
        children := Function.update s.children n (s.children n ++ [s.parameters.length]) } var m ↔
        s.IsRoot var m := by
      intro m
      constructor
      · rintro ⟨q, here, main, under⟩
        rcases getElem?_push.mp here with old | ⟨_, rfl⟩
        · exact ⟨q, old, main, under⟩
        · rw [dependent] at under
          cases under
      · rintro ⟨q, here, main, under⟩
        exact ⟨q, getElem?_push.mpr (Or.inl here), main, under⟩
    simp only [others]
    exact forest.latest var k

/-! ### The leaves of a root -/

/-- While the leaves of root `n` are being made: those there are lie at most at `low`. -/
structure Growing (mainSize : Nat → Nat) (s : Server) (n : Nat) (root : Parameter) (low : Nat) :
    Prop where
  itemize : s.itemize = true
  forest : Forest mainSize s
  at_root : s.parameters[n]? = some root
  top : root.dependent = none
  behind : ∀ m ∈ s.children n, ∀ q : Parameter, s.parameters[m]? = some q → q.offset ≤ low

theorem Growing.mono {mainSize : Nat → Nat} {s : Server} {n low high : Nat} {root : Parameter}
    (growing : Growing mainSize s n root low) (le : low ≤ high) :
    Growing mainSize s n root high :=
  ⟨growing.itemize, growing.forest, growing.at_root, growing.top,
    fun m member q here => Nat.le_trans (growing.behind m member q here) le⟩

/-- The parameter made for a part of the application's parameter `var`. -/
structure MadeFor (p : Parameter) (var : Nat) (dtype : DataType) (dim : DimType) (offset : Nat)
    (parent : Option Nat) : Prop where
  mainParam : p.mainParam = var
  memSize : p.memSize = dtype.size * dim.nelem
  offset : p.offset = offset
  dependent : p.dependent = parent

theorem parameter_made (dtype : DataType) (dim : DimType) (offset : Nat) (c : CreateParameter)
    (s : Server) :
    MadeFor (parameter dtype dim offset c s) c.var dtype dim offset c.parentParameter := by
  cases itemize : s.itemize with
  | false =>
      simp only [parameter, itemize, Bool.false_eq_true, ↓reduceIte]
      exact ⟨rfl, rfl, rfl, rfl⟩
  | true =>
      simp only [parameter, itemize, ↓reduceIte]
      exact ⟨rfl, rfl, rfl, rfl⟩

theorem createVariable_child (dtype : DataType) (dim : DimType) (offset n : Nat)
    (c : CreateParameter) (s : Server) (parent : c.parentParameter = some n) :
    (createVariable dtype dim offset c s).2.2 = { s with
      parameters := s.parameters ++ [parameter dtype dim offset c s]
      children := Function.update s.children n (s.children n ++ [s.parameters.length]) } := by
  simp [createVariable, addChild, parent]

theorem createVariable_root (dtype : DataType) (dim : DimType) (offset : Nat)
    (c : CreateParameter) (s : Server) (parent : c.parentParameter = none) :
    (createVariable dtype dim offset c s).2.2 = { s with
      parameters := s.parameters ++ [parameter dtype dim offset c s]
      parameterMap := Function.update s.parameterMap c.var (some s.parameters.length) } := by
  simp [createVariable, addChild, parent]

theorem createVariable_leaf {mainSize : Nat → Nat} {s : Server} {n offset : Nat}
    {root : Parameter} {c : CreateParameter} (dtype : DataType)
    (growing : Growing mainSize s n root offset) (parent : c.parentParameter = some n)
    (var : c.var = root.mainParam) (bytes : 0 < dtype.size)
    (covers : Covers (mainSize root.mainParam) root offset dtype.size) :
    Growing mainSize (createVariable dtype .single offset c s).2.2 n root offset := by
  obtain ⟨itemize, forest, at_root, top, behind⟩ := growing
  have made := parameter_made dtype .single offset c s
  rw [parent] at made
  have size := made.memSize.trans (Nat.mul_one _)
  rw [createVariable_child dtype .single offset n c s parent]
  generalize parameter dtype .single offset c s = p at made size
  constructor
  case itemize =>
    exact itemize
  case forest =>
    apply push_leaf forest made.dependent at_root top
    · rw [made.mainParam, var]
    · rw [size]
      exact bytes
    · rw [size, made.offset]
      exact covers
    · rw [made.offset]
      exact behind
  case at_root =>
    exact getElem?_push.mpr (Or.inl at_root)
  case top =>
    exact top
  case behind =>
    intro m member q here
    simp only [Function.update_self, List.mem_append, List.mem_singleton] at member
    rcases member with old | rfl
    · exact behind m old q (forest.old_of_listed old here)
    · have last : p = q := by simpa using here
      exact Nat.le_of_eq (by rw [← last, made.offset])

/-- The rounds of the loop over one dimension, each within its own stride. -/
theorem iterateDims_growing {mainSize : Nat → Nat} {n : Nat} {root : Parameter}
    (dtype : DataType) (dim : DimType) (dimIdx dtypeSize bound : Nat)
    (dispatch : Nat → CreateParameter → Nat → Server → Server)
    (grows : ∀ i (c : CreateParameter) offset s, c.parentParameter = some n →
      c.var = root.mainParam → root.offset ≤ offset → offset + dtypeSize ≤ bound →
      Growing mainSize s n root offset →
      Growing mainSize (dispatch i c offset s) n root (offset + dtypeSize))
    (left i : Nat) (c : CreateParameter) (offset : Nat) (s : Server)
    (parent : c.parentParameter = some n) (var : c.var = root.mainParam)
    (low : root.offset ≤ offset) (room : offset + left * dtypeSize ≤ bound)
    (growing : Growing mainSize s n root offset) :
    Growing mainSize (iterateDims visitor dtype dim dimIdx dtypeSize dispatch left i c offset s) n
      root (offset + left * dtypeSize) := by
  induction left generalizing i c offset s with
  | zero => exact growing.mono (Nat.le_add_right _ _)
  | succ left ih =>
      rw [Nat.succ_mul] at room
      have round := grows i (visitor.copy (visitor.newDimension dtype dim dimIdx i offset c s).1)
        offset s parent var low (by omega) growing
      have rest := ih (i + 1) { c with name := ascii (toString i) } (offset + dtypeSize) _ parent var
        (by omega) (by omega) round
      have place : offset + (left + 1) * dtypeSize = offset + dtypeSize + left * dtypeSize := by
        rw [Nat.succ_mul]
        omega
      rw [place, iterateDims]
      exact rest

theorem dispatchDims_growing {mainSize : Nat → Nat} {n bound : Nat} {root : Parameter}
    (kind : Primary) (dim : DimType) (array : dim.isScalar = false)
    (covers : ∀ o, root.offset ≤ o → o ≤ bound →
      Covers (mainSize root.mainParam) root o kind.size)
    (unwalked : List Nat) (dtypeSize dimIdx elemIdx : Nat) (c : CreateParameter) (offset : Nat)
    (s : Server) (inside : dimIdx ≠ 0) (behind : unwalked = dim.dims.drop dimIdx)
    (within : dimIdx ≤ dim.dims.length)
    (parent : c.parentParameter = some n) (var : c.var = root.mainParam)
    (low : root.offset ≤ offset) (room : offset + dtypeSize ≤ bound)
    (growing : Growing mainSize s n root offset) :
    Growing mainSize (dispatchDims visitor (.primary kind) dim (fun _ _ s => s) unwalked dtypeSize
      dimIdx elemIdx c offset s) n root (offset + dtypeSize) := by
  have itemize := growing.itemize
  induction unwalked generalizing dtypeSize dimIdx elemIdx c offset s with
  | nil =>
      have last : dimIdx = dim.dims.length := by
        have length := congrArg List.length behind
        rw [List.length_nil, List.length_drop] at length
        omega
      have made : visitor.newVariable (.primary kind) dim dimIdx elemIdx offset c s =
          createVariable (.primary kind) .single offset c s := by
        simp only [visitor, newVariable, isPrimary, ↓reduceIte]
        rw [if_neg (by simp [inside, itemize]), if_pos last]
      have leaf := createVariable_leaf (.primary kind) growing parent var (by cases kind <;> decide)
        (covers offset low (by omega))
      rw [dispatchDims, made, ite_self]
      exact leaf.mono (Nat.le_add_right _ _)
  | cons d rest ih =>
      have earlier : dimIdx < dim.dims.length := by
        have length := congrArg List.length behind
        rw [List.length_cons, List.length_drop] at length
        omega
      have skipped : visitor.newVariable (.primary kind) dim dimIdx elemIdx offset c s =
          (false, c, s) := by
        simp [visitor, newVariable, isPrimary, inside, itemize, Nat.ne_of_lt earlier]
      have next : rest = dim.dims.drop (dimIdx + 1) := by
        rw [← List.tail_drop, ← behind]
        rfl
      have fits : d * (dtypeSize / d) ≤ dtypeSize := Nat.mul_div_le _ _
      have rounds := iterateDims_growing (.primary kind) dim (dimIdx + 1) (dtypeSize / d) bound
        (fun i c offset s => dispatchDims visitor (.primary kind) dim (fun _ _ s => s) rest
          (dtypeSize / d) (dimIdx + 1) i c offset s)
        (fun i c offset s parent var low room growing => ih (dtypeSize / d) (dimIdx + 1) i c offset s
          (Nat.succ_ne_zero _) next earlier parent var low room growing growing.itemize)
        d 0 c offset s parent var low (by omega) growing
      rw [dispatchDims, skipped]
      simp only [Bool.false_eq_true, ↓reduceIte, array, Bool.not_false]
      exact rounds.mono (by omega)

/-! ### The roots -/

/-- Where the walk enters the elements of a parameter: at the application's parameter
itself, or at a field, which it starts with the size of one element. -/
def Entered (mainSize : Nat → Nat) (var : Nat) (dtype : DataType) (dim : DimType)
    (dtypeSize offset : Nat) : Prop :=
  (offset = 0 ∧ dtype.size * dim.nelem = mainSize var) ∨ dtypeSize = dtype.size

theorem covers_entered {mainSize : Nat → Nat} {var dtypeSize offset : Nat} {dtype : DataType}
    {dim : DimType} {root : Parameter} (entered : Entered mainSize var dtype dim dtypeSize offset)
    (made : MadeFor root var dtype dim offset none) (array : dim.isScalar = false) (o : Nat)
    (low : root.offset ≤ o) (high : o ≤ offset + dtypeSize) :
    Covers (mainSize root.mainParam) root o dtype.size := by
  rw [made.offset] at low
  rcases entered with ⟨start, whole⟩ | one
  · right
    left
    rw [made.offset, made.memSize, made.mainParam]
    exact ⟨start, whole⟩
  · by_cases none : dim.nelem = 0
    · right
      right
      rw [made.memSize, none, Nat.mul_zero]
    · left
      have several : 2 ≤ dim.nelem := by
        have other : dim.nelem ≠ 1 := by
          intro single
          rw [(DimType.isScalar_iff dim).mpr single] at array
          cases array
        omega
      have room : dtype.size * 2 ≤ dtype.size * dim.nelem := Nat.mul_le_mul_left _ several
      rw [made.offset, made.memSize]
      omega

theorem dispatch_primary {mainSize : Nat → Nat} (kind : Primary) (dim : DimType)
    (dtypeSize : Nat) (c : CreateParameter) (offset : Nat) (s : Server)
    (forest : Forest mainSize s) (parent : c.parentParameter = none)
    (entered : Entered mainSize c.var (.primary kind) dim dtypeSize offset) :
    Forest mainSize (dispatch visitor (.primary kind) dtypeSize dim c offset s) := by
  have result : visitor.newVariable (.primary kind) dim 0 0 offset c s =
      createVariable (.primary kind) dim offset c s := by
    simp [visitor, newVariable, isPrimary]
  have made := parameter_made (.primary kind) dim offset c s
  rw [parent] at made
  have state := createVariable_root (.primary kind) dim offset c s parent
  have rooted : Forest mainSize (createVariable (.primary kind) dim offset c s).2.2 := by
    rw [state, ← made.mainParam]
    exact push_root forest made.dependent
  rw [dispatch]
  cases unwalked : dim.dims with
  | nil =>
      rw [dispatchDims, result, ite_self]
      exact rooted
  | cons d rest =>
      rw [dispatchDims, result]
      by_cases stops : (createVariable (.primary kind) dim offset c s).1 = true
      · rw [if_pos stops]
        exact rooted
      · rw [if_neg stops]
        by_cases scalar : dim.isScalar = true
        · rw [if_neg (by simp [scalar])]
          exact rooted
        · rw [if_pos (by simpa using scalar)]
          have array : dim.isScalar = false := by simpa using scalar
          have itemize : s.itemize = true := by
            by_contra whole
            exact stops (by simp [createVariable, whole])
          have growing : Growing mainSize (createVariable (.primary kind) dim offset c s).2.2
              s.parameters.length (parameter (.primary kind) dim offset c s) offset := by
            constructor
            case itemize =>
              rw [state]
              exact itemize
            case forest =>
              exact rooted
            case at_root =>
              rw [state]
              simp
            case top =>
              exact made.dependent
            case behind =>
              intro m member q here
              rw [state] at member
              obtain ⟨p, old, dependent⟩ := (forest.listed _ m).mp member
              obtain ⟨_, r, at_root, _⟩ := forest.leaf m p _ old dependent
              simp at at_root
          have leaves := iterateDims_growing (.primary kind) dim 1 (dtypeSize / d)
            (offset + dtypeSize)
            (fun i c offset s => dispatchDims visitor (.primary kind) dim (fun _ _ s => s) rest
              (dtypeSize / d) 1 i c offset s)
            (fun i c o s parent var low room growing =>
              dispatchDims_growing kind dim array (covers_entered entered made array) rest
                (dtypeSize / d) 1 i c o s Nat.one_ne_zero (by rw [unwalked]; rfl)
                (by rw [unwalked]; simp) parent var low room growing)
            d 0 (createVariable (.primary kind) dim offset c s).2.1 offset _ rfl
            (by rw [made.mainParam]; rfl) (Nat.le_of_eq made.offset)
            (by have fits : d * (dtypeSize / d) ≤ dtypeSize := Nat.mul_div_le _ _
                omega) growing
          exact leaves.forest

/-! ### The walk over a compound -/

theorem iterateDims_forest {mainSize : Nat → Nat} (dtype : DataType) (dim : DimType)
    (dimIdx dtypeSize var : Nat) (dispatch : Nat → CreateParameter → Nat → Server → Server)
    (keeps : ∀ i (c : CreateParameter) offset s, c.parentParameter = none → c.var = var →
      Forest mainSize s → Forest mainSize (dispatch i c offset s))
    (left i : Nat) (c : CreateParameter) (offset : Nat) (s : Server)
    (parent : c.parentParameter = none) (same : c.var = var) (forest : Forest mainSize s) :
    Forest mainSize
      (iterateDims visitor dtype dim dimIdx dtypeSize dispatch left i c offset s) := by
  induction left generalizing i c offset s with
  | zero => exact forest
  | succ left ih =>
      rw [iterateDims]
      apply ih
      · exact parent
      · exact same
      · exact keeps _ _ _ _ parent same forest

theorem dispatchDims_forest {mainSize : Nat → Nat} (size : Nat) (fieldList : FieldList)
    (dim : DimType) (var : Nat) (fields : CreateParameter → Nat → Server → Server)
    (keeps : ∀ (c : CreateParameter) offset s, c.parentParameter = none → c.var = var →
      Forest mainSize s → Forest mainSize (fields c offset s))
    (unwalked : List Nat) (dtypeSize dimIdx elemIdx : Nat) (c : CreateParameter) (offset : Nat)
    (s : Server) (parent : c.parentParameter = none) (same : c.var = var)
    (forest : Forest mainSize s) :
    Forest mainSize (dispatchDims visitor (.compound size fieldList) dim fields unwalked dtypeSize
      dimIdx elemIdx c offset s) := by
  have passed : ∀ dimIdx elemIdx offset (c : CreateParameter) s,
      visitor.newVariable (.compound size fieldList) dim dimIdx elemIdx offset c s =
        (false, c, s) := by
    intro dimIdx elemIdx offset c s
    simp [visitor, newVariable, isPrimary]
  induction unwalked generalizing dtypeSize dimIdx elemIdx c offset s with
  | nil =>
      rw [dispatchDims, passed]
      exact keeps c offset s parent same forest
  | cons d rest ih =>
      rw [dispatchDims, passed]
      by_cases scalar : dim.isScalar = true
      · rw [if_neg (by simp), if_neg (by simp [scalar])]
        exact keeps c offset s parent same forest
      · rw [if_neg (by simp), if_pos (by simpa using scalar)]
        exact iterateDims_forest _ dim _ _ var _
          (fun i c offset s parent same forest => ih _ _ i c offset s parent same forest)
          d 0 c offset s parent same forest

mutual
theorem dispatch_forest {mainSize : Nat → Nat} (dtype : DataType) (dim : DimType)
    (dtypeSize : Nat) (c : CreateParameter) (offset : Nat) (s : Server)
    (forest : Forest mainSize s) (parent : c.parentParameter = none)
    (entered : Entered mainSize c.var dtype dim dtypeSize offset) :
    Forest mainSize (dispatch visitor dtype dtypeSize dim c offset s) := by
  cases dtype with
  | primary kind => exact dispatch_primary kind dim dtypeSize c offset s forest parent entered
  | compound size fieldList =>
      rw [dispatch]
      exact dispatchDims_forest size fieldList dim c.var _
        (fun b offset s parent _ forest => iterateFields_forest fieldList b offset s forest parent)
        dim.dims dtypeSize 0 0 c offset s parent rfl forest
theorem iterateFields_forest {mainSize : Nat → Nat} (fieldList : FieldList)
    (c : CreateParameter) (offset : Nat) (s : Server) (forest : Forest mainSize s)
    (parent : c.parentParameter = none) :
    Forest mainSize (iterateFields visitor fieldList c offset s) := by
  cases fieldList with
  | nil => exact forest
  | cons name type fieldOffset dim rest =>
      rw [iterateFields]
      refine iterateFields_forest rest _ offset _ ?_ ?_
      · exact dispatch_forest type dim type.size _ _ _ forest parent (Or.inr rfl)
      · exact parent
end

/-- The sizes of the application's parameters. -/
def mainSizes (mainParams : List MainParameter) (var : Nat) : Nat :=
  (mainParams[var]?.map MainParameter.memSize).getD 0

theorem forest_empty (mainSize : Nat → Nat) (itemize : Bool) :
    Forest mainSize ⟨itemize, [], fun _ => [], fun _ => none⟩ where
  listed := by simp
  leaf := by simp
  sorted := by simp
  latest := by
    intro var n
    simp [IsRoot]

theorem createParameters_forest (itemize : Bool) (mainParams : List MainParameter) :
    Forest (mainSizes mainParams) (createParameters itemize mainParams) := by
  have steps : ∀ (built : List (MainParameter × Nat)) (s : Server),
      (∀ p ∈ built, mainSizes mainParams p.2 = p.1.memSize) → Forest (mainSizes mainParams) s →
      Forest (mainSizes mainParams) (built.foldl (fun s p => s.createParameter p.2 p.1) s) := by
    intro built
    induction built with
    | nil => exact fun s _ forest => forest
    | cons p rest ih =>
        intro s sizes forest
        apply ih _ fun q member => sizes q (List.mem_cons_of_mem p member)
        apply dispatch_forest _ _ _ _ _ _ forest rfl
        left
        refine ⟨rfl, ?_⟩
        have size := sizes p List.mem_cons_self
        rw [MainParameter.memSize, Nat.mul_comm] at size
        exact size.symm
  apply steps
  · intro p member
    rw [List.mem_zipIdx_iff_getElem?] at member
    simp [mainSizes, member]
  · exact forest_empty _ itemize

end Server
end PdServ
