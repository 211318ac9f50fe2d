import PdServ.DirectoryPaths

/-!
`DirectoryNode::list`, with which a client looks around in the variable directory, and
what it can find this way: it lists a path, goes on with the paths it was told, and so
forth. `hidden` is that of the variables.
-/

namespace PdServ

/-- What is reported about a child, a variable by its own element. -/
inductive ListEntry where
  | variable (node : Nat)
  | dir (path : List Byte)
deriving DecidableEq, Repr

/-- `do name = split(path, pos) while (name.empty() and pos != name.npos)` -/
def nextName : (passes : Nat) → List Byte → Option (Name × Option (List Byte))
  | 0, _ => none
  | passes + 1, path =>
      match split path with
      | ([], some rest) => nextName passes rest
      | found => some found

namespace Directory

/-- The node whose children are listed; nothing where a name leads nowhere. -/
def listFrom (t : Directory) : (passes : Nat) → (self : Nat) → Option (List Byte) →
    Option (Option Nat)
  | 0, _, _ => none
  | _ + 1, self, none => some (some self)
  | passes + 1, self, some path => do
      let (name, pos) ← nextName (path.length + 1) path
      if name.isEmpty then some (some self)
      else match t.child self name with
        | some node => listFrom t passes node pos
        | none => some none

/-- What is reported about one child of the directory that has this path. -/
def entry (t : Directory) (hidden : Nat → Bool) (path : List Byte) (child : Name × Nat) :
    Option ListEntry :=
  if t.isVariable child.2 then if hidden child.2 then none else some (.variable child.2)
  else some (.dir (path ++ Chr.slash :: child.1))

/-- The loop over the children, in the order of their names. -/
def entries (t : Directory) (hidden : Nat → Bool) (self : Nat) : Option (List ListEntry) := do
  let dir ← t.nodes self
  let path ← t.path self
  some (dir.children.toList.filterMap (t.entry hidden path))

def list (t : Directory) (hidden : Nat → Bool) (path : List Byte) : Option (List ListEntry) := do
  match ← t.listFrom (path.length + 2) 0 (some path) with
  | some self => t.entries hidden self
  | none => some []

/-- The paths a client gets to know: those of directories, and those of variables, which
may have children too. -/
inductive Browsed (t : Directory) (hidden : Nat → Bool) : List Byte → Prop
  | root : Browsed t hidden []
  | dir {path entries next} : Browsed t hidden path → t.list hidden path = some entries →
      .dir next ∈ entries → Browsed t hidden next
  | variable {path entries node next} : Browsed t hidden path →
      t.list hidden path = some entries → .variable node ∈ entries →
      t.path node = some next → Browsed t hidden next

/-- Some listing the client gets reports the variable. -/
def Discovered (t : Directory) (hidden : Nat → Bool) (v : Nat) : Prop :=
  ∃ path entries, Browsed t hidden path ∧ t.list hidden path = some entries ∧
    .variable v ∈ entries

/-- No variable down to the last of these names is hidden. -/
def Shown (t : Directory) (hidden : Nat → Bool) (names : List Name) : Prop :=
  ∀ front, front <+: names → ∀ v, t.walk 0 front = some v → t.isVariable v = true →
    hidden v = false

/-! ### Where a path leads -/

theorem components_enough {passes more : Nat} {path : List Byte} (enough : path.length < passes)
    (also : path.length < more) : components passes path = components more path := by
  induction passes generalizing more path with
  | zero => omega
  | succ passes ih =>
      obtain ⟨more, rfl⟩ : ∃ n, more = n + 1 := ⟨more - 1, by omega⟩
      rw [components, components]
      cases next : (split path).2 with
      | none => simp [next]
      | some rest =>
          have shorter := split_shorter next
          have same : components passes rest = components more rest := ih (by omega) (by omega)
          simp [next, same]

/-- The names of a path, however many slashes are between them. -/
def namesOf (path : List Byte) : Option (List Name) := components (path.length + 1) path

def namesBehind : Option (List Byte) → Option (List Name)
  | none => some []
  | some rest => namesOf rest

theorem namesOf_split (path : List Byte) :
    namesOf path = (namesBehind (split path).2).map (push (split path).1) := by
  rw [namesOf, components]
  cases next : (split path).2 with
  | none => simp [namesBehind, next]
  | some rest =>
      have shorter := split_shorter next
      have same : components path.length rest = namesOf rest :=
        components_enough shorter (Nat.lt_succ_self _)
      simp [namesBehind, next, same]

/-- The loop stops at the first name, or behind the last one. -/
theorem nextName_spec (passes : Nat) (path : List Byte) (enough : path.length < passes) :
    (nextName passes path = some ([], none) ∧ namesOf path = some []) ∨
      ∃ name pos, name ≠ [] ∧ nextName passes path = some (name, pos) ∧
        (∀ rest, pos = some rest → rest.length < path.length) ∧
        namesOf path = (namesBehind pos).map (name :: ·) := by
  induction passes generalizing path with
  | zero => omega
  | succ passes ih =>
      have names := namesOf_split path
      rw [nextName]
      cases found : split path with
      | mk name pos =>
        rw [found] at names
        cases name with
        | nil =>
            have skipped : namesOf path = namesBehind pos := by
              rw [names]
              cases namesBehind pos <;> simp [push]
            cases pos with
            | none => exact .inl ⟨rfl, skipped⟩
            | some rest =>
                have shorter : rest.length < path.length := split_shorter (by rw [found])
                rcases ih rest (by omega) with ⟨next, none⟩ | ⟨name, pos, some, next, less, here⟩
                · exact .inl ⟨next, skipped.trans none⟩
                · refine .inr ⟨name, pos, some, next, fun more same => ?_, skipped.trans here⟩
                  have lessRest := less more same
                  omega
        | cons first others =>
            refine .inr ⟨first :: others, pos, by simp, rfl, fun rest same => ?_, ?_⟩
            · exact split_shorter (by rw [found, same])
            · rw [names]
              cases namesBehind pos <;> simp [push]

/-- A path is followed name by name. -/
theorem listFrom_walk (t : Directory) (passes : Nat) (self : Nat) (path : List Byte)
    (enough : path.length + 1 < passes) {names : List Name} (named : namesOf path = some names) :
    t.listFrom passes self (some path) = some (t.walk self names) := by
  induction passes generalizing self path names with
  | zero => omega
  | succ passes ih =>
      rw [listFrom]
      rcases nextName_spec (path.length + 1) path (Nat.lt_succ_self _) with
        ⟨next, none⟩ | ⟨name, pos, some, next, less, here⟩
      · rw [named] at none
        cases none
        simp [next, walk]
      · have given : name.isEmpty = false := by simpa using some
        rw [named] at here
        simp only [next, Option.bind_eq_bind, Option.bind_some, given, Bool.false_eq_true,
          if_false]
        cases pos with
        | none =>
            obtain ⟨passes, rfl⟩ : ∃ n, passes = n + 1 := ⟨passes - 1, by omega⟩
            cases here
            cases found : t.child self name with
            | none => simp [walk, found]
            | some node => simp [walk, found, listFrom]
        | some rest =>
            have shorter := less rest rfl
            obtain ⟨later, behind, rfl⟩ := Option.map_eq_some_iff.mp here.symm
            cases found : t.child self name with
            | none => simp [walk, found]
            | some node =>
                simp only [walk, found, Option.bind_eq_bind, Option.bind_some]
                exact ih node rest (by omega) behind

theorem namesOf_some (path : List Byte) :
    ∃ names, namesOf path = some names ∧ ∀ name ∈ names, Component name :=
  components_spec _ path (Nat.lt_succ_self _)

/-- The names of a written path are those it was written from. -/
theorem namesOf_written {names : List Name} (valid : ∀ name ∈ names, Component name) :
    namesOf (written names) = some names := by
  have inner (name : Name) (rest : List Name) (valid : ∀ n ∈ name :: rest, Component n) :
      namesOf (name ++ written rest) = some (name :: rest) := by
    induction rest generalizing name with
    | nil =>
        have component := valid name List.mem_cons_self
        have given : name.isEmpty = false := by simpa using component.1
        rw [written, List.flatMap_nil, List.append_nil, namesOf_split, split_last component]
        simp [namesBehind, push, given]
    | cons next rest ih =>
        have component := valid name List.mem_cons_self
        have follows := valid next (List.mem_cons_of_mem _ List.mem_cons_self)
        have given : name.isEmpty = false := by simpa using component.1
        have later := ih next fun n member => valid n (List.mem_cons_of_mem _ member)
        rw [written_cons, namesOf_split, split_inner component follows]
        simp [namesBehind, later, push, given]
  cases names with
  | nil => decide
  | cons name rest =>
      have component := valid name List.mem_cons_self
      obtain ⟨first, others, rfl⟩ := List.exists_cons_of_ne_nil component.1
      have other : (first == Chr.slash) = false := by
        simpa using slashless component first List.mem_cons_self
      have front : split (Chr.slash :: ((first :: others) ++ written rest)) =
          ([], some ((first :: others) ++ written rest)) := by
        simp [split, other]
      rw [written_cons, namesOf_split, front, namesBehind, inner _ rest valid]
      rfl

/-! ### What is listed -/

section

variable {t : Directory} {hidden : Nat → Bool}

theorem list_walk {path : List Byte} {names : List Name} (named : namesOf path = some names) :
    t.list hidden path = match t.walk 0 names with
      | some self => t.entries hidden self
      | none => some [] := by
  have leads := listFrom_walk t (path.length + 2) 0 path (by omega) named
  rw [list, leads]
  rfl

theorem mem_children {dir : DirectoryNode} {self node : Nat} {name : Name}
    (here : t.nodes self = some dir) :
    (name, node) ∈ dir.children.toList ↔ t.child self name = some node := by
  rw [Std.TreeMap.mem_toList_iff_getElem?_eq_some, child, here]
  rfl

theorem entry_variable {path : List Byte} {child : Name × Nat} {node : Nat} :
    t.entry hidden path child = some (.variable node) ↔
      child.2 = node ∧ t.isVariable node = true ∧ hidden node = false := by
  rw [entry]
  by_cases kind : t.isVariable child.2 = true
  · rw [if_pos kind]
    cases shown : hidden child.2 with
    | true =>
        refine ⟨fun reported => by simp at reported, ?_⟩
        rintro ⟨rfl, -, visible⟩
        rw [shown] at visible
        cases visible
    | false =>
        constructor
        · intro reported
          cases reported
          exact ⟨rfl, kind, shown⟩
        · rintro ⟨rfl, -⟩
          rfl
  · rw [if_neg kind]
    refine ⟨fun reported => by simp at reported, ?_⟩
    rintro ⟨rfl, variable_node, -⟩
    exact absurd variable_node kind

theorem entry_dir {path next : List Byte} {child : Name × Nat} :
    t.entry hidden path child = some (.dir next) ↔
      t.isVariable child.2 = false ∧ next = path ++ Chr.slash :: child.1 := by
  rw [entry]
  cases kind : t.isVariable child.2 with
  | true =>
      refine ⟨fun reported => ?_, fun other => by simp at other⟩
      rw [if_pos rfl] at reported
      split at reported <;> cases reported
  | false =>
      rw [if_neg Bool.false_ne_true]
      constructor
      · intro reported
        cases reported
        exact ⟨rfl, rfl⟩
      · rintro ⟨-, rfl⟩
        rfl

/-- The children that are reported, of a node that has a path. -/
theorem entries_spec (hidden : Nat → Bool) (sound : t.Sound []) {self : Nat} {names : List Name}
    (walks : t.walk 0 names = some self) :
    ∃ entries, t.entries hidden self = some entries ∧
      (∀ node, .variable node ∈ entries ↔ ∃ name, t.child self name = some node ∧
        t.isVariable node = true ∧ hidden node = false) ∧
      ∀ next, .dir next ∈ entries ↔ ∃ name node, t.child self name = some node ∧
        t.isVariable node = false ∧ next = written (names ++ [name]) := by
  obtain ⟨dir, here⟩ := sound.found (sound.walk_lt walks)
  have path := sound.path_of_walk walks
  refine ⟨dir.children.toList.filterMap (t.entry hidden (written names)), ?_, ?_, ?_⟩
  · simp [entries, here, path]
  · intro node
    rw [List.mem_filterMap]
    constructor
    · rintro ⟨⟨name, child⟩, member, reported⟩
      obtain ⟨rfl, kind, shown⟩ := entry_variable.mp reported
      exact ⟨name, (mem_children here).mp member, kind, shown⟩
    · rintro ⟨name, found, kind, shown⟩
      exact ⟨(name, node), (mem_children here).mpr found, entry_variable.mpr ⟨rfl, kind, shown⟩⟩
  · intro next
    have longer (name : Name) : written (names ++ [name]) = written names ++ Chr.slash :: name := by
      simp [written]
    rw [List.mem_filterMap]
    constructor
    · rintro ⟨⟨name, child⟩, member, reported⟩
      obtain ⟨kind, rfl⟩ := entry_dir.mp reported
      exact ⟨name, child, (mem_children here).mp member, kind, (longer name).symm⟩
    · rintro ⟨name, node, found, kind, rfl⟩
      exact ⟨(name, node), (mem_children here).mpr found, entry_dir.mpr ⟨kind, longer name⟩⟩

/-- Every path has a listing, if an empty one. -/
theorem list_some (sound : t.Sound []) (path : List Byte) :
    ∃ entries, t.list hidden path = some entries := by
  obtain ⟨names, named, -⟩ := namesOf_some path
  rw [list_walk named]
  cases walks : t.walk 0 names with
  | none => exact ⟨[], rfl⟩
  | some self =>
      obtain ⟨entries, listed, -⟩ := entries_spec hidden sound walks
      exact ⟨entries, listed⟩

/-- The listing under the path of a node. -/
theorem list_written (sound : t.Sound []) {self : Nat} {names : List Name}
    (walks : t.walk 0 names = some self) :
    t.list hidden (written names) = t.entries hidden self := by
  rw [list_walk (namesOf_written (sound.walk_components walks)), walks]

/-! ### Looking around -/

theorem Shown.snoc {names : List Name} {name : Name} (shown : t.Shown hidden names)
    (last : ∀ v, t.walk 0 (names ++ [name]) = some v → t.isVariable v = true → hidden v = false) :
    t.Shown hidden (names ++ [name]) := by
  intro front before v walks kind
  rcases List.prefix_concat_iff.mp before with same | shorter
  · exact last v (same ▸ walks) kind
  · exact shown front shorter v walks kind

theorem Shown.init {names : List Name} {name : Name} (shown : t.Shown hidden (names ++ [name])) :
    t.Shown hidden names := fun front before =>
  shown front (before.trans (List.prefix_append _ _))

/-- The paths a client gets to know are those of nodes that are not behind a hidden
variable. -/
theorem browsed_iff (sound : t.Sound []) (path : List Byte) :
    t.Browsed hidden path ↔ ∃ names self, t.walk 0 names = some self ∧ t.Shown hidden names ∧
      path = written names := by
  constructor
  · intro browsed
    induction browsed with
    | root =>
        refine ⟨[], 0, rfl, fun front before v walks kind => ?_, rfl⟩
        rw [List.prefix_nil.mp before] at walks
        cases walks
        rw [sound.directory] at kind
        cases kind
    | dir _ listed reported ih =>
        obtain ⟨names, self, walks, shown, rfl⟩ := ih
        obtain ⟨entries, here, -, dirs⟩ := entries_spec hidden sound walks
        rw [list_written sound walks, here] at listed
        cases listed
        obtain ⟨name, node, child, kind, rfl⟩ := (dirs _).mp reported
        have below := walk_snoc.mpr ⟨self, walks, child⟩
        refine ⟨names ++ [name], node, below, shown.snoc fun v there isVar => ?_, rfl⟩
        rw [below] at there
        cases there
        rw [kind] at isVar
        cases isVar
    | «variable» _ listed reported path ih =>
        obtain ⟨names, self, walks, shown, rfl⟩ := ih
        obtain ⟨entries, here, leaves, -⟩ := entries_spec hidden sound walks
        rw [list_written sound walks, here] at listed
        cases listed
        obtain ⟨name, child, -, visible⟩ := (leaves _).mp reported
        have below := walk_snoc.mpr ⟨self, walks, child⟩
        rw [sound.path_of_walk below] at path
        cases path
        refine ⟨names ++ [name], _, below, shown.snoc fun v there _ => ?_, rfl⟩
        rw [below] at there
        cases there
        exact visible
  · rintro ⟨names, self, walks, shown, rfl⟩
    induction names using List.reverseRecOn generalizing self with
    | nil => exact .root
    | append_singleton front name ih =>
        obtain ⟨p, first, child⟩ := walk_snoc.mp walks
        have known := ih p first shown.init
        obtain ⟨entries, here, leaves, dirs⟩ := entries_spec hidden sound first
        have listed := (list_written sound first).trans here
        cases kind : t.isVariable self with
        | true =>
            have visible := shown _ (List.prefix_refl _) self walks kind
            exact .variable known listed ((leaves self).mpr ⟨name, child, kind, visible⟩)
              (sound.path_of_walk walks)
        | false => exact .dir known listed ((dirs _).mpr ⟨name, self, child, kind, rfl⟩)

theorem discovered_of_shown (sound : t.Sound []) {v : Nat} {names : List Name}
    (walks : t.walk 0 names = some v) (kind : t.isVariable v = true)
    (shown : t.Shown hidden names) : t.Discovered hidden v := by
  cases names using List.reverseRecOn with
  | nil =>
      cases walks
      rw [sound.directory] at kind
      cases kind
  | append_singleton front name =>
      obtain ⟨p, first, child⟩ := walk_snoc.mp walks
      obtain ⟨entries, here, leaves, -⟩ := entries_spec hidden sound first
      have visible := shown _ (List.prefix_refl _) v walks kind
      exact ⟨written front, entries, (browsed_iff sound _).mpr ⟨front, p, first, shown.init, rfl⟩,
        (list_written sound first).trans here, (leaves v).mpr ⟨name, child, kind, visible⟩⟩

theorem shown_of_discovered (sound : t.Sound []) {v : Nat} (discovered : t.Discovered hidden v) :
    ∃ names, t.walk 0 names = some v ∧ t.Shown hidden names := by
  obtain ⟨path, entries, browsed, listed, reported⟩ := discovered
  obtain ⟨names, self, walks, shown, rfl⟩ := (browsed_iff sound path).mp browsed
  obtain ⟨found, here, leaves, -⟩ := entries_spec hidden sound walks
  rw [list_written sound walks, here] at listed
  cases listed
  obtain ⟨name, child, -, visible⟩ := (leaves v).mp reported
  have below := walk_snoc.mpr ⟨self, walks, child⟩
  refine ⟨names ++ [name], below, shown.snoc fun w there _ => ?_⟩
  rw [below] at there
  cases there
  exact visible

end

open Transition

theorem run_sound {t : Directory}
    (run : Reaches step (fun t i => t.Allowed i ∧ t.Clear i) new t) : t.Sound [] := by
  apply run.invariant
  · exact Sound.new
  · intro before insertion after sound fine done
    obtain ⟨result, ran, still⟩ := sound.step insertion fine.1 fine.2
    rw [done] at ran
    cases ran
    exact still

/-- Where no number was taken twice and no name given to `create` and `insert` has a slash
in it, a client that lists what it is told discovers a variable if and only if neither the
variable nor one above it is hidden: what is below a hidden variable is hidden with it. -/
theorem discovered_iff {t : Directory}
    (run : Reaches step (fun t i => t.Allowed i ∧ t.Clear i) new t) (hidden : Nat → Bool) :
    (∀ path, ∃ entries, t.list hidden path = some entries) ∧
      ∀ v, t.isVariable v = true →
        (t.Discovered hidden v ↔ ∀ names, t.walk 0 names = some v → t.Shown hidden names) := by
  have sound := run_sound run
  refine ⟨list_some sound, fun v kind => ?_⟩
  constructor
  · intro discovered names walks
    obtain ⟨found, there, shown⟩ := shown_of_discovered sound discovered
    rw [sound.walk_unique walks there]
    exact shown
  · intro shown
    have inside : v < t.next := by
      rw [← sound.live]
      cases entry : t.nodes v with
      | none => simp [isVariable, entry] at kind
      | some node => rfl
    obtain ⟨names, walks⟩ := sound.placed v inside (by simp)
    exact discovered_of_shown sound walks kind (shown names walks)

/-- A variable below another one. -/
def nested : List Insertion := [.pathInsert 0 (ascii "/a/p"), .pathInsert 0 (ascii "//a/p/q/")]

/-- With the upper one hidden, the lower one is not discovered. -/
theorem discovered_iff_nested :
    ∃ t, Reaches step (fun t i => t.Allowed i ∧ t.Clear i) new t ∧
      t.path 3 = some (ascii "/a/p/q") ∧
      ((∀ path, ∃ entries, t.list (fun v => v == 1) path = some entries) ∧
      ∀ v, t.isVariable v = true → (t.Discovered (fun v => v == 1) v ↔
        ∀ names, t.walk 0 names = some v → t.Shown (fun v => v == 1) names)) := by
  have evaluated : ((perform step (fun t i => decide (t.Allowed i ∧ t.Clear i)) nested new).map
      fun t => t.path 3) = some (some (ascii "/a/p/q")) := by decide
  obtain ⟨t, ran, path⟩ := Option.map_eq_some_iff.mp evaluated
  have reached : Reaches step (fun t i => t.Allowed i ∧ t.Clear i) new t :=
    Reaches.perform (fun _ _ fine => of_decide_eq_true fine) .start ran
  exact ⟨t, reached, path, discovered_iff reached fun v => v == 1⟩

end Directory
end PdServ
