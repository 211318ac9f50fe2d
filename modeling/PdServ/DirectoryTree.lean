import PdServ.DirectoryNode
import Mathlib.Data.Finset.Card
import Mathlib.Data.Finset.Range
import Mathlib.Data.List.TakeWhile

/-!
What the pointers of the directory look like between two insertions. `child`
follows a key down, `home` tells the parent and the key a node was adopted
under; in a sound directory the two agree and every node is below the root, at
one list of names only. The operations are described by what they do to both.
-/

namespace PdServ
namespace Directory

open Std TreeUpdate

def home (t : Directory) (self : Nat) : Option (Nat × Name) :=
  (t.nodes self).map fun node => (node.parent, node.name)

def childCount (t : Directory) (self : Nat) : Option Nat :=
  (t.nodes self).map fun node => node.children.size

def walk (t : Directory) : Nat → List Name → Option Nat
  | self, [] => some self
  | self, name :: rest => do
      let next ← t.child self name
      walk t next rest

/-- A name that `split` can give. -/
def Component (name : Name) : Prop := name ≠ [] ∧ Chr.slash ∉ name

/-- The nodes of `pending` are not adopted yet. -/
structure Sound (t : Directory) (pending : List Nat) : Prop where
  live : ∀ a, (t.nodes a).isSome = true ↔ a < t.next
  root : ∃ name, t.home 0 = some (0, name)
  child : ∀ {p name c}, t.child p name = some c →
    t.home c = some (p, name) ∧ c ≠ 0 ∧ c ∉ pending ∧ Component name
  placed : ∀ a < t.next, a ∉ pending → ∃ names, t.walk 0 names = some a
  waiting : ∀ v ∈ pending, v < t.next ∧ v ≠ 0 ∧ ∀ name, t.child v name = none
  directory : t.isVariable 0 = false

/-! ### Walking down -/

theorem walk_append (t : Directory) (self : Nat) (front names : List Name) :
    t.walk self (front ++ names) = (t.walk self front).bind fun next => t.walk next names := by
  induction front generalizing self with
  | nil => rfl
  | cons name rest ih =>
      simp only [List.cons_append, walk, Option.bind_eq_bind]
      cases t.child self name with
      | none => rfl
      | some next => exact ih next

theorem walk_snoc {t : Directory} {front : List Name} {name : Name} {c : Nat} :
    t.walk 0 (front ++ [name]) = some c ↔
      ∃ p, t.walk 0 front = some p ∧ t.child p name = some c := by
  rw [walk_append, Option.bind_eq_some_iff]
  simp [walk]

/-- What holds of the root and passes along every edge holds of every node met. -/
theorem walk_induction {t : Directory} (Holds : Nat → Prop) {self c : Nat} (start : Holds self)
    (edge : ∀ p name c, Holds p → t.child p name = some c → Holds c) {names : List Name}
    (walks : t.walk self names = some c) : Holds c := by
  induction names generalizing self with
  | nil =>
      cases walks
      exact start
  | cons name rest ih =>
      obtain ⟨next, found, later⟩ := Option.bind_eq_some_iff.mp walks
      exact ih (edge self name next start found) later

namespace Sound

variable {t : Directory} {pending : List Nat}

theorem fresh (sound : t.Sound pending) : t.nodes t.next = none := by
  have dead : ¬ (t.nodes t.next).isSome = true := by
    rw [sound.live]
    omega
  simpa using dead

theorem found (sound : t.Sound pending) {a : Nat} (inside : a < t.next) :
    ∃ node, t.nodes a = some node :=
  Option.isSome_iff_exists.mp ((sound.live a).mpr inside)

theorem home_lt (sound : t.Sound pending) {a p : Nat} {name : Name}
    (at_home : t.home a = some (p, name)) : a < t.next := by
  rw [← sound.live]
  obtain ⟨node, found, -⟩ := Option.map_eq_some_iff.mp at_home
  rw [found]
  rfl

theorem child_lt (sound : t.Sound pending) {p c : Nat} {name : Name}
    (found : t.child p name = some c) : c < t.next :=
  sound.home_lt (sound.child found).1

theorem parent_lt (sound : t.Sound pending) {p c : Nat} {name : Name}
    (found : t.child p name = some c) : p < t.next := by
  rw [← sound.live]
  obtain ⟨node, here, -⟩ := Option.bind_eq_some_iff.mp found
  rw [here]
  rfl

/-- A node is met along one list of names only. -/
theorem walk_unique (sound : t.Sound pending) {names others : List Name} {c : Nat}
    (one : t.walk 0 names = some c) (other : t.walk 0 others = some c) : names = others := by
  induction names using List.reverseRecOn generalizing others c with
  | nil =>
      cases one
      cases others using List.reverseRecOn with
      | nil => rfl
      | append_singleton front name =>
          obtain ⟨p, -, found⟩ := walk_snoc.mp other
          exact absurd rfl (sound.child found).2.1
  | append_singleton front name ih =>
      obtain ⟨p, first, found⟩ := walk_snoc.mp one
      cases others using List.reverseRecOn with
      | nil =>
          cases other
          exact absurd rfl (sound.child found).2.1
      | append_singleton front' name' =>
          obtain ⟨p', first', found'⟩ := walk_snoc.mp other
          have same := (sound.child found).1.symm.trans (sound.child found').1
          cases same
          rw [ih first first']

theorem walk_lt (sound : t.Sound pending) {names : List Name} {c : Nat}
    (walks : t.walk 0 names = some c) : c < t.next := by
  obtain ⟨name, root⟩ := sound.root
  exact walk_induction (fun a => a < t.next) (sound.home_lt root)
    (fun _ _ _ _ found => sound.child_lt found) walks

theorem walk_components (sound : t.Sound pending) {names : List Name} {self c : Nat}
    (walks : t.walk self names = some c) : ∀ name ∈ names, Component name := by
  induction names generalizing self with
  | nil => simp
  | cons name rest ih =>
      obtain ⟨next, found, later⟩ := Option.bind_eq_some_iff.mp walks
      intro other member
      cases List.mem_cons.mp member with
      | inl same => exact same ▸ (sound.child found).2.2.2
      | inr deeper => exact ih later other deeper

/-- The nodes met on the way differ, so there are fewer names than nodes. -/
theorem walk_short (sound : t.Sound pending) {names : List Name} {c : Nat}
    (walks : t.walk 0 names = some c) : names.length < t.next := by
  have met : ∀ i ≤ names.length, ∃ a, t.walk 0 (names.take i) = some a := by
    intro i _
    have whole := walks
    rw [← List.take_append_drop i names, walk_append] at whole
    obtain ⟨a, first, -⟩ := Option.bind_eq_some_iff.mp whole
    exact ⟨a, first⟩
  have bound := Finset.card_le_card_of_injOn (s := Finset.range (names.length + 1))
    (t := Finset.range t.next) (fun i => (t.walk 0 (names.take i)).getD 0) ?_ ?_
  · simp only [Finset.card_range] at bound
    omega
  · intro i member
    have inside := Finset.mem_range.mp (Finset.mem_coe.mp member)
    obtain ⟨a, first⟩ := met i (by omega)
    simp [first, sound.walk_lt first]
  · intro i member j member' same
    have inside := Finset.mem_range.mp (Finset.mem_coe.mp member)
    have inside' := Finset.mem_range.mp (Finset.mem_coe.mp member')
    obtain ⟨a, first⟩ := met i (by omega)
    obtain ⟨b, second⟩ := met j (by omega)
    simp only [first, second, Option.getD_some] at same
    subst same
    have lengths := congrArg List.length (sound.walk_unique first second)
    simp only [List.length_take] at lengths
    omega

end Sound

/-! ### Paths -/

/-- The names as `path()` writes them. -/
def written (names : List Name) : List Byte := names.flatMap fun name => Chr.slash :: name

theorem written_cons (name : Name) (rest : List Name) :
    written (name :: rest) = Chr.slash :: (name ++ written rest) := by
  simp [written]

namespace Sound

variable {t : Directory} {pending : List Nat}

theorem pathWithin_of_walk (sound : t.Sound pending) {names : List Name} {c : Nat}
    (walks : t.walk 0 names = some c) (nodes : Nat) (enough : names.length < nodes) :
    t.pathWithin nodes c = some (written names) := by
  induction names using List.reverseRecOn generalizing c nodes with
  | nil =>
      cases walks
      obtain ⟨nodes, rfl⟩ : ∃ n, nodes = n + 1 := ⟨nodes - 1, by omega⟩
      obtain ⟨name, root⟩ := sound.root
      obtain ⟨node, found, same⟩ := Option.map_eq_some_iff.mp root
      have parent : node.parent = 0 := congrArg Prod.fst same
      simp [pathWithin, found, parent, written]
  | append_singleton front name ih =>
      obtain ⟨p, first, child⟩ := walk_snoc.mp walks
      rw [List.length_append, List.length_singleton] at enough
      obtain ⟨nodes, rfl⟩ : ∃ n, nodes = n + 1 := ⟨nodes - 1, by omega⟩
      obtain ⟨node, found, same⟩ := Option.map_eq_some_iff.mp (sound.child child).1
      have parent : node.parent = p := congrArg Prod.fst same
      have called : node.name = name := congrArg Prod.snd same
      -- the node is not its own parent: it would be met twice on the way
      have other : p ≠ c := by
        intro itself
        subst itself
        have lengths := congrArg List.length (sound.walk_unique first walks)
        simp at lengths
      have above := ih first nodes (by omega)
      simp [pathWithin, found, parent, other, above, called, written]

theorem path_of_walk (sound : t.Sound pending) {names : List Name} {c : Nat}
    (walks : t.walk 0 names = some c) : t.path c = some (written names) :=
  sound.pathWithin_of_walk walks t.next (sound.walk_short walks)

end Sound

theorem slashless {name : Name} (component : Component name) (c : Byte) (member : c ∈ name) :
    (c != Chr.slash) = true := by
  rw [bne_iff_ne]
  intro same
  exact component.2 (same ▸ member)

theorem split_last {name : Name} (component : Component name) : split name = (name, none) := by
  have all : name.takeWhile (fun c => c != Chr.slash) = name :=
    List.takeWhile_eq_self_iff.mpr (slashless component)
  have rest : name.dropWhile (fun c => c != Chr.slash) = [] :=
    List.dropWhile_eq_nil_iff.mpr (slashless component)
  simp [split, all, rest]

theorem split_inner {name next : Name} (component : Component name) (follows : Component next)
    (more : List Byte) :
    split (name ++ Chr.slash :: (next ++ more)) = (name, some (next ++ more)) := by
  have front : (name ++ Chr.slash :: (next ++ more)).takeWhile (fun c => c != Chr.slash) = name := by
    rw [List.takeWhile_append_of_pos (slashless component)]
    simp
  have back : (name ++ Chr.slash :: (next ++ more)).dropWhile (fun c => c != Chr.slash) =
      Chr.slash :: (next ++ more) := by
    rw [List.dropWhile_append_of_pos (slashless component)]
    simp
  obtain ⟨first, others, rfl⟩ := List.exists_cons_of_ne_nil follows.1
  have other : (first == Chr.slash) = false := by
    simpa using slashless follows first List.mem_cons_self
  rw [split, front, back]
  simp [other]

theorem findFrom_of_walk {t : Directory} {name : Name} {rest : List Name} {self c : Nat}
    (valid : ∀ n ∈ name :: rest, Component n) (walks : t.walk self (name :: rest) = some c)
    (passes : Nat) (enough : (name ++ written rest).length < passes) :
    t.findFrom passes self (name ++ written rest) = some c := by
  induction rest generalizing name self passes with
  | nil =>
      obtain ⟨passes, rfl⟩ : ∃ n, passes = n + 1 := ⟨passes - 1, by omega⟩
      obtain ⟨next, found, last⟩ := Option.bind_eq_some_iff.mp walks
      cases last
      have component := valid name List.mem_cons_self
      simp [findFrom, written, split_last component, found]
  | cons next rest ih =>
      obtain ⟨passes, rfl⟩ : ∃ n, passes = n + 1 := ⟨passes - 1, by omega⟩
      obtain ⟨dir, found, later⟩ := Option.bind_eq_some_iff.mp walks
      have component := valid name List.mem_cons_self
      have follows := valid next (List.mem_cons_of_mem _ List.mem_cons_self)
      rw [written_cons] at enough ⊢
      have shorter : (next ++ written rest).length < passes := by
        simp only [List.length_append, List.length_cons] at enough ⊢
        omega
      have deeper := ih (fun n member => valid n (List.mem_cons_of_mem _ member)) later passes shorter
      obtain ⟨first, others, rfl⟩ := List.exists_cons_of_ne_nil follows.1
      simp only [findFrom, split_inner component follows, found, Option.bind_eq_bind,
        Option.bind_some]
      exact deeper

theorem Sound.find_of_walk {t : Directory} {pending : List Nat} (sound : t.Sound pending)
    {names : List Name} {c : Nat} (walks : t.walk 0 names = some c)
    (variable_node : t.isVariable c = true) : t.find (written names) = some c := by
  cases names with
  | nil =>
      cases walks
      rw [sound.directory] at variable_node
      cases variable_node
  | cons name rest =>
      have found := findFrom_of_walk (sound.walk_components walks) walks
        ((name ++ written rest).length + 1) (Nat.lt_succ_self _)
      rw [written_cons, find, if_pos rfl, found]
      simp [variable_node]

end Directory
end PdServ
