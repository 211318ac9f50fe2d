import PdServ.DirectoryTree
import PdServ.XmlStream
import PdServ.Transition

/-!
Insertions into the directory, from any node and along any path. The name that a
`HyperDirNode` makes up for a leaf is the number of its children, which a path may
have used already; as long as it is free, every insertion keeps the directory
sound.
-/

namespace PdServ
namespace Directory

open Std TreeUpdate

variable {t after : Directory} {pending : List Nat}

/-! ### What the operations do -/

/-- `after` is `t` with one more key, whose node has moved there. -/
structure Adopted (t after : Directory) (parent node : Nat) (name : Name) : Prop where
  next : after.next = t.next
  live : ∀ a, (after.nodes a).isSome = (t.nodes a).isSome
  child : ∀ p n, after.child p n = if p = parent ∧ n = name then some node else t.child p n
  home : ∀ a, after.home a = if a = node then some (parent, name) else t.home a
  count : t.child parent name = none →
    after.childCount parent = (t.childCount parent).map (· + 1)
  others : ∀ a ≠ parent, after.childCount a = t.childCount a
  isVariable : ∀ a, after.isVariable a = t.isVariable a

theorem adopt_spec {self node : Nat} {dir entry : DirectoryNode} (here : t.nodes self = some dir)
    (there : t.nodes node = some entry) (apart : node ≠ self) (name : Name) :
    ∃ after, t.adopt self node name = some after ∧ Adopted t after self node name := by
  have kept : Function.update t.nodes self (some
      { dir with children := dir.children.insert name node }) node = some entry := by
    rw [Function.update_of_ne apart, there]
  refine ⟨{ t with
    nodes := Function.update
      (Function.update t.nodes self (some
        { dir with children := dir.children.insert name node }))
      node (some { entry with parent := self, name := name }) }, ?_, ?_⟩
  · simp only [adopt, here, Option.bind_eq_bind, Option.bind_some, kept]
  constructor
  case next =>
    rfl
  case live =>
    intro a
    by_cases moved : a = node
    · subst moved
      simp [there]
    · by_cases parent : a = self
      · subst parent
        simp [moved, here]
      · simp [moved, parent]
  case child =>
    intro p n
    by_cases moved : p = node
    · subst moved
      simp [Directory.child, there, apart]
    · by_cases parent : p = self
      · subst parent
        by_cases same : n = name
        · subst same
          simp [Directory.child, moved]
        · simp [Directory.child, moved, here, same, getElem?_insert_other _ _ (Ne.symm same)]
      · simp [Directory.child, moved, parent]
  case home =>
    intro a
    by_cases moved : a = node
    · subst moved
      simp [Directory.home]
    · by_cases parent : a = self
      · subst parent
        simp [Directory.home, moved, here]
      · simp [Directory.home, moved, parent]
  case count =>
    intro free
    have absent : name ∉ dir.children := by
      rw [TreeMap.mem_iff_isSome_getElem?]
      simpa [Directory.child, here] using free
    simp [childCount, Ne.symm apart, here, TreeMap.size_insert, absent]
  case others =>
    intro a away
    by_cases moved : a = node
    · subst moved
      simp [childCount, there]
    · simp [childCount, moved, away]
  case isVariable =>
    intro a
    by_cases moved : a = node
    · subst moved
      simp [Directory.isVariable, there]
    · by_cases parent : a = self
      · subst parent
        simp [Directory.isVariable, moved, here]
      · simp [Directory.isVariable, moved, parent]

/-- `after` is `t` with one more node, which no key leads to. -/
structure Allocated (t after : Directory) : Prop where
  next : after.next = t.next + 1
  live : ∀ a, (after.nodes a).isSome = true ↔ a = t.next ∨ (t.nodes a).isSome = true
  child : ∀ p n, after.child p n = t.child p n
  home : ∀ a ≠ t.next, after.home a = t.home a
  count : after.childCount t.next = some 0
  old : ∀ a ≠ t.next, after.nodes a = t.nodes a

theorem allocate_spec (free : t.nodes t.next = none) (kind : NodeKind) :
    Allocated t (t.allocate kind).2 := by
  constructor
  case next =>
    rfl
  case live =>
    intro a
    by_cases new : a = t.next
    · subst new
      simp [allocate]
    · simp [allocate, new]
  case child =>
    intro p n
    by_cases new : p = t.next
    · subst new
      simp [allocate, Directory.child, free]
    · simp [allocate, Directory.child, new]
  case home =>
    intro a new
    simp [allocate, Directory.home, new]
  case count =>
    simp [allocate, childCount]
  case old =>
    intro a new
    simp [allocate, new]

theorem construct_spec {parent : Nat} {dir : DirectoryNode} (free : t.nodes t.next = none)
    (here : t.nodes parent = some dir) (kind : NodeKind) (name : Name) :
    ∃ after, t.construct kind parent name = some (t.next, after) ∧
      Adopted (t.allocate kind).2 after parent t.next name := by
  have old : parent ≠ t.next := by
    intro same
    rw [same, free] at here
    cases here
  have made := allocate_spec free kind
  obtain ⟨new, found⟩ : ∃ new, (t.allocate kind).2.nodes t.next = some new := by
    rw [← Option.isSome_iff_exists, made.live]
    exact .inl rfl
  obtain ⟨after, ran, adopted⟩ := adopt_spec (by rw [made.old parent old, here]) found
    (Ne.symm old) name
  have node : (t.allocate kind).1 = t.next := rfl
  exact ⟨after, by simp only [construct, node, ran, Option.bind_eq_bind, Option.bind_some], adopted⟩

theorem hyperInsertLeaf_spec {self node count : Nat} {entry : DirectoryNode}
    (counted : t.childCount self = some count) (there : t.nodes node = some entry)
    (apart : node ≠ self) :
    ∃ after, t.hyperInsertLeaf self node = some after ∧
      Adopted t after self node (decimal count) := by
  obtain ⟨dir, here, size⟩ := Option.map_eq_some_iff.mp counted
  obtain ⟨after, ran, adopted⟩ := adopt_spec here there apart (decimal count)
  exact ⟨after, by simp only [hyperInsertLeaf, here, size, ran, Option.bind_eq_bind,
    Option.bind_some], adopted⟩

/-! ### Numbers as names -/

theorem decimal_component (n : Nat) : Component (decimal n) := by
  constructor
  · simp [decimal, Nat.toDigits_ne_nil]
  · intro member
    obtain ⟨digit, listed, same⟩ := List.mem_map.mp member
    have isDigit : digit.isDigit = true := Nat.isDigit_of_mem_toDigits (by decide) (by decide) listed
    simp only [Char.isDigit, Bool.and_eq_true, decide_eq_true_eq, ge_iff_le, UInt32.le_iff_toNat_le] at isDigit
    have value := congrArg UInt8.toNat same
    have slash : UInt8.toNat Chr.slash = 47 := rfl
    simp only [Char.toUInt8, UInt32.toNat_toUInt8, slash] at value
    simp at isDigit value
    omega

theorem decimal_apart : decimal 0 ≠ decimal 1 := by decide

/-! ### Sound directories stay sound -/

namespace Sound

theorem root_lt (sound : t.Sound pending) : 0 < t.next := by
  obtain ⟨name, root⟩ := sound.root
  exact sound.home_lt root

theorem allocate (sound : t.Sound pending) (kind : NodeKind) :
    (t.allocate kind).2.Sound (t.next :: pending) := by
  have made := allocate_spec sound.fresh kind
  constructor
  case live =>
    intro a
    rw [made.live, made.next, sound.live]
    omega
  case root =>
    obtain ⟨name, root⟩ := sound.root
    refine ⟨name, ?_⟩
    rw [made.home 0 (Nat.ne_of_lt (sound.home_lt root)), root]
  case child =>
    intro p name c found
    rw [made.child] at found
    obtain ⟨at_home, below, waits, component⟩ := sound.child found
    have old : c ≠ t.next := Nat.ne_of_lt (sound.child_lt found)
    refine ⟨?_, below, ?_, component⟩
    · rw [made.home c old, at_home]
    · simp [old, waits]
  case placed =>
    intro a inside waits
    rw [made.next] at inside
    simp only [List.mem_cons, not_or] at waits
    obtain ⟨names, walks⟩ := sound.placed a (by omega) waits.2
    refine ⟨names, ?_⟩
    have same : ∀ (names : List Name) self, (t.allocate kind).2.walk self names = t.walk self names := by
      intro names
      induction names with
      | nil => simp [walk]
      | cons name rest ih => simp [walk, made.child, ih]
    rw [same, walks]
  case waiting =>
    intro v waits
    rw [made.next]
    simp only [made.child]
    cases List.mem_cons.mp waits with
    | inl new =>
        -- no key leads to the new node yet
        subst new
        obtain ⟨name, root⟩ := sound.root
        refine ⟨by omega, Nat.ne_of_gt (Nat.lt_of_le_of_lt (Nat.zero_le 0) (sound.home_lt root)), ?_⟩
        intro name
        simp [Directory.child, sound.fresh]
    | inr old =>
        obtain ⟨inside, below, none⟩ := sound.waiting v old
        exact ⟨by omega, below, none⟩
  case directory =>
    rw [← sound.directory, isVariable, isVariable, made.old 0 (Nat.ne_of_lt sound.root_lt)]

/-- A waiting node is adopted under a key that is free. -/
theorem adopted {v p : Nat} {name : Name} (sound : t.Sound (v :: pending)) (once : v ∉ pending)
    (adopted : Adopted t after p v name) (free : t.child p name = none)
    (component : Component name) (inside : p < t.next) (settled : p ∉ v :: pending) :
    after.Sound pending := by
  obtain ⟨vInside, vBelow, vLeaf⟩ := sound.waiting v List.mem_cons_self
  have keeps : ∀ q n c, t.child q n = some c → after.child q n = some c := by
    intro q n c found
    rw [adopted.child, if_neg, found]
    rintro ⟨rfl, rfl⟩
    rw [free] at found
    cases found
  have reached : ∀ a < t.next, a ∉ v :: pending → ∃ names, after.walk 0 names = some a := by
    intro a inside waits
    obtain ⟨names, walks⟩ := sound.placed a inside waits
    refine walk_induction (fun a => ∃ names, after.walk 0 names = some a) ⟨[], rfl⟩ ?_ walks
    rintro q n c ⟨front, first⟩ found
    exact ⟨front ++ [n], walk_snoc.mpr ⟨q, first, keeps q n c found⟩⟩
  constructor
  case live =>
    intro a
    rw [adopted.live, adopted.next, sound.live]
  case root =>
    obtain ⟨called, root⟩ := sound.root
    exact ⟨called, by rw [adopted.home, if_neg (Ne.symm vBelow), root]⟩
  case child =>
    intro q n c found
    rw [adopted.child] at found
    split at found
    · next here =>
      obtain ⟨rfl, rfl⟩ := here
      cases found
      exact ⟨by rw [adopted.home, if_pos rfl], vBelow, once, component⟩
    · obtain ⟨at_home, below, waits, valid⟩ := sound.child found
      simp only [List.mem_cons, not_or] at waits
      exact ⟨by rw [adopted.home, if_neg waits.1, at_home], below, waits.2, valid⟩
  case placed =>
    intro a inside' waits
    rw [adopted.next] at inside'
    -- the way to the leaf is its new key, the others stay
    by_cases new : a = v
    · subst new
      obtain ⟨front, first⟩ := reached p inside settled
      refine ⟨front ++ [name], walk_snoc.mpr ⟨p, first, ?_⟩⟩
      rw [adopted.child, if_pos ⟨rfl, rfl⟩]
    · exact reached a inside' (by simp [new, waits])
  case waiting =>
    intro u waits
    obtain ⟨uInside, below, leaf⟩ := sound.waiting u (List.mem_cons_of_mem v waits)
    refine ⟨by rw [adopted.next]; exact uInside, below, ?_⟩
    intro n
    rw [adopted.child, if_neg, leaf]
    rintro ⟨rfl, -⟩
    exact settled (List.mem_cons_of_mem v waits)
  case directory =>
    rw [adopted.isVariable, sound.directory]

/-- `create` of a missing directory. -/
theorem construct (sound : t.Sound pending) {p : Nat} {name : Name} (kind : NodeKind)
    (free : t.child p name = none) (component : Component name) (inside : p < t.next)
    (settled : p ∉ pending) :
    ∃ after, t.construct kind p name = some (t.next, after) ∧ after.Sound pending ∧
      after.next = t.next + 1 ∧ ∀ n, after.child t.next n = none := by
  obtain ⟨dir, here⟩ := sound.found inside
  have made := allocate_spec sound.fresh kind
  obtain ⟨after, ran, adopted⟩ := construct_spec sound.fresh here kind name
  have new : t.next ∉ pending := by
    intro waits
    exact Nat.lt_irrefl _ (sound.waiting t.next waits).1
  have old : p ≠ t.next := Nat.ne_of_lt inside
  refine ⟨after, ran, ?_, ?_, ?_⟩
  · refine (sound.allocate kind).adopted new adopted ?_ component ?_ ?_
    · rw [made.child, free]
    · rw [made.next]
      omega
    · simp [old, settled]
  · rw [adopted.next, made.next]
  · intro n
    rw [adopted.child, if_neg (fun same => old same.1.symm), made.child]
    simp [Directory.child, sound.fresh]

/-- What it means for the directory that `d` and the leaf `v` become children of a new
node in the place of `d`. -/
structure Replaces (t : Directory) (v d p : Nat) (name : Name) (after : Directory) :
    Prop where
  next : after.next = t.next + 1
  live : ∀ a, (after.nodes a).isSome = true ↔ a < after.next
  child : ∀ q n, after.child q n =
    if q = t.next ∧ n = decimal 1 then some v
    else if q = t.next ∧ n = decimal 0 then some d
    else if q = p ∧ n = name then some t.next else t.child q n
  home : ∀ a, a ≠ t.next → after.home a =
    if a = v then some (t.next, decimal 1)
    else if a = d then some (t.next, decimal 0) else t.home a
  newHome : after.home t.next = some (p, name)
  isVariable : after.isVariable 0 = false

/-- A leaf on a node that is no `HyperDirNode`: a new one takes its place, with
the node and the leaf as its first two children. -/
theorem insertLeaf_replaces {v p d : Nat} {name : Name} {dir : DirectoryNode}
    (sound : t.Sound [v]) (found : t.child p name = some d) (there : t.nodes d = some dir)
    (plain : dir.kind ≠ .hyper) :
    ∃ after, t.insertLeaf d v = some after ∧ Replaces t v d p name after := by
  obtain ⟨at_home, -⟩ := sound.child found
  obtain ⟨vInside, -⟩ := sound.waiting v List.mem_cons_self
  have dInside := sound.child_lt found
  have pInside := sound.parent_lt found
  obtain ⟨rfl, rfl⟩ : dir.parent = p ∧ dir.name = name := by
    simpa [home, there] using at_home
  -- the new node, and the two that it adopts
  have made := allocate_spec sound.fresh .hyper
  obtain ⟨parent, parentThere⟩ := sound.found pInside
  obtain ⟨one, ran, hyper⟩ := construct_spec sound.fresh parentThere .hyper dir.name
  have liveOne : ∀ a < t.next, ∃ node, one.nodes a = some node := by
    intro a inside
    rw [← Option.isSome_iff_exists, hyper.live, made.live, sound.live]
    exact .inr inside
  obtain ⟨entry, dThere⟩ := liveOne d dInside
  have countOne : one.childCount t.next = some 0 := by
    rw [hyper.others t.next (Nat.ne_of_gt pInside), made.count]
  obtain ⟨two, ran', first⟩ := hyperInsertLeaf_spec countOne dThere (Nat.ne_of_lt dInside)
  obtain ⟨entry', vThere⟩ : ∃ node, two.nodes v = some node := by
    rw [← Option.isSome_iff_exists, first.live, Option.isSome_iff_exists]
    exact liveOne v vInside
  have childless : ∀ n, one.child t.next n = none := by
    intro n
    rw [hyper.child, if_neg (fun same => Nat.ne_of_gt pInside same.1), made.child]
    simp [Directory.child, sound.fresh]
  have countTwo : two.childCount t.next = some 1 := by
    rw [first.count (childless _), countOne]
    rfl
  obtain ⟨after, ran'', second⟩ := hyperInsertLeaf_spec countTwo vThere (Nat.ne_of_lt vInside)
  have next : after.next = t.next + 1 := by
    rw [second.next, first.next, hyper.next, made.next]
  refine ⟨after, ?_, next, ?_, ?_, ?_, ?_, ?_⟩
  · simp only [insertLeaf, there, if_neg plain, ran, ran', ran'', Option.bind_eq_bind,
      Option.bind_some]
  · intro a
    rw [second.live, first.live, hyper.live, made.live, next, sound.live]
    omega
  · intro q n
    rw [second.child, first.child, hyper.child, made.child]
  · intro a old
    rw [second.home, first.home, hyper.home, if_neg old, made.home a old]
  · rw [second.home, if_neg (Nat.ne_of_gt vInside), first.home,
      if_neg (Nat.ne_of_gt dInside), hyper.home, if_pos rfl]
  · have root : (t.allocate .hyper).2.isVariable 0 = t.isVariable 0 := by
      rw [isVariable, isVariable, made.old 0 (Nat.ne_of_lt sound.root_lt)]
    rw [second.isVariable, first.isVariable, hyper.isVariable, root, sound.directory]

namespace Replaces

variable {v p d : Nat} {name : Name} {after : Directory}

theorem toNew (replaces : Replaces t v d p name after) (inside : p < t.next) :
    after.child p name = some t.next := by
  have old := Nat.ne_of_lt inside
  rw [replaces.child, if_neg (fun same => old same.1), if_neg (fun same => old same.1),
    if_pos ⟨rfl, rfl⟩]

theorem toDir (replaces : Replaces t v d p name after) :
    after.child t.next (decimal 0) = some d := by
  rw [replaces.child, if_neg (fun same => decimal_apart same.2), if_pos ⟨rfl, rfl⟩]

theorem toLeaf (replaces : Replaces t v d p name after) :
    after.child t.next (decimal 1) = some v := by
  rw [replaces.child, if_pos ⟨rfl, rfl⟩]

/-- The old nodes are still reached from the root. -/
theorem reached (replaces : Replaces t v d p name after) (sound : t.Sound [v])
    (found : t.child p name = some d) {a : Nat} (inside : a < t.next) (other : a ≠ v) :
    ∃ names, after.walk 0 names = some a := by
  obtain ⟨names, walks⟩ := sound.placed a inside (by simpa using other)
  refine walk_induction (fun a => ∃ names, after.walk 0 names = some a) ⟨[], rfl⟩ ?_ walks
  rintro q n c ⟨front, walked⟩ edge
  by_cases here : q = p ∧ n = name
  · -- the way to the old node now leads through the new one
    obtain ⟨rfl, rfl⟩ := here
    rw [found] at edge
    cases edge
    exact ⟨front ++ [n] ++ [decimal 0], walk_snoc.mpr
      ⟨t.next, walk_snoc.mpr ⟨_, walked, replaces.toNew (sound.parent_lt found)⟩,
        replaces.toDir⟩⟩
  · have old := Nat.ne_of_lt (sound.parent_lt edge)
    refine ⟨front ++ [n], walk_snoc.mpr ⟨q, walked, ?_⟩⟩
    rw [replaces.child, if_neg (fun same => old same.1), if_neg (fun same => old same.1),
      if_neg here, edge]

/-- Every edge leads to a node that knows it. -/
theorem edge (replaces : Replaces t v d p name after) (sound : t.Sound [v])
    (found : t.child p name = some d) {q c : Nat} {n : Name}
    (edge : after.child q n = some c) :
    after.home c = some (q, n) ∧ c ≠ 0 ∧ Component n := by
  obtain ⟨at_home, dBelow, dSettled, component⟩ := sound.child found
  obtain ⟨vInside, vBelow, -⟩ := sound.waiting v List.mem_cons_self
  have apart : d ≠ v := by simpa using dSettled
  have dInside := sound.child_lt found
  rw [replaces.child] at edge
  split at edge
  · next here =>
    obtain ⟨rfl, rfl⟩ := here
    cases edge
    exact ⟨by rw [replaces.home v (Nat.ne_of_lt vInside), if_pos rfl], vBelow,
      decimal_component 1⟩
  · split at edge
    · next here =>
      obtain ⟨rfl, rfl⟩ := here
      cases edge
      exact ⟨by rw [replaces.home d (Nat.ne_of_lt dInside), if_neg apart, if_pos rfl], dBelow,
        decimal_component 0⟩
    · split at edge
      · next here =>
        obtain ⟨rfl, rfl⟩ := here
        cases edge
        exact ⟨replaces.newHome, Nat.ne_of_gt sound.root_lt, component⟩
      · next other =>
        obtain ⟨at_home', below, settled, valid⟩ := sound.child edge
        have notV : c ≠ v := by simpa using settled
        have notD : c ≠ d := by
          rintro rfl
          have same := at_home.symm.trans at_home'
          cases same
          exact other ⟨rfl, rfl⟩
        refine ⟨?_, below, valid⟩
        rw [replaces.home c (Nat.ne_of_lt (sound.child_lt edge)), if_neg notV, if_neg notD,
          at_home']

end Replaces

/-- With the new node in its place no leaf waits any more. -/
theorem insertLeaf_directory {v p d : Nat} {name : Name} {dir : DirectoryNode}
    (sound : t.Sound [v]) (found : t.child p name = some d) (there : t.nodes d = some dir)
    (plain : dir.kind ≠ .hyper) :
    ∃ after, t.insertLeaf d v = some after ∧ after.Sound [] := by
  obtain ⟨after, ran, replaces⟩ := sound.insertLeaf_replaces found there plain
  refine ⟨after, ran, ?_⟩
  obtain ⟨-, dBelow, -⟩ := sound.child found
  obtain ⟨-, vBelow, vLeaf⟩ := sound.waiting v List.mem_cons_self
  have pInside := sound.parent_lt found
  have pSettled : p ≠ v := by
    rintro rfl
    rw [vLeaf name] at found
    cases found
  obtain ⟨front, walked⟩ := replaces.reached sound found pInside pSettled
  have hyperReached : after.walk 0 (front ++ [name]) = some t.next :=
    walk_snoc.mpr ⟨p, walked, replaces.toNew pInside⟩
  constructor
  case live =>
    exact replaces.live
  case root =>
    obtain ⟨called, root⟩ := sound.root
    have old : 0 ≠ t.next := Nat.ne_of_lt sound.root_lt
    exact ⟨called, by
      rw [replaces.home 0 old, if_neg (Ne.symm vBelow), if_neg (Ne.symm dBelow), root]⟩
  case child =>
    intro q n c edge
    obtain ⟨at_home, below, component⟩ := replaces.edge sound found edge
    exact ⟨at_home, below, by simp, component⟩
  case placed =>
    intro a inside _
    rw [replaces.next] at inside
    by_cases new : a = t.next
    · exact ⟨_, new ▸ hyperReached⟩
    · by_cases leaf : a = v
      · exact ⟨_, leaf ▸ walk_snoc.mpr ⟨t.next, hyperReached, replaces.toLeaf⟩⟩
      · exact replaces.reached sound found (by omega) leaf
  case waiting =>
    intro u waits
    cases waits
  case directory =>
    exact replaces.isVariable

end Sound

/-! ### Insertions -/

/-- The node that is in the place of the leaf already. -/
def lands (t : Directory) (self : Nat) : List Name → Option Nat
  | [] => none
  | [name] => t.child self name
  | name :: rest =>
      match t.child self name with
      | some dir => lands t dir rest
      | none => none

/-- The leaf gets a number from a `HyperDirNode`, and a child has that name already. -/
def overwrites (t : Directory) (self : Nat) (names : List Name) : Bool :=
  match t.lands self names with
  | none => false
  | some node =>
      (t.nodes node).any fun dir =>
        dir.kind == .hyper && dir.children.contains (decimal dir.children.size)

namespace Sound

theorem insert {v p : Nat} {name : Name} (sound : t.Sound [v]) (inside : p < t.next)
    (settled : p ≠ v) (component : Component name) (clear : t.overwrites p [name] = false) :
    ∃ after, t.insert p v name = some after ∧ after.Sound [] := by
  obtain ⟨dir, here⟩ := sound.found inside
  obtain ⟨leaf, there⟩ := sound.found (sound.waiting v List.mem_cons_self).1
  have key : t.child p name = dir.children[name]? := by simp [Directory.child, here]
  cases taken : dir.children[name]? with
  | none =>
      -- the place is free
      obtain ⟨after, ran, adopted⟩ := adopt_spec here there (Ne.symm settled) name
      refine ⟨after, ?_, ?_⟩
      · simp only [Directory.insert, here, taken, ran, Option.bind_eq_bind, Option.bind_some]
      · exact sound.adopted (by simp) adopted (key.trans taken) component inside (by simpa using settled)
  | some d =>
      have found := key.trans taken
      obtain ⟨node, inner⟩ := sound.found (sound.child_lt found)
      have insertLeaf : ∃ after, t.insertLeaf d v = some after ∧ after.Sound [] := by
        by_cases hyper : node.kind = .hyper
        · -- the number is free, and names no other child
          have free : t.child d (decimal node.children.size) = none := by
            have absent := clear
            simp only [overwrites, lands, found, inner, Option.any_some, hyper, beq_self_eq_true,
              Bool.true_and] at absent
            have absent : decimal node.children.size ∉ node.children := by
              rw [TreeMap.mem_iff_contains, absent]
              exact Bool.false_ne_true
            simpa [Directory.child, inner] using absent
          have apart : v ≠ d := by
            have others := (sound.child found).2.2.1
            simpa [eq_comm] using others
          obtain ⟨after, ran, adopted⟩ := adopt_spec inner there apart (decimal node.children.size)
          refine ⟨after, ?_, ?_⟩
          · simp only [Directory.insertLeaf, inner, if_pos hyper, hyperInsertLeaf, ran,
              Option.bind_eq_bind, Option.bind_some]
          · exact sound.adopted (by simp) adopted free (decimal_component _) (sound.child_lt found)
              (by simpa using Ne.symm apart)
        · -- a new `HyperDirNode` takes the place
          exact sound.insertLeaf_directory found inner hyper
      obtain ⟨after, ran, still⟩ := insertLeaf
      refine ⟨after, ?_, still⟩
      simp only [Directory.insert, here, taken, ran, Option.bind_eq_bind, Option.bind_some]

theorem create {p : Nat} {name : Name} (sound : t.Sound pending) (inside : p < t.next)
    (settled : p ∉ pending) (component : Component name) :
    ∃ d after, t.create p name = some (d, after) ∧ after.Sound pending ∧ d < after.next ∧
      d ∉ pending ∧
      (t.child p name = some d ∧ after = t ∨
        t.child p name = none ∧ ∀ n, after.child d n = none) := by
  obtain ⟨dir, here⟩ := sound.found inside
  have key : t.child p name = dir.children[name]? := by simp [Directory.child, here]
  cases taken : dir.children[name]? with
  | some d =>
      have found := key.trans taken
      refine ⟨d, t, ?_, sound, sound.child_lt found, (sound.child found).2.2.1, .inl ⟨found, rfl⟩⟩
      simp only [Directory.create, here, taken, Option.bind_eq_bind, Option.bind_some]
  | none =>
      have free := key.trans taken
      obtain ⟨after, ran, still, next, childless⟩ :=
        sound.construct .directory free component inside settled
      have new : t.next ∉ pending := fun waits =>
        Nat.lt_irrefl _ (sound.waiting t.next waits).1
      refine ⟨t.next, after, ?_, still, by omega, new, .inr ⟨free, childless⟩⟩
      simp only [Directory.create, here, taken, ran, Option.bind_eq_bind, Option.bind_some]

/-- Along the queue, directories are created; below a new one nothing is in the way. -/
theorem insertQueue {v : Nat} (names : List Name) {t : Directory} {p : Nat} (sound : t.Sound [v])
    (some : names ≠ []) (inside : p < t.next) (settled : p ≠ v)
    (valid : ∀ name ∈ names, Component name) (clear : t.overwrites p names = false) :
    ∃ after, t.insertQueue p v names = Option.some after ∧ after.Sound [] := by
  induction names generalizing t p with
  | nil => exact absurd rfl some
  | cons name rest ih =>
      have component := valid name List.mem_cons_self
      cases rest with
      | nil =>
          obtain ⟨after, ran, still⟩ := sound.insert inside settled component clear
          exact ⟨after, ran, still⟩
      | cons next others =>
          obtain ⟨d, middle, made, still, dInside, dSettled, cases⟩ :=
            sound.create inside (by simpa using settled) component
          have clear' : middle.overwrites d (next :: others) = false := by
            rcases cases with ⟨found, rfl⟩ | ⟨-, childless⟩
            · simpa [overwrites, lands, found] using clear
            · have free : middle.lands d (next :: others) = none := by
                cases others with
                | nil => simp [lands, childless]
                | cons after more => simp [lands, childless]
              simp [overwrites, free]
          obtain ⟨after, ran, sound'⟩ := ih still (by simp) dInside (by simpa using dSettled)
            (fun n member => valid n (List.mem_cons_of_mem _ member)) clear'
          refine ⟨after, ?_, sound'⟩
          simp only [Directory.insertQueue, made, ran, Option.bind_eq_bind, Option.bind_some]

end Sound

/-! ### The components of a path -/

theorem split_slashless (path : List Byte) : Chr.slash ∉ (split path).1 := by
  intro member
  have passes := List.mem_takeWhile_imp member
  simp at passes

theorem split_shorter {path rest : List Byte} (more : (split path).2 = some rest) :
    rest.length < path.length := by
  simp only [split] at more
  split at more
  · cases more
  · next behind =>
    cases more
    obtain ⟨first, others, shape⟩ := List.exists_cons_of_ne_nil behind
    have stop : (first != Chr.slash) = false := by
      have head := List.head_dropWhile_not (fun c => c != Chr.slash) behind
      simpa [shape] using head
    have slash : (first == Chr.slash) = true := by simpa using stop
    have whole := (List.dropWhile_sublist (fun c => c != Chr.slash) (l := path)).length_le
    have skipped := (List.dropWhile_sublist (fun c => c == Chr.slash) (l := others)).length_le
    have dropped : (first :: others).dropWhile (fun c => c == Chr.slash) =
        others.dropWhile (fun c => c == Chr.slash) := by simp [slash]
    rw [shape, dropped]
    rw [shape, List.length_cons] at whole
    omega

theorem push_components {name : Name} {dirQ : List Name} (slashless : Chr.slash ∉ name)
    (valid : ∀ n ∈ dirQ, Component n) : ∀ n ∈ push name dirQ, Component n := by
  intro n member
  unfold push at member
  split at member
  · exact valid n member
  · next some =>
    cases List.mem_cons.mp member with
    | inl same =>
        subst same
        exact ⟨by simpa using some, slashless⟩
    | inr deeper => exact valid n deeper

theorem components_spec (passes : Nat) (path : List Byte) (enough : path.length < passes) :
    ∃ names, components passes path = some names ∧ ∀ name ∈ names, Component name := by
  induction passes generalizing path with
  | zero => omega
  | succ passes ih =>
      cases more : (split path).2 with
      | none =>
          refine ⟨push (split path).1 [], by simp only [components, more, Option.map_some], ?_⟩
          exact push_components (split_slashless path) (by simp)
      | some rest =>
          have shorter := split_shorter more
          obtain ⟨dirQ, found, valid⟩ := ih rest (by omega)
          refine ⟨push (split path).1 dirQ, ?_, push_components (split_slashless path) valid⟩
          simp only [components, more, found, Option.map_some]

/-- The parser decides about every text, of which it takes the first buffer. -/
theorem parser_decides (text : List Byte) (some : text ≠ []) :
    ∃ found t, ((XmlParser.new (XmlParser.bufIncrement * 1000)).read text).2.operatorBool =
        Option.some (found, t) ∧
      (found = true → ∃ command, t.element.command = Option.some command) := by
  have first : text.take XmlParser.bufIncrement ≠ [] := by
    simp [XmlParser.bufIncrement, some]
  have same : (XmlParser.new (XmlParser.bufIncrement * 1000)).read text =
      (XmlParser.new (XmlParser.bufIncrement * 1000)).read (text.take XmlParser.bufIncrement) := by
    simp [XmlParser.read, XmlParser.new, XmlParser.inputEnd, XmlParser.sgetn, XmlParser.moveData,
      XmlParser.bufIncrement, List.take_take, Nat.min_comm]
  have whole : ((XmlParser.new (XmlParser.bufIncrement * 1000)).read
      (text.take XmlParser.bufIncrement)).1 = (text.take XmlParser.bufIncrement).length := by
    simp [XmlParser.read, XmlParser.new, XmlParser.inputEnd, XmlParser.sgetn, XmlParser.moveData,
      XmlParser.bufIncrement]
  have between : XmlParser.Between False (XmlParser.new (XmlParser.bufIncrement * 1000))
      (Scan.run .text []).2 := XmlParser.between_new _
  obtain ⟨pre, u, b, rel, -, -, -⟩ := XmlParser.read_spec between ⟨first, whole⟩
    ⟨fun _ => .inr (.inl rfl), fun skips => Bool.noConfusion skips⟩
  rw [same]
  rcases XmlParser.operatorBool_spec rel with ⟨t, stops, -⟩ | ⟨t, -, -, done, finds, -, -, -, reads, -⟩
  · exact ⟨false, t, stops, fun found => Bool.noConfusion found⟩
  · refine ⟨true, t, finds, fun _ => ?_⟩
    rw [reads.eq]
    exact command_readElement done

theorem component_spec {name : Name} (slashless : Chr.slash ∉ name) (flags : Annotation) :
    ∃ result flags', component name flags = some (result, flags') ∧ Chr.slash ∉ result := by
  unfold component
  split
  · next annotated =>
    obtain ⟨found, t, decided, defined⟩ := parser_decides name (List.ne_nil_of_mem annotated)
    simp only [decided, Option.bind_eq_bind, Option.bind_some]
    cases found with
    | false => exact ⟨name, flags, rfl, slashless⟩
    | true =>
        obtain ⟨command, strings⟩ := defined rfl
        refine ⟨_, _, by simp only [strings, if_true, Option.bind_some]; rfl, ?_⟩
        intro member
        rw [trimmed, List.mem_reverse] at member
        have inside := List.mem_reverse.mp ((List.dropWhile_sublist _).subset member)
        exact slashless ((List.takeWhile_sublist _).subset inside)
  · exact ⟨name, flags, rfl, slashless⟩

theorem annotatedComponents_spec (passes : Nat) (path : List Byte) (flags : Annotation)
    (enough : path.length < passes) :
    ∃ names flags', annotatedComponents passes path flags = some (names, flags') ∧
      ∀ name ∈ names, Component name := by
  induction passes generalizing path flags with
  | zero => omega
  | succ passes ih =>
      obtain ⟨name, behind, here, slashless⟩ := component_spec (split_slashless path) flags
      cases more : (split path).2 with
      | none =>
          refine ⟨push name [], behind, ?_, push_components slashless (by simp)⟩
          simp only [annotatedComponents, more, here, Option.bind_eq_bind, Option.bind_some,
            Option.map_some]
      | some rest =>
          have shorter := split_shorter more
          obtain ⟨dirQ, flags', found, valid⟩ := ih rest behind (by omega)
          refine ⟨push name dirQ, flags', ?_, push_components slashless valid⟩
          simp only [annotatedComponents, more, here, found, Option.bind_eq_bind, Option.bind_some,
            Option.map_some]

/-! ### Whole runs -/

/-- The insertion is made below a node of the directory, and its path has a
component. -/
def Allowed (t : Directory) : Insertion → Prop
  | .create self name => self < t.next ∧ name ≠ []
  | .insert self name => self < t.next ∧ name ≠ []
  | .pathInsert self path => self < t.next ∧ components (path.length + 1) path ≠ some []
  | .traditionalPathInsert self path persistent => self < t.next ∧
      (annotatedComponents (path.length + 1) path ⟨0, persistent⟩).map Prod.fst ≠ some []

/-- Names given as such are single components, and no number that a `HyperDirNode`
gives to the leaf is taken. -/
def Clear (t : Directory) : Insertion → Prop
  | .create _ name => Chr.slash ∉ name
  | .insert self name => Chr.slash ∉ name ∧ t.overwrites self [name] = false
  | .pathInsert self path =>
      (components (path.length + 1) path).any (t.overwrites self) = false
  | .traditionalPathInsert self path persistent =>
      ((annotatedComponents (path.length + 1) path ⟨0, persistent⟩).map Prod.fst).any
        (t.overwrites self) = false

instance (t : Directory) : ∀ insertion, Decidable (t.Allowed insertion)
  | .create _ _ => inferInstanceAs (Decidable (_ ∧ _))
  | .insert _ _ => inferInstanceAs (Decidable (_ ∧ _))
  | .pathInsert _ _ => inferInstanceAs (Decidable (_ ∧ _))
  | .traditionalPathInsert _ _ _ => inferInstanceAs (Decidable (_ ∧ _))

instance (t : Directory) : ∀ insertion, Decidable (t.Clear insertion)
  | .create _ name => inferInstanceAs (Decidable (Chr.slash ∉ name))
  | .insert _ _ => inferInstanceAs (Decidable (_ ∧ _))
  | .pathInsert _ _ => inferInstanceAs (Decidable (_ = false))
  | .traditionalPathInsert _ _ _ => inferInstanceAs (Decidable (_ = false))

namespace Sound

/-- The new variable is in nobody's way. -/
theorem overwrites_allocate (sound : t.Sound pending) {self : Nat} (names : List Name) :
    (t.allocate .variable).2.overwrites self names = t.overwrites self names := by
  have made := allocate_spec sound.fresh .variable
  have lands : ∀ self, (t.allocate .variable).2.lands self names = t.lands self names ∧
      ∀ d, t.lands self names = some d → d < t.next := by
    induction names with
    | nil => simp [Directory.lands]
    | cons name rest ih =>
        intro self
        cases rest with
        | nil => exact ⟨made.child self name, fun d found => sound.child_lt found⟩
        | cons next more =>
            simp only [Directory.lands, made.child]
            cases t.child self name with
            | none => simp
            | some dir => exact ih dir
  obtain ⟨same, old⟩ := lands self
  rw [overwrites, overwrites, same]
  cases landed : t.lands self names with
  | none => rfl
  | some d => simp only [made.old d (Nat.ne_of_lt (old d landed))]

theorem insert_new {self : Nat} {names : List Name} (sound : t.Sound []) (inside : self < t.next)
    (some : names ≠ []) (valid : ∀ name ∈ names, Component name)
    (clear : t.overwrites self names = false) :
    ∃ after, (t.allocate .variable).2.insertQueue self t.next names = Option.some after ∧
      after.Sound [] := by
  have made := allocate_spec sound.fresh .variable
  refine (sound.allocate .variable).insertQueue names some ?_ (Nat.ne_of_lt inside) valid ?_
  · rw [made.next]
    omega
  · rw [sound.overwrites_allocate names, clear]

theorem step (sound : t.Sound []) (insertion : Insertion) (allowed : t.Allowed insertion)
    (clear : t.Clear insertion) : ∃ after, t.step insertion = some after ∧ after.Sound [] := by
  have var : (t.allocate .variable).1 = t.next := rfl
  cases insertion with
  | create self name =>
      obtain ⟨inside, some⟩ := allowed
      obtain ⟨d, after, ran, still, -⟩ := sound.create inside (by simp) ⟨some, clear⟩
      exact ⟨after, by simp only [Directory.step, ran, Option.map_some], still⟩
  | insert self name =>
      obtain ⟨inside, some⟩ := allowed
      obtain ⟨slashless, free⟩ := clear
      exact sound.insert_new inside (List.cons_ne_nil name []) (by simpa using ⟨some, slashless⟩) free
  | pathInsert self path =>
      obtain ⟨inside, some⟩ := allowed
      obtain ⟨names, found, valid⟩ := components_spec (path.length + 1) path (Nat.lt_succ_self _)
      simp only [Clear, found, Option.any_some] at clear
      obtain ⟨after, ran, still⟩ := sound.insert_new inside (by simpa [found] using some) valid clear
      refine ⟨after, ?_, still⟩
      simp only [Directory.step, Directory.pathInsert, var, found, ran, Option.bind_eq_bind,
        Option.bind_some]
  | traditionalPathInsert self path persistent =>
      obtain ⟨inside, some⟩ := allowed
      obtain ⟨names, flags, found, valid⟩ :=
        annotatedComponents_spec (path.length + 1) path ⟨0, persistent⟩ (Nat.lt_succ_self _)
      simp only [Clear, found, Option.map_some, Option.any_some] at clear
      obtain ⟨after, ran, still⟩ := sound.insert_new inside (by simpa [found] using some) valid clear
      refine ⟨after, ?_, still⟩
      simp only [Directory.step, Directory.traditionalPathInsert, var, found, ran,
        Option.bind_eq_bind, Option.bind_some, Option.map_some]

theorem new : Directory.new.Sound [] := by
  have child : ∀ p n, Directory.new.child p n = none := by
    intro p n
    by_cases root : p = 0
    · subst root
      simp [Directory.child, Directory.new]
    · simp [Directory.child, Directory.new, root]
  constructor
  case live =>
    intro a
    by_cases root : a = 0
    · subst root
      simp [Directory.new]
    · simp [Directory.new, root]
  case root =>
    exact ⟨[], rfl⟩
  case child =>
    intro p name c found
    rw [child] at found
    cases found
  case placed =>
    intro a inside _
    have root : a = 0 := Nat.lt_one_iff.mp inside
    exact ⟨[], by rw [root]; rfl⟩
  case waiting =>
    intro v waits
    cases waits
  case directory =>
    rfl

end Sound

open Transition

/-- In every run that takes no number twice and gives `create` and `insert` no name with a
slash in it, whatever was inserted: each variable is found under its path, which no other
variable has, and no insertion fails. -/
theorem variables_found (run : Reaches step (fun t i => t.Allowed i ∧ t.Clear i) new t) :
    (∀ v, t.isVariable v = true → ∃ path, t.path v = some path ∧ t.find path = some v) ∧
    (∀ v w, t.isVariable v = true → t.isVariable w = true → t.path v = t.path w → v = w) ∧
    ∀ insertion, t.Allowed insertion → t.Clear insertion →
      ∃ after, t.step insertion = some after := by
  have sound : t.Sound [] := by
    apply run.invariant
    · exact Sound.new
    · intro before insertion after sound fine done
      obtain ⟨result, ran, still⟩ := sound.step insertion fine.1 fine.2
      rw [done] at ran
      cases ran
      exact still
  have found : ∀ v, t.isVariable v = true →
      ∃ path, t.path v = some path ∧ t.find path = some v := by
    intro v kind
    have inside : v < t.next := by
      rw [← sound.live]
      cases entry : t.nodes v with
      | none => simp [isVariable, entry] at kind
      | some node => rfl
    obtain ⟨names, walks⟩ := sound.placed v inside (by simp)
    exact ⟨written names, sound.path_of_walk walks, sound.find_of_walk walks kind⟩
  refine ⟨found, ?_, ?_⟩
  · intro v w isVar isVar' same
    obtain ⟨path, here, finds⟩ := found v isVar
    obtain ⟨path', here', finds'⟩ := found w isVar'
    rw [here, here', Option.some.injEq] at same
    rw [same, finds'] at finds
    exact (Option.some.inj finds).symm
  · intro insertion allowed clear
    obtain ⟨after, ran, -⟩ := sound.step insertion allowed clear
    exact ⟨after, ran⟩

/-- Two leaves on a directory that is there already, one of them annotated, and
one on the number that the second of them got. -/
def shared : List Insertion :=
  [.pathInsert 0 (ascii "/a/b"), .traditionalPathInsert 0 (ascii "/a <hide=p>") false,
    .create 0 (ascii "Taskinfo"), .pathInsert 0 (ascii "a"), .pathInsert 0 (ascii "/a/2")]

theorem variables_found_shared :
    ∃ t, Reaches step (fun t i => t.Allowed i ∧ t.Clear i) new t ∧
      t.path 1 = some (ascii "/a/0/b") ∧
      ∀ v, t.isVariable v = true → ∃ path, t.path v = some path ∧ t.find path = some v := by
  have run : ∃ t, perform step (fun t i => decide (t.Allowed i ∧ t.Clear i)) shared new = some t ∧
      t.path 1 = some (ascii "/a/0/b") := by
    have evaluated : ((perform step (fun t i => decide (t.Allowed i ∧ t.Clear i)) shared new).map
        fun t => t.path 1) = some (some (ascii "/a/0/b")) := by decide
    obtain ⟨t, ran, path⟩ := Option.map_eq_some_iff.mp evaluated
    exact ⟨t, ran, path⟩
  obtain ⟨t, ran, path⟩ := run
  have reached : Reaches step (fun t i => t.Allowed i ∧ t.Clear i) new t :=
    Reaches.perform (fun _ _ fine => of_decide_eq_true fine) .start ran
  exact ⟨t, reached, path, (variables_found reached).1⟩

/-- Two variables share `/a`, so they are its children 0 and 1; a third one is
inserted as `/a/3`. The next one on `/a` is the fourth child. -/
def colliding : List Insertion :=
  [.pathInsert 0 (ascii "/a"), .pathInsert 0 (ascii "/a"), .pathInsert 0 (ascii "/a/3"),
    .pathInsert 0 (ascii "/a")]

theorem number_overwrites :
    ¬ ∀ t, Reaches step Allowed new t → ∀ v, t.isVariable v = true →
      ∃ path, t.path v = some path ∧ t.find path = some v := by
  intro claim
  have evaluated : ((perform step (fun t i => decide (t.Allowed i)) colliding new).map
      fun t => (t.isVariable 4, t.path 4, t.find (ascii "/a/3"))) =
      some (true, some (ascii "/a/3"), some 5) := by decide
  obtain ⟨t, ran, seen⟩ := Option.map_eq_some_iff.mp evaluated
  simp only [Prod.mk.injEq] at seen
  obtain ⟨isVar, here, finds⟩ := seen
  have reached : Reaches step Allowed new t :=
    Reaches.perform (fun _ _ fine => of_decide_eq_true fine) .start ran
  obtain ⟨path, same, found⟩ := claim t reached 4 isVar
  rw [here, Option.some.injEq] at same
  rw [← same, finds] at found
  exact absurd found (by decide)

end Directory
end PdServ
