import Mathlib.Algebra.Order.Ring.Nat
import Mathlib.Data.List.Basic
import Mathlib.Tactic.Common

/-!
Loops over the entries of a tree map, in the order of the keys. The body may
fail and works on a state; it may also replace the value it visits, as a loop
over the iterators of a `std::map` does. Nothing here names the server. Each
loop has one rule: what the body needs at its key may be disturbed by the
body at that same key only.
-/

namespace TreeUpdate

open Std

variable {Key Value State : Type} {cmp : Key → Key → Ordering}

/-- Run `visit` for every entry, in key order. -/
def forEach (visit : Key → Value → State → Option State)
    (map : TreeMap Key Value cmp) (state : State) : Option State :=
  map.toList.foldlM (fun state entry => visit entry.1 entry.2 state) state

/-- Run `visit` for every entry, in key order, and store the value it returns
under the key it was called with. -/
def updateAll (visit : Key → Value → State → Option (Value × State))
    (map : TreeMap Key Value cmp) (state : State) :
    Option (TreeMap Key Value cmp × State) :=
  forEach (fun key value (acc : TreeMap Key Value cmp × State) => do
    let (value, state) ← visit key value acc.2
    some (acc.1.insert key value, state)) map (map, state)

/-- Put an inner container back under its key, or erase the key when nothing
is left of it. -/
def prune (map : TreeMap Key Value cmp) (key : Key) (inner : Value)
    (empty : Bool) : TreeMap Key Value cmp :=
  if empty then map.erase key else map.insert key inner

section Lookup

variable [TransCmp cmp] [LawfulEqCmp cmp]

theorem getElem?_insert_self (map : TreeMap Key Value cmp) (key : Key)
    (value : Value) : (map.insert key value)[key]? = some value := by
  rw [TreeMap.getElem?_insert, if_pos ReflCmp.compare_self]

theorem getElem?_insert_other (map : TreeMap Key Value cmp) {key other : Key}
    (value : Value) (apart : key ≠ other) :
    (map.insert key value)[other]? = map[other]? := by
  rw [TreeMap.getElem?_insert, if_neg]
  intro same
  exact apart (LawfulEqCmp.eq_of_compare same)

theorem getElem?_erase_other (map : TreeMap Key Value cmp) {key other : Key}
    (apart : key ≠ other) : (map.erase key)[other]? = map[other]? := by
  rw [TreeMap.getElem?_erase, if_neg]
  intro same
  exact apart (LawfulEqCmp.eq_of_compare same)

theorem getElem?_erase_self (map : TreeMap Key Value cmp) (key : Key) :
    (map.erase key)[key]? = none := by
  rw [TreeMap.getElem?_erase, if_pos ReflCmp.compare_self]

theorem getElem?_prune_other (map : TreeMap Key Value cmp) {key other : Key}
    (inner : Value) (empty : Bool) (apart : key ≠ other) :
    (prune map key inner empty)[other]? = map[other]? := by
  unfold prune
  split
  · exact getElem?_erase_other map apart
  · exact getElem?_insert_other map inner apart

theorem getElem?_prune_self (map : TreeMap Key Value cmp) (key : Key)
    (inner : Value) (empty : Bool) :
    (prune map key inner empty)[key]? = if empty then none else some inner := by
  unfold prune
  split
  · exact getElem?_erase_self map key
  · exact getElem?_insert_self map key inner

/-- A lookup that goes on inside the value does not notice whether an empty
inner container was erased or put back. -/
theorem bind_prune {Inner : Type} (map : TreeMap Key Value cmp) (key other : Key)
    [Decidable (key = other)] (inner : Value) {empty : Bool}
    (look : Value → Option Inner) (gone : empty = true → look inner = none) :
    (prune map key inner empty)[other]?.bind look =
      if key = other then look inner else map[other]?.bind look := by
  by_cases same : key = other
  · subst same
    rw [getElem?_prune_self, if_pos rfl]
    cases empty with
    | false => rfl
    | true => exact (gone rfl).symm
  · rw [getElem?_prune_other map inner empty same, if_neg same]

end Lookup

section Rules

variable [TransCmp cmp] [LawfulEqCmp cmp]

/-- The rule of `forEach`: `pre` is what the body needs at a key, `post` what
it leaves there, and `apart key` relates two states that differ only in what
belongs to `key`. -/
theorem forEach_spec (map : TreeMap Key Value cmp)
    (visit : Key → Value → State → Option State)
    (pre post : Key → Value → State → Prop)
    (apart : Key → State → State → Prop) (inv : State → Prop) (state : State)
    (visits : ∀ key value state, map[key]? = some value → inv state →
      pre key value state → ∃ after, visit key value state = some after ∧
        inv after ∧ post key value after ∧ apart key state after)
    (keepsPre : ∀ key other value state after, key ≠ other →
      apart key state after → pre other value state → pre other value after)
    (keepsPost : ∀ key other value state after, key ≠ other →
      apart key state after → post other value state → post other value after)
    (holds : inv state) (start : ∀ key value, map[key]? = some value →
      pre key value state) :
    ∃ after, forEach visit map state = some after ∧ inv after ∧
      ∀ key value, map[key]? = some value → post key value after := by
  -- Induction over the entries still to visit; the keys differ pairwise, so a
  -- visit disturbs neither what the later ones need nor what is done.
  suffices loop : ∀ (entries : List (Key × Value)) (done : Key → Value → Prop)
      (state : State),
      (∀ entry ∈ entries, map[entry.1]? = some entry.2) →
      entries.Pairwise (fun left right => left.1 ≠ right.1) →
      (∀ key value, done key value → ∀ entry ∈ entries, entry.1 ≠ key) →
      inv state → (∀ entry ∈ entries, pre entry.1 entry.2 state) →
      (∀ key value, done key value → post key value state) →
      ∃ after, entries.foldlM (fun state entry => visit entry.1 entry.2 state)
          state = some after ∧ inv after ∧
        (∀ entry ∈ entries, post entry.1 entry.2 after) ∧
        ∀ key value, done key value → post key value after by
    have distinct : map.toList.Pairwise (fun left right => left.1 ≠ right.1) := by
      refine TreeMap.distinct_keys_toList.imp ?_
      intro left right differ same
      exact differ (by rw [same]; exact ReflCmp.compare_self)
    have entry_iff : ∀ key value, (key, value) ∈ map.toList ↔
        map[key]? = some value := fun key value =>
      TreeMap.mem_toList_iff_getElem?_eq_some
    obtain ⟨after, ran, stays, each, -⟩ := loop map.toList (fun _ _ => False) state
      (fun entry member => (entry_iff entry.1 entry.2).mp member) distinct
      (by simp) holds
      (fun entry member => start _ _ ((entry_iff entry.1 entry.2).mp member))
      (by simp)
    exact ⟨after, ran, stays, fun key value found =>
      each (key, value) ((entry_iff key value).mpr found)⟩
  intro entries
  induction entries with
  | nil =>
      intro done state _ _ _ holds _ left
      exact ⟨state, rfl, holds, by simp, left⟩
  | cons entry rest ih =>
      intro done state found distinct fresh holds ready left
      have away := (List.pairwise_cons.mp distinct).1
      obtain ⟨middle, ran, stays, now, moved⟩ := visits entry.1 entry.2 state
        (found entry List.mem_cons_self) holds (ready entry List.mem_cons_self)
      obtain ⟨after, rest_ran, rest_stays, rest_post, done_post⟩ := ih
        (fun key value => done key value ∨ (key = entry.1 ∧ value = entry.2)) middle
        (fun other member => found other (List.mem_cons_of_mem _ member))
        (List.pairwise_cons.mp distinct).2
        (by
          rintro key value (old | ⟨rfl, -⟩) other member
          · exact fresh key value old other (List.mem_cons_of_mem _ member)
          · exact (away other member).symm)
        stays
        (fun other member => keepsPre _ _ _ _ _ (away other member) moved
          (ready other (List.mem_cons_of_mem _ member)))
        (by
          rintro key value (old | ⟨rfl, rfl⟩)
          · exact keepsPost _ _ _ _ _
              (fresh key value old entry List.mem_cons_self) moved (left key value old)
          · exact now)
      refine ⟨after, ?_, rest_stays, ?_, fun key value old =>
        done_post key value (.inl old)⟩
      · rw [List.foldlM_cons, ran]
        exact rest_ran
      · intro other member
        cases List.mem_cons.mp member with
        | inl same => subst same; exact done_post _ _ (.inr ⟨rfl, rfl⟩)
        | inr later => exact rest_post other later

/-- The rule of `updateAll`: the keys stay, and every value found afterwards
is one its visit returned. -/
theorem updateAll_spec (map : TreeMap Key Value cmp)
    (visit : Key → Value → State → Option (Value × State))
    (pre post : Key → Value → State → Prop)
    (apart : Key → State → State → Prop) (inv : State → Prop) (state : State)
    (visits : ∀ key value state, map[key]? = some value → inv state →
      pre key value state → ∃ result after,
        visit key value state = some (result, after) ∧
        inv after ∧ post key result after ∧ apart key state after)
    (keepsPre : ∀ key other value state after, key ≠ other →
      apart key state after → pre other value state → pre other value after)
    (keepsPost : ∀ key other value state after, key ≠ other →
      apart key state after → post other value state → post other value after)
    (holds : inv state) (start : ∀ key value, map[key]? = some value →
      pre key value state) :
    ∃ result after, updateAll visit map state = some (result, after) ∧
      inv after ∧ (∀ key : Key, result[key]?.isSome = map[key]?.isSome) ∧
      ∀ key value, result[key]? = some value → post key value after := by
  obtain ⟨⟨result, after⟩, ran, ⟨stays, keys⟩, each⟩ := forEach_spec map
    (fun key value (acc : TreeMap Key Value cmp × State) => do
      let (value, state) ← visit key value acc.2
      some (acc.1.insert key value, state))
    (fun key value acc => pre key value acc.2)
    (fun key _ acc => ∃ value, acc.1[key]? = some value ∧ post key value acc.2)
    (fun key acc after => apart key acc.2 after.2 ∧
      ∀ other, key ≠ other → after.1[other]? = acc.1[other]?)
    (fun acc => inv acc.2 ∧
      ∀ key : Key, acc.1[key]?.isSome = map[key]?.isSome) (map, state)
    (by
      rintro key value ⟨tree, state⟩ found ⟨holds, keys⟩ ready
      obtain ⟨result, after, ran, stays, now, moved⟩ :=
        visits key value state found holds ready
      refine ⟨(tree.insert key result, after), by simp [ran], ⟨stays, ?_⟩,
        ⟨result, getElem?_insert_self tree key result, now⟩, moved, ?_⟩
      · intro other
        by_cases same : key = other
        · subst same
          rw [getElem?_insert_self, found]
          rfl
        · rw [getElem?_insert_other tree result same]
          exact keys other
      · intro other away
        exact getElem?_insert_other tree result away)
    (by
      intro key other value acc after away moved ready
      exact keepsPre _ _ _ _ _ away moved.1 ready)
    (by
      rintro key other _ acc after away moved ⟨value, found, left⟩
      exact ⟨value, by rw [moved.2 other away]; exact found,
        keepsPost _ _ _ _ _ away moved.1 left⟩)
    ⟨holds, fun _ => rfl⟩ start
  refine ⟨result, after, ran, stays, keys, ?_⟩
  intro key value found
  have known : (map[key]?).isSome := by
    rw [← keys key, found]
    rfl
  obtain ⟨value', found', left⟩ := each key _ (Option.eq_some_of_isSome known)
  have same : value' = value := by
    rw [found] at found'
    exact (Option.some.inj found').symm
  exact same ▸ left

/-- What every visit keeps holds after the loop. -/
theorem forEach_keeps {map : TreeMap Key Value cmp}
    {visit : Key → Value → State → Option State} (inv : State → Prop) {state after : State}
    (visits : ∀ key value state after, map[key]? = some value →
      visit key value state = some after → inv state → inv after)
    (ran : forEach visit map state = some after) (holds : inv state) : inv after := by
  suffices loop : ∀ (entries : List (Key × Value)) (state : State),
      (∀ entry ∈ entries, map[entry.1]? = some entry.2) → inv state →
      entries.foldlM (fun state entry => visit entry.1 entry.2 state) state = some after →
      inv after from
    loop map.toList state (fun entry member => TreeMap.mem_toList_iff_getElem?_eq_some.mp member)
      holds ran
  intro entries
  induction entries with
  | nil =>
      intro state _ holds ran
      cases ran
      exact holds
  | cons entry rest ih =>
      intro state found holds ran
      rw [List.foldlM_cons, Option.bind_eq_bind, Option.bind_eq_some_iff] at ran
      obtain ⟨middle, first, later⟩ := ran
      have kept := visits entry.1 entry.2 state middle (found entry List.mem_cons_self) first holds
      exact ih middle (fun other member => found other (List.mem_cons_of_mem _ member)) kept later

/-- What each visit establishes for its key, and no other visit undoes, holds
for all keys after the loop. -/
theorem forEach_marks {map : TreeMap Key Value cmp}
    {visit : Key → Value → State → Option State} (post : Key → State → Prop)
    {state after : State}
    (marks : ∀ key value state after, map[key]? = some value →
      visit key value state = some after → post key after)
    (keeps : ∀ other key value state after, map[key]? = some value →
      visit key value state = some after → post other state → post other after)
    (ran : forEach visit map state = some after) (key : Key) (listed : key ∈ map) :
    post key after := by
  suffices loop : ∀ (entries : List (Key × Value)) (state : State),
      (∀ entry ∈ entries, map[entry.1]? = some entry.2) →
      (post key state ∨ ∃ entry ∈ entries, entry.1 = key) →
      entries.foldlM (fun state entry => visit entry.1 entry.2 state) state = some after →
      post key after by
    refine loop map.toList state
      (fun entry member => TreeMap.mem_toList_iff_getElem?_eq_some.mp member) (.inr ?_) ran
    refine ⟨(key, map[key]), ?_, rfl⟩
    exact TreeMap.mem_toList_iff_getElem?_eq_some.mpr (TreeMap.getElem?_eq_some_getElem listed)
  intro entries
  induction entries with
  | nil =>
      rintro state - (holds | ⟨entry, member, -⟩) ran
      · cases ran
        exact holds
      · cases member
  | cons entry rest ih =>
      intro state found reached ran
      rw [List.foldlM_cons, Option.bind_eq_bind, Option.bind_eq_some_iff] at ran
      obtain ⟨middle, first, later⟩ := ran
      have here := found entry List.mem_cons_self
      refine ih middle (fun other member => found other (List.mem_cons_of_mem _ member)) ?_ later
      rcases reached with holds | ⟨other, member, same⟩
      · exact .inl (keeps key entry.1 entry.2 state middle here first holds)
      · cases List.mem_cons.mp member with
        | inl head =>
            subst head
            exact .inl (same ▸ marks other.1 other.2 state middle here first)
        | inr tail => exact .inr ⟨other, tail, same⟩

/-- Where an update has run, it has kept the keys, and what it left under a key
was returned by the visit there. -/
theorem updateAll_image {map result : TreeMap Key Value cmp}
    {visit : Key → Value → State → Option (Value × State)} {state after : State}
    (ran : updateAll visit map state = some (result, after)) :
    (∀ key, key ∈ result ↔ key ∈ map) ∧
      ∀ key value', result[key]? = some value' → ∃ value before later,
        map[key]? = some value ∧ visit key value before = some (value', later) := by
  have put : ∀ (key : Key) (value : Value) (acc after : TreeMap Key Value cmp × State),
      (do
        let (value, state) ← visit key value acc.2
        some (acc.1.insert key value, state)) = some after →
      ∃ value', visit key value acc.2 = some (value', after.2) ∧
        after.1 = acc.1.insert key value' := by
    intro key value acc after visited
    obtain ⟨⟨value', state⟩, returned, same⟩ := Option.bind_eq_some_iff.mp visited
    cases same
    exact ⟨value', returned, rfl⟩
  have keys := forEach_keeps
    (fun acc : TreeMap Key Value cmp × State => ∀ key, key ∈ acc.1 ↔ key ∈ map)
    (by
      intro key value acc after found visited kept other
      obtain ⟨value', -, same⟩ := put key value acc after visited
      rw [same, TreeMap.mem_insert, kept other]
      constructor
      · rintro (here | listed)
        · rw [← LawfulEqCmp.eq_of_compare here, TreeMap.mem_iff_isSome_getElem?, found]
          rfl
        · exact listed
      · exact .inr)
    ran fun _ => .rfl
  have images := forEach_marks
    (fun key (acc : TreeMap Key Value cmp × State) =>
      ∀ value', acc.1[key]? = some value' → ∃ value before later,
        map[key]? = some value ∧ visit key value before = some (value', later))
    (by
      intro key value acc after found visited stored here
      obtain ⟨value', returned, same⟩ := put key value acc after visited
      rw [same, getElem?_insert_self] at here
      cases here
      exact ⟨value, acc.2, after.2, found, returned⟩)
    (by
      intro other key value acc after found visited known stored here
      obtain ⟨value', returned, same⟩ := put key value acc after visited
      by_cases apart : key = other
      · subst apart
        rw [same, getElem?_insert_self] at here
        cases here
        exact ⟨value, acc.2, after.2, found, returned⟩
      · rw [same, getElem?_insert_other _ _ apart] at here
        exact known stored here)
    ran
  refine ⟨keys, fun key value' found => images key ?_ value' found⟩
  rw [← keys key, TreeMap.mem_iff_isSome_getElem?, found]
  rfl

/-- The visit at one key, between the visits at the others: what these keep
reaches it from the start of the loop and from it the end. -/
theorem forEach_focus {map : TreeMap Key Value cmp} {visit : Key → Value → State → Option State}
    {state after : State} (ran : forEach visit map state = some after) {key : Key} {value : Value}
    (found : map[key]? = some value) :
    ∃ before later, visit key value before = some later ∧
      ∀ inv : State → Prop,
        (∀ other value state after, key ≠ other → map[other]? = some value →
          visit other value state = some after → inv state → inv after) →
        (inv state → inv before) ∧ (inv later → inv after) := by
  have others : ∀ (inv : State → Prop),
      (∀ other value state after, key ≠ other → map[other]? = some value →
        visit other value state = some after → inv state → inv after) →
      ∀ (entries : List (Key × Value)) (state after : State),
      (∀ entry ∈ entries, map[entry.1]? = some entry.2 ∧ key ≠ entry.1) →
      entries.foldlM (fun state entry => visit entry.1 entry.2 state) state = some after →
      inv state → inv after := by
    intro inv keeps entries
    induction entries with
    | nil =>
        intro state after _ ran holds
        cases ran
        exact holds
    | cons entry rest ih =>
        intro state after apart ran holds
        rw [List.foldlM_cons, Option.bind_eq_bind, Option.bind_eq_some_iff] at ran
        obtain ⟨middle, first, rest_ran⟩ := ran
        obtain ⟨listed, away⟩ := apart entry List.mem_cons_self
        exact ih middle after (fun other member => apart other (List.mem_cons_of_mem _ member))
          rest_ran (keeps entry.1 entry.2 state middle away listed first holds)
  obtain ⟨front, back, split⟩ := List.append_of_mem
    (TreeMap.mem_toList_iff_getElem?_eq_some.mpr found)
  have distinct : map.toList.Pairwise (fun left right => left.1 ≠ right.1) := by
    refine TreeMap.distinct_keys_toList.imp ?_
    intro left right differ same
    exact differ (by rw [same]; exact ReflCmp.compare_self)
  have listed : ∀ entry ∈ map.toList, map[entry.1]? = some entry.2 := fun entry member =>
    TreeMap.mem_toList_iff_getElem?_eq_some.mp member
  rw [split, List.pairwise_append] at distinct
  rw [split] at listed
  unfold forEach at ran
  rw [split, List.foldlM_append, Option.bind_eq_bind, Option.bind_eq_some_iff] at ran
  obtain ⟨before, front_ran, ran⟩ := ran
  rw [List.foldlM_cons, Option.bind_eq_bind, Option.bind_eq_some_iff] at ran
  obtain ⟨later, here, back_ran⟩ := ran
  refine ⟨before, later, here, fun inv keeps => ⟨?_, ?_⟩⟩
  · refine others inv keeps front state before (fun entry member => ?_) front_ran
    exact ⟨listed entry (List.mem_append_left _ member),
      (distinct.2.2 entry member _ List.mem_cons_self).symm⟩
  · refine others inv keeps back later after (fun entry member => ?_) back_ran
    exact ⟨listed entry (List.mem_append_right _ (List.mem_cons_of_mem _ member)),
      (List.pairwise_cons.mp distinct.2.1).1 entry member⟩

theorem updateAll_focus {map result : TreeMap Key Value cmp}
    {visit : Key → Value → State → Option (Value × State)} {state after : State}
    (ran : updateAll visit map state = some (result, after)) {key : Key} {value : Value}
    (found : map[key]? = some value) :
    ∃ before value' later, visit key value before = some (value', later) ∧
      ∀ inv : State → Prop,
        (∀ other value state value' after, key ≠ other → map[other]? = some value →
          visit other value state = some (value', after) → inv state → inv after) →
        (inv state → inv before) ∧ (inv later → inv after) := by
  obtain ⟨before, later, here, loop⟩ := forEach_focus ran found
  obtain ⟨⟨value', state'⟩, visited, same⟩ := Option.bind_eq_some_iff.mp here
  refine ⟨before.2, value', state', visited, fun inv keeps => ?_⟩
  have moved := loop (fun acc => inv acc.2) (by
    intro other value acc after apart listed body holds
    obtain ⟨⟨value', state'⟩, visited, same⟩ := Option.bind_eq_some_iff.mp body
    cases same
    exact keeps other value acc.2 value' state' apart listed visited holds)
  cases same
  exact moved

/-- What every visit keeps holds after the update. -/
theorem updateAll_keeps {map result : TreeMap Key Value cmp}
    {visit : Key → Value → State → Option (Value × State)} (inv : State → Prop)
    {state after : State}
    (visits : ∀ key value state value' after, map[key]? = some value →
      visit key value state = some (value', after) → inv state → inv after)
    (ran : updateAll visit map state = some (result, after)) (holds : inv state) : inv after := by
  refine forEach_keeps (fun acc : TreeMap Key Value cmp × State => inv acc.2) ?_ ran holds
  intro key value acc later found body holds
  obtain ⟨⟨value', state'⟩, visited, same⟩ := Option.bind_eq_some_iff.mp body
  cases same
  exact visits key value acc.2 value' state' found visited holds

omit [LawfulEqCmp cmp] in
theorem isEmpty_of_keys {map result : TreeMap Key Value cmp}
    (keys : ∀ key, key ∈ result ↔ key ∈ map) : result.isEmpty = map.isEmpty := by
  rw [Bool.eq_iff_iff, TreeMap.isEmpty_iff_forall_not_mem, TreeMap.isEmpty_iff_forall_not_mem]
  simp only [keys]

end Rules

end TreeUpdate
