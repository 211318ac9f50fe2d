import Mathlib.Algebra.Order.Ring.Nat
import Mathlib.Data.List.Pairwise
import Mathlib.Logic.Function.Basic
import Mathlib.Data.Nat.Basic
import Mathlib.Order.Basic
import Mathlib.Tactic.Common

/-!
Areas of memory, and items that are laid out in buckets with one running
offset for each bucket. Nothing here names the server.
-/

namespace Areas

/-- The start of an area and its length. -/
abbrev Area := Nat × Nat

def Apart (a b : Area) : Prop := a.1 + a.2 ≤ b.1 ∨ b.1 + b.2 ≤ a.1

theorem Apart.symm {a b : Area} (apart : Apart a b) : Apart b a := Or.symm apart

def Within (low high : Nat) (a : Area) : Prop := low ≤ a.1 ∧ a.1 + a.2 ≤ high

theorem Within.mono {low high low' high' : Nat} {a : Area} (within : Within low high a)
    (below : low' ≤ low) (above : high ≤ high') : Within low' high' a :=
  ⟨below.trans within.1, within.2.trans above⟩

/-- Areas below a limit and areas above it are apart. -/
theorem pairwise_append {front back : List Area} {low middle high : Nat}
    (left : front.Pairwise Apart) (right : back.Pairwise Apart)
    (below : ∀ a ∈ front, Within low middle a) (above : ∀ b ∈ back, Within middle high b) :
    (front ++ back).Pairwise Apart := by
  apply List.pairwise_append.mpr
  refine ⟨left, right, ?_⟩
  intro a memberA b memberB
  exact .inl ((below a memberA).2.trans (above b memberB).1)

theorem pairwise_cons {first : Area} {rest : List Area} {high : Nat}
    (apart : rest.Pairwise Apart)
    (behind : ∀ a ∈ rest, Within (first.1 + first.2) high a) :
    (first :: rest).Pairwise Apart :=
  List.pairwise_cons.mpr ⟨fun a member => .inl (behind a member).1, apart⟩

variable {Item : Type} (bin size : Item → Nat)

/-- The size of all items of a bucket. -/
def total : List Item → Nat → Nat
  | [], _ => 0
  | item :: rest, b => (if bin item = b then size item else 0) + total rest b

/-- Every item is put at the offset of its bucket, which then moves on. -/
def place : (Nat → Nat) → List Item → List Area
  | _, [] => []
  | offset, item :: rest =>
      (offset (bin item), size item) ::
        place (Function.update offset (bin item) (offset (bin item) + size item)) rest

variable {bin size} {offset : Nat → Nat} {items : List Item}

theorem advance_le (item : Item) (rest : List Item) (b : Nat) :
    Function.update offset (bin item) (offset (bin item) + size item) b +
      total bin size rest b = offset b + total bin size (item :: rest) b := by
  simp only [total]
  by_cases same : bin item = b
  · subst same
    rw [Function.update_self, if_pos rfl]
    omega
  · rw [Function.update_of_ne (Ne.symm same), if_neg same]
    omega

theorem le_advance (item : Item) (b : Nat) :
    offset b ≤ Function.update offset (bin item) (offset (bin item) + size item) b := by
  by_cases same : b = bin item
  · subst same
    rw [Function.update_self]
    exact Nat.le_add_right ..
  · rw [Function.update_of_ne same]

/-- An item lies in the part of memory of its bucket. -/
theorem place_within : ∀ a ∈ place bin size offset items,
    ∃ b, (∃ item ∈ items, bin item = b) ∧
      Within (offset b) (offset b + total bin size items b) a := by
  induction items generalizing offset with
  | nil => simp [place]
  | cons item rest ih =>
      intro a member
      rcases List.mem_cons.mp member with rfl | member
      · refine ⟨bin item, ⟨item, List.mem_cons_self, rfl⟩, Nat.le_refl _, ?_⟩
        simp only [total, if_true]
        omega
      · obtain ⟨b, ⟨other, there, same⟩, low, high⟩ := ih a member
        refine ⟨b, ⟨other, List.mem_cons_of_mem _ there, same⟩, ?_, ?_⟩
        · exact (le_advance item b).trans low
        · rw [advance_le] at high
          exact high

/-- With buckets one behind the other, no two items overlap. -/
theorem place_pairwise
    (separate : ∀ item ∈ items, ∀ other ∈ items, bin item < bin other →
      offset (bin item) + total bin size items (bin item) ≤ offset (bin other)) :
    (place bin size offset items).Pairwise Apart := by
  induction items generalizing offset with
  | nil => exact List.Pairwise.nil
  | cons item rest ih =>
      apply List.pairwise_cons.mpr
      constructor
      · intro a member
        obtain ⟨b, ⟨other, there, same⟩, low, high⟩ := place_within a member
        subst same
        rw [advance_le] at high
        have here := List.mem_cons_self (a := item) (l := rest)
        have there := List.mem_cons_of_mem item there
        rcases Nat.lt_trichotomy (bin item) (bin other) with less | same | more
        · left
          have first := separate item here other there less
          have moved := (le_advance item (bin other)).trans low
          simp only [total, if_true] at first
          dsimp only
          omega
        · left
          rw [← same, Function.update_self] at low
          exact low
        · right
          exact high.trans (separate other there item here more)
      · apply ih
        intro one there other there' less
        rw [advance_le]
        have first := separate one (List.mem_cons_of_mem _ there) other
          (List.mem_cons_of_mem _ there') less
        exact first.trans (le_advance item (bin other))

/-- Offsets that are aligned stay so when the sizes are. -/
theorem place_aligned (width : Nat → Nat)
    (sizes : ∀ item ∈ items, width (bin item) ∣ size item)
    (starts : ∀ item ∈ items, width (bin item) ∣ offset (bin item))
    (i : Nat) (item : Item) (found : items[i]? = some item) :
    ∃ a, (place bin size offset items)[i]? = some a ∧ width (bin item) ∣ a.1 := by
  induction items generalizing offset i with
  | nil => simp at found
  | cons first rest ih =>
      cases i with
      | zero =>
          cases found
          exact ⟨_, rfl, starts _ List.mem_cons_self⟩
      | succ i =>
          apply ih _ _ i found
          · intro other member
            exact sizes other (List.mem_cons_of_mem _ member)
          · intro other member
            by_cases same : bin other = bin first
            · rw [same, Function.update_self]
              exact Nat.dvd_add (starts _ List.mem_cons_self) (sizes first List.mem_cons_self)
            · rw [Function.update_of_ne same]
              exact starts other (List.mem_cons_of_mem _ member)

end Areas
