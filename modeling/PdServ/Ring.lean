import Mathlib.Algebra.Order.Ring.Nat
import Mathlib.Data.List.Basic
import Mathlib.Logic.Function.Basic
import Mathlib.Tactic.Common

/-!
A ring of slots between one writer and one reader. The reader stands on the
slot it has read last, the writer on the slot it has published last; one slot
stays free, so that equal positions mean an empty ring. Nothing here names the
server.
-/

namespace Ring

variable {Entry : Type} {size : Nat}

/-- The slot behind `i`. -/
def next (size i : Nat) : Nat := if i + 1 = size then 0 else i + 1

/-- The slot `offset` steps behind `start`, at most once around. -/
def index (size start offset : Nat) : Nat :=
  if start + offset < size then start + offset else start + offset - size

/-- The entries `pending` are published and not read yet. -/
structure Carries (size : Nat) (slots : Nat → Entry) (rp wp : Nat)
    (pending : List Entry) : Prop where
  inside : rp < size
  room : pending.length < size
  writer : wp = index size rp pending.length
  held : ∀ (i : Nat) (h : i < pending.length), slots (index size rp (i + 1)) = pending[i]

theorem index_lt {start offset : Nat} (inside : start < size) (short : offset ≤ size) :
    index size start offset < size := by
  unfold index
  split <;> omega

theorem index_zero {start : Nat} (inside : start < size) : index size start 0 = start := by
  unfold index
  split <;> omega

theorem index_inj {start left right : Nat} (hl : left < size) (hr : right < size)
    (same : index size start left = index size start right) :
    left = right := by
  unfold index at same
  split at same <;> split at same <;> omega

theorem next_index {start offset : Nat} (inside : start < size) (short : offset < size) :
    next size (index size start offset) = index size start (offset + 1) := by
  unfold next index
  split <;> split <;> split <;> omega

theorem index_next {start offset : Nat} (short : offset < size) :
    index size (next size start) offset = index size start (offset + 1) := by
  unfold next index
  split <;> split <;> split <;> omega

namespace Carries

variable {slots : Nat → Entry} {rp wp : Nat} {pending : List Entry}

/-- An empty ring: both stand on the same slot. -/
theorem start (slots : Nat → Entry) {rp : Nat} (inside : rp < size) :
    Carries size slots rp rp [] where
  inside := inside
  room := Nat.lt_of_le_of_lt (Nat.zero_le rp) inside
  writer := (index_zero inside).symm
  held := by simp

theorem writer_lt (carries : Carries size slots rp wp pending) : wp < size := by
  rw [carries.writer]
  exact index_lt carries.inside (Nat.le_of_lt carries.room)

theorem empty_iff (carries : Carries size slots rp wp pending) :
    rp = wp ↔ pending = [] := by
  have here := index_zero carries.inside
  constructor
  · intro same
    have zero : 0 = pending.length := by
      apply index_inj
        (Nat.lt_of_le_of_lt (Nat.zero_le _) carries.inside) carries.room
      exact here.trans (same.trans carries.writer)
    exact List.eq_nil_of_length_eq_zero zero.symm
  · intro none_left
    rw [carries.writer, none_left]
    exact here.symm

/-- The writer waits in front of the reader exactly when one slot is left. -/
theorem room_of_free (carries : Carries size slots rp wp pending)
    (free : next size wp ≠ rp) : pending.length + 1 < size := by
  rcases Nat.lt_or_ge (pending.length + 1) size with short | long
  · exact short
  · exfalso
    apply free
    have room := carries.room
    rw [carries.writer, next_index carries.inside room]
    have inside := carries.inside
    unfold index
    split <;> omega

/-- The free slot is none of those that are still to be read. -/
theorem free_slot (carries : Carries size slots rp wp pending)
    (free : next size wp ≠ rp) {i : Nat} (h : i < pending.length) :
    index size rp (i + 1) ≠ next size wp := by
  have room := carries.room_of_free free
  rw [carries.writer, next_index carries.inside carries.room]
  intro same
  have := index_inj (by omega) (by omega) same
  omega

/-- Whatever is written into the free slot disturbs nothing. -/
theorem write (carries : Carries size slots rp wp pending)
    (free : next size wp ≠ rp) (entry : Entry) :
    Carries size (Function.update slots (next size wp) entry) rp wp pending where
  inside := carries.inside
  room := carries.room
  writer := carries.writer
  held := by
    intro i h
    rw [Function.update_of_ne (carries.free_slot free h)]
    exact carries.held i h

theorem push (carries : Carries size slots rp wp pending)
    (free : next size wp ≠ rp) (entry : Entry) :
    Carries size (Function.update slots (next size wp) entry) rp (next size wp)
      (pending ++ [entry]) where
  inside := carries.inside
  room := by
    rw [List.length_append, List.length_singleton]
    exact carries.room_of_free free
  writer := by
    rw [List.length_append, List.length_singleton, carries.writer,
      next_index carries.inside carries.room]
  held := by
    intro i h
    rw [List.length_append, List.length_singleton] at h
    by_cases old : i < pending.length
    · rw [Function.update_of_ne (carries.free_slot free old),
        List.getElem_append_left old]
      exact carries.held i old
    · have last : i = pending.length := by omega
      subst last
      rw [carries.writer, next_index carries.inside carries.room, Function.update_self]
      simp

theorem pop {entry : Entry} (carries : Carries size slots rp wp (entry :: pending)) :
    slots (next size rp) = entry ∧
      Carries size slots (next size rp) wp pending := by
  have room := carries.room
  have inside := carries.inside
  simp only [List.length_cons] at room
  constructor
  · have first := carries.held 0 (by simp)
    rw [← next_index inside (by omega), index_zero inside] at first
    exact first
  · constructor
    · unfold next
      split <;> omega
    · omega
    · rw [index_next (by omega)]
      exact carries.writer
    · intro i h
      rw [index_next (by omega)]
      exact carries.held (i + 1) (by simpa using h)

end Carries

/-- The entries `pending` are written and not read yet, where the reader stands
on the slot it reads next and the writer on the slot it writes next. -/
structure Queues (size : Nat) (slots : Nat → Entry) (rp wp : Nat)
    (pending : List Entry) : Prop where
  inside : rp < size
  room : pending.length < size
  writer : wp = index size rp pending.length
  held : ∀ (i : Nat) (h : i < pending.length), slots (index size rp i) = pending[i]

namespace Queues

variable {slots : Nat → Entry} {rp wp : Nat} {pending : List Entry}

theorem start (slots : Nat → Entry) {rp : Nat} (inside : rp < size) :
    Queues size slots rp rp [] where
  inside := inside
  room := Nat.lt_of_le_of_lt (Nat.zero_le rp) inside
  writer := (index_zero inside).symm
  held := by simp

theorem writer_lt (queues : Queues size slots rp wp pending) : wp < size := by
  rw [queues.writer]
  exact index_lt queues.inside (Nat.le_of_lt queues.room)

theorem empty_iff (queues : Queues size slots rp wp pending) :
    rp = wp ↔ pending = [] := by
  have here := index_zero queues.inside
  constructor
  · intro same
    have zero : 0 = pending.length := by
      apply index_inj
        (Nat.lt_of_le_of_lt (Nat.zero_le _) queues.inside) queues.room
      exact here.trans (same.trans queues.writer)
    exact List.eq_nil_of_length_eq_zero zero.symm
  · intro none_left
    rw [queues.writer, none_left]
    exact here.symm

/-- The writer comes to stand on the reader exactly when the last slot fills. -/
theorem free_iff (queues : Queues size slots rp wp pending) :
    next size wp ≠ rp ↔ pending.length + 1 < size := by
  have room := queues.room
  have inside := queues.inside
  rw [queues.writer, next_index inside room]
  unfold index
  split <;> omega

theorem push (queues : Queues size slots rp wp pending)
    (free : next size wp ≠ rp) (entry : Entry) :
    Queues size (Function.update slots wp entry) rp (next size wp)
      (pending ++ [entry]) where
  inside := queues.inside
  room := by
    rw [List.length_append, List.length_singleton]
    exact queues.free_iff.mp free
  writer := by
    rw [List.length_append, List.length_singleton, queues.writer,
      next_index queues.inside queues.room]
  held := by
    intro i h
    rw [List.length_append, List.length_singleton] at h
    by_cases old : i < pending.length
    · have apart : index size rp i ≠ wp := by
        intro same
        have := index_inj (Nat.lt_trans old queues.room) queues.room
          (same.trans queues.writer)
        omega
      rw [Function.update_of_ne apart, List.getElem_append_left old]
      exact queues.held i old
    · have last : i = pending.length := by omega
      subst last
      rw [← queues.writer, Function.update_self]
      simp

theorem pop {entry : Entry} (queues : Queues size slots rp wp (entry :: pending)) :
    slots rp = entry ∧ Queues size slots (next size rp) wp pending := by
  have room := queues.room
  have inside := queues.inside
  simp only [List.length_cons] at room
  constructor
  · have first := queues.held 0 (by simp)
    rw [index_zero inside] at first
    exact first
  · constructor
    · unfold next
      split <;> omega
    · omega
    · rw [index_next (by omega)]
      exact queues.writer
    · intro i h
      rw [index_next (by omega)]
      exact queues.held (i + 1) (by simpa using h)

end Queues

/-- A ring that is written again and again holds the last entries of the log,
and `clear` where nothing has been written yet. -/
structure Logs (size : Nat) (slots : Nat → Entry) (wp : Nat) (clear : Entry)
    (log : List Entry) : Prop where
  writer : wp = log.length % size
  kept : ∀ k entry, log[k]? = some entry → log.length ≤ k + size → slots (k % size) = entry
  unwritten : ∀ i, log.length ≤ i → i < size → slots i = clear

namespace Logs

variable {slots : Nat → Entry} {wp : Nat} {clear : Entry} {log : List Entry}

theorem start (size : Nat) (clear : Entry) : Logs size (fun _ => clear) 0 clear [] where
  writer := by simp
  kept := by simp
  unwritten := fun _ _ _ => rfl

theorem write (logs : Logs size slots wp clear log) (positive : 0 < size) (entry : Entry) :
    Logs size (Function.update slots wp entry) (next size wp) clear (log ++ [entry]) := by
  have writer := logs.writer
  have inside := Nat.mod_lt log.length positive
  constructor
  · rw [writer, next, List.length_append, List.length_singleton, Nat.add_mod]
    rcases Nat.lt_or_ge 1 size with more | one
    · rw [Nat.mod_eq_of_lt more]
      split
      · next last =>
        rw [last, Nat.mod_self]
      · exact (Nat.mod_eq_of_lt (by omega)).symm
    · obtain rfl : size = 1 := by omega
      simp [Nat.mod_one]
  · intro k other here recent
    rw [List.length_append, List.length_singleton] at recent
    rw [List.getElem?_append] at here
    split at here
    · next old =>
      have apart : k % size ≠ wp := by
        rw [writer]
        intro same
        have gap : (log.length - k) % size = 0 := (Nat.sub_mod_eq_zero_of_mod_eq same.symm)
        rw [Nat.mod_eq_of_lt (by omega)] at gap
        omega
      rw [Function.update_of_ne apart]
      exact logs.kept k other here (by omega)
    · next fresh =>
      have last : k = log.length := by
        have short := (List.getElem?_eq_some_iff.mp here).1
        rw [List.length_singleton] at short
        omega
      subst last
      rw [← writer, Function.update_self]
      simpa using here
  · intro i behind short
    rw [List.length_append, List.length_singleton] at behind
    have apart : i ≠ wp := by
      rw [writer, Nat.mod_eq_of_lt (by omega)]
      omega
    rw [Function.update_of_ne apart]
    exact logs.unwritten i (by omega) short

/-- Slots one behind the other hold what was written one after the other. -/
theorem segment (logs : Logs size slots wp clear log) (k start count : Nat)
    (first : start = k % size) (short : start + count ≤ size)
    (recent : log.length ≤ k + size) (written : k + count ≤ log.length) :
    (List.range' start count).map slots = (log.drop k).take count := by
  apply List.ext_getElem
  · simp
    omega
  · intro i left right
    rw [List.length_map, List.length_range'] at left
    have here : log[k + i]? = some log[k + i] := List.getElem?_eq_getElem (by omega)
    have slot : (k + i) % size = start + i := by
      rw [Nat.add_mod, ← first, Nat.mod_eq_of_lt (show i < size by omega)]
      rcases Nat.eq_zero_or_pos count with none_there | some_there
      · omega
      · exact Nat.mod_eq_of_lt (by omega)
    have held := logs.kept (k + i) _ here (by omega)
    rw [slot] at held
    simp [held]

end Logs

end Ring
