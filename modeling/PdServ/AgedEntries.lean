import Mathlib.Data.List.Basic
import Mathlib.Data.List.Nodup
import Mathlib.Tactic.Common

/-!
A store of bounded size: keys with their values in the order of their age, the one
stored longest ago first. Storing a key makes it the youngest; what exceeds the limit
is dropped from the old end. Nothing here names the server.
-/

namespace AgedEntries

variable {Key Value : Type}

def keys (entries : List (Key × Value)) : List Key := entries.map Prod.fst

theorem keys_concat (entries : List (Key × Value)) (key : Key) (value : Value) :
    keys (entries ++ [(key, value)]) = keys entries ++ [key] := by
  rw [keys, keys, List.map_append]
  rfl

variable [DecidableEq Key]

def erase (entries : List (Key × Value)) (key : Key) : List (Key × Value) :=
  entries.filter fun entry => entry.1 ≠ key

def store (limit : Nat) (entries : List (Key × Value)) (key : Key) (value : Value) :
    List (Key × Value) :=
  let all := erase entries key ++ [(key, value)]
  all.drop (all.length - limit)

def lookup (entries : List (Key × Value)) (key : Key) : Option Value :=
  (entries.find? fun entry => entry.1 = key).map Prod.snd

theorem keys_erase (entries : List (Key × Value)) (key : Key) :
    keys (erase entries key) = (keys entries).filter (· ≠ key) := by
  rw [keys, keys, erase, List.filter_map]
  rfl

theorem erase_absent {entries : List (Key × Value)} {key : Key} (absent : key ∉ keys entries) :
    erase entries key = entries := by
  apply List.filter_eq_self.mpr
  intro entry member
  have differs : entry.1 ≠ key := by
    rintro rfl
    exact absent (List.mem_map_of_mem member)
  simp [differs]

theorem erase_length_lt {entries : List (Key × Value)} {key : Key} (present : key ∈ keys entries) :
    (erase entries key).length < entries.length := by
  obtain ⟨entry, member, rfl⟩ := List.mem_map.mp present
  exact List.length_filter_lt_length_iff_exists.mpr ⟨entry, member, by simp⟩

/-- Where there is room nothing is dropped. -/
theorem store_of_room {limit : Nat} {entries : List (Key × Value)} {key : Key} (value : Value)
    (few : entries.length ≤ limit) (room : key ∈ keys entries ∨ entries.length < limit) :
    store limit entries key value = erase entries key ++ [(key, value)] := by
  have short : (erase entries key).length < limit := by
    rcases room with present | less
    · have := erase_length_lt present
      omega
    · have := List.length_filter_le (fun entry : Key × Value => decide (entry.1 ≠ key)) entries
      exact Nat.lt_of_le_of_lt this less
  have whole : (erase entries key ++ [(key, value)]).length ≤ limit := by
    rw [List.length_append]
    exact short
  rw [store, Nat.sub_eq_zero_of_le whole, List.drop_zero]

theorem store_length_le (limit : Nat) (entries : List (Key × Value)) (key : Key) (value : Value) :
    (store limit entries key value).length ≤ limit := by
  rw [store, List.length_drop]
  omega

/-- The key just stored is found. -/
theorem lookup_erase_append (entries : List (Key × Value)) (key : Key) (value : Value) :
    lookup (erase entries key ++ [(key, value)]) key = some value := by
  have none_left : (erase entries key).find? (fun entry => entry.1 = key) = none := by
    apply List.find?_eq_none.mpr
    intro entry member
    simpa using (List.mem_filter.mp member).2
  rw [lookup, List.find?_append, none_left]
  simp

theorem mem_of_lookup {entries : List (Key × Value)} {key : Key} {value : Value}
    (found : lookup entries key = some value) : (key, value) ∈ entries := by
  obtain ⟨entry, here, rfl⟩ := Option.map_eq_some_iff.mp found
  have same : entry.1 = key := by simpa using List.find?_some here
  rw [← same]
  exact List.mem_of_find?_eq_some here

end AgedEntries
