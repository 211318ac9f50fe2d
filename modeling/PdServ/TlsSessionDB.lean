import PdServ.AgedEntries
import PdServ.Transition
import PdServ.XmlParser

/-!
The cache of TLS sessions, `TlsSessionDB` of `src/src/TLS.cpp`: a map from keys to
session data, and a list with an iterator for every entry of the map, in the order in
which they were stored. An iterator is the address of the node it points to; an
operation that follows one to a node that is gone has no result. The mutex makes every
operation one step.
-/

namespace PdServ

/-- A node of the map, at the address that `new` gave it. -/
structure MapNode where
  address : Nat
  key : List Byte
  value : List Byte
deriving DecidableEq, Repr

structure TlsSessionDB where
  maxSize : Nat
  map : List MapNode
  list : List Nat
deriving DecidableEq, Repr

namespace TlsSessionDB

/-- `TLS_DB_MAX_ENTRY_SIZE` -/
def maxEntrySize : Nat := 5000

def new (max : Nat) : TlsSessionDB := ⟨max, [], []⟩

/-- `map.find(key)` -/
def find (db : TlsSessionDB) (key : List Byte) : Option MapNode :=
  db.map.find? fun node => node.key = key

/-- `map.insert(node)`: a key that is there already keeps its node, and its value. -/
def insert (map : List MapNode) (node : MapNode) : List MapNode × Nat :=
  match map.find? fun other => other.key = node.key with
  | some other => (map, other.address)
  | none => (map ++ [node], node.address)

/-- `map.erase(it)`, which needs the node. -/
def eraseNode (map : List MapNode) (it : Nat) : Option (List MapNode) :=
  if it ∈ map.map MapNode.address then some (map.filter fun node => node.address ≠ it) else none

/-- `while (list.size() > maxSize)` -/
def evict (maxSize : Nat) : List MapNode → List Nat → Option (List MapNode × List Nat)
  | map, [] => some (map, [])
  | map, it :: rest =>
      if (it :: rest).length > maxSize then do
        let map ← eraseNode map it
        evict maxSize map rest
      else some (map, it :: rest)

/-- `store(key, value)`; `address` is where a new node would be. -/
def store (db : TlsSessionDB) (key value : List Byte) (address : Nat) :
    Option (Int × TlsSessionDB) :=
  if key.length > maxEntrySize ∨ value.length > maxEntrySize then some (-1, db)
  else do
    let (map, it) := insert db.map ⟨address, key, value⟩
    let list := db.list.filter (· ≠ it)
    -- the entry itself is not in the list while the others are counted
    let (map, list) ← evict db.maxSize map list
    some (0, { db with map := map, list := list ++ [it] })

def erase (db : TlsSessionDB) (key : List Byte) : Option (Int × TlsSessionDB) :=
  match db.find key with
  | none => some (-1, db)
  | some node => do
      let map ← eraseNode db.map node.address
      some (0, { db with map := map, list := db.list.filter (· ≠ node.address) })

/-- `datum_string::operator gnutls_datum_t`. The bytes are copied to the address
`res.size`, where the server has no memory; only an empty string is not copied. -/
def datum (str : List Byte) : Option (List Byte) := if str = [] then some [] else none

/-- `retrieve(key)`; nothing is the datum without bytes. -/
def retrieve (db : TlsSessionDB) (key : List Byte) : Option (List Byte) :=
  match db.find key with
  | none => some []
  | some node => datum node.value

/-- The key an iterator leads to. -/
def keyAt (db : TlsSessionDB) (it : Nat) : Option (List Byte) :=
  (db.map.find? fun node => node.address = it).map MapNode.key

/-! ### The two indexes -/

/-- The list has exactly one iterator for every node of the map, and each key has one
node. As the list is cut before the entry is appended, one more than `maxSize` may stay. -/
structure Indexed (db : TlsSessionDB) : Prop where
  addresses : (db.map.map MapNode.address).Nodup
  keys : (db.map.map MapNode.key).Nodup
  listed : db.list.Perm (db.map.map MapNode.address)
  bounded : db.list.length ≤ db.maxSize + 1

theorem find_some {db : TlsSessionDB} {key : List Byte} {node : MapNode}
    (found : db.find key = some node) : node ∈ db.map ∧ node.key = key := by
  have same := List.find?_some found
  exact ⟨List.mem_of_find?_eq_some found, by simpa using same⟩

theorem find_none {db : TlsSessionDB} {key : List Byte} (absent : db.find key = none) :
    ∀ node ∈ db.map, node.key ≠ key := by
  intro node member same
  have differs := List.find?_eq_none.mp absent node member
  exact differs (by simpa using same)

theorem filter_addresses (map : List MapNode) (it : Nat) :
    (map.filter fun node => node.address ≠ it).map MapNode.address =
      (map.map MapNode.address).filter (· ≠ it) := by
  rw [List.filter_map]
  rfl

/-- Whoever is evicted is known to both indexes, and leaves both. -/
theorem evict_spec (maxSize it : Nat) {map : List MapNode} {list : List Nat}
    (addresses : (map.map MapNode.address).Nodup)
    (listed : (list ++ [it]).Perm (map.map MapNode.address)) :
    ∃ left, evict maxSize map list = some (left, list.drop (list.length - maxSize)) ∧
      left.Sublist map ∧
      (list.drop (list.length - maxSize) ++ [it]).Perm (left.map MapNode.address) := by
  induction list generalizing map with
  | nil => exact ⟨map, by simp [evict], .refl _, by simpa using listed⟩
  | cons oldest rest ih =>
      by_cases many : (oldest :: rest).length > maxSize
      · have known : oldest ∈ map.map MapNode.address := listed.subset List.mem_cons_self
        -- its node is in the map once, so the others are not touched
        have once : oldest ∉ rest ++ [it] :=
          (List.nodup_cons.mp (listed.nodup_iff.mpr addresses)).1
        have others : (rest ++ [it]).Perm
            ((map.filter fun node => node.address ≠ oldest).map MapNode.address) := by
          have kept := listed.filter (· ≠ oldest)
          rw [List.cons_append, List.filter_cons_of_neg (by simp), List.filter_eq_self.mpr] at kept
          · rw [filter_addresses]
            exact kept
          · intro other member
            have apart : other ≠ oldest := fun same => once (same ▸ member)
            simp [apart]
        have distinct : ((map.filter fun node => node.address ≠ oldest).map
            MapNode.address).Nodup := by
          rw [filter_addresses]
          exact addresses.filter _
        obtain ⟨left, evicts, part, remain⟩ := ih distinct others
        have count : (oldest :: rest).length - maxSize = rest.length - maxSize + 1 := by
          simp only [List.length_cons] at many ⊢
          omega
        rw [evict, if_pos many, eraseNode, if_pos known, count, List.drop_succ_cons]
        exact ⟨left, evicts, part.trans List.filter_sublist, remain⟩
      · have none_dropped : (oldest :: rest).length - maxSize = 0 := by omega
        rw [evict, if_neg many, none_dropped, List.drop_zero]
        exact ⟨map, rfl, .refl _, listed⟩

theorem evict_few {maxSize : Nat} (map : List MapNode) {list : List Nat}
    (few : list.length ≤ maxSize) : evict maxSize map list = some (map, list) := by
  cases list with
  | nil => rfl
  | cons it rest => rw [evict, if_neg (Nat.not_lt.mpr few)]

theorem moved_perm {list : List Nat} (distinct : list.Nodup) {it : Nat} (listed : it ∈ list) :
    (list.filter (· ≠ it) ++ [it]).Perm list := by
  have split := List.perm_cons_erase listed
  have same : list.erase it = list.filter (· ≠ it) := by
    rw [distinct.erase_eq_filter]
    apply List.filter_congr
    intro other _
    by_cases here : other = it <;> simp [here]
  rw [same] at split
  exact List.perm_append_comm.trans split.symm

/-- Behind `insert` the list lacks nothing but the iterator that was removed from it. -/
theorem Indexed.insert {db : TlsSessionDB} (indexed : db.Indexed) (key value : List Byte)
    {address : Nat} (unused : address ∉ db.map.map MapNode.address) :
    ∃ map it, TlsSessionDB.insert db.map ⟨address, key, value⟩ = (map, it) ∧
      (map.map MapNode.address).Nodup ∧ (map.map MapNode.key).Nodup ∧
      (db.list.filter (· ≠ it) ++ [it]).Perm (map.map MapNode.address) := by
  cases known : db.find key with
  | some other =>
      obtain ⟨member, -⟩ := find_some known
      rw [find] at known
      have listed : other.address ∈ db.list :=
        indexed.listed.symm.subset (List.mem_map_of_mem member)
      have distinct : db.list.Nodup := indexed.listed.nodup_iff.mpr indexed.addresses
      refine ⟨db.map, other.address, ?_, indexed.addresses, indexed.keys, ?_⟩
      · -- the iterator of the old node is taken out of the list and appended again
        simp only [TlsSessionDB.insert, known]
      · exact (moved_perm distinct listed).trans indexed.listed
  | none =>
      have absent := find_none known
      rw [find] at known
      refine ⟨db.map ++ [⟨address, key, value⟩], address, ?_, ?_, ?_, ?_⟩
      · simp only [TlsSessionDB.insert, known]
      · rw [List.map_append]
        exact List.nodup_append_comm.mp (List.nodup_cons.mpr ⟨unused, indexed.addresses⟩)
      · have unknown : key ∉ db.map.map MapNode.key := by
          intro member
          obtain ⟨node, inside, same⟩ := List.mem_map.mp member
          exact absent node inside same
        rw [List.map_append]
        exact List.nodup_append_comm.mp (List.nodup_cons.mpr ⟨unknown, indexed.keys⟩)
      · have stays : db.list.filter (· ≠ address) = db.list := by
          apply List.filter_eq_self.mpr
          intro other member
          have apart : other ≠ address := by
            rintro rfl
            exact unused (indexed.listed.subset member)
          simp [apart]
        rw [stays, List.map_append]
        exact indexed.listed.append_right _

theorem Indexed.new (max : Nat) : (TlsSessionDB.new max).Indexed where
  addresses := List.nodup_nil
  keys := List.nodup_nil
  listed := .refl _
  bounded := Nat.zero_le _

/-- Whatever is stored, the two indexes stay in step, and no iterator is followed to a
node that is gone. -/
theorem Indexed.store {db : TlsSessionDB} (indexed : db.Indexed) (key value : List Byte)
    {address : Nat} (unused : address ∉ db.map.map MapNode.address) :
    ∃ rv after, db.store key value address = some (rv, after) ∧ after.Indexed := by
  rw [TlsSessionDB.store]
  by_cases large : key.length > maxEntrySize ∨ value.length > maxEntrySize
  · rw [if_pos large]
    exact ⟨-1, db, rfl, indexed⟩
  · obtain ⟨map, it, inserts, addresses, keys, listed⟩ := indexed.insert key value unused
    obtain ⟨left, evicts, part, remain⟩ := evict_spec db.maxSize it addresses listed
    rw [if_neg large, inserts]
    simp only [evicts, Option.bind_eq_bind, Option.bind_some]
    refine ⟨0, _, rfl, addresses.sublist (part.map _), keys.sublist (part.map _), remain, ?_⟩
    dsimp only
    rw [List.length_append, List.length_drop, List.length_singleton]
    omega

theorem Indexed.erase {db : TlsSessionDB} (indexed : db.Indexed) (key : List Byte) :
    ∃ rv after, db.erase key = some (rv, after) ∧ after.Indexed := by
  cases known : db.find key with
  | none => exact ⟨-1, db, by simp only [TlsSessionDB.erase, known], indexed⟩
  | some node =>
      have there : node.address ∈ db.map.map MapNode.address :=
        List.mem_map_of_mem (find_some known).1
      simp only [TlsSessionDB.erase, known, eraseNode, if_pos there, Option.bind_eq_bind,
        Option.bind_some]
      refine ⟨0, _, rfl, ?_, ?_, ?_, ?_⟩
      · exact indexed.addresses.sublist (List.filter_sublist.map _)
      · exact indexed.keys.sublist (List.filter_sublist.map _)
      · dsimp only
        rw [filter_addresses]
        exact indexed.listed.filter _
      · exact (List.length_filter_le _ _).trans indexed.bounded

/-! ### What the database is for -/

/-- The database beside the entries that one of its size keeps. -/
structure Served where
  db : TlsSessionDB
  kept : List (List Byte × List Byte)
deriving DecidableEq

inductive Operation where
  | store (key value : List Byte) (address : Nat)
  | erase (key : List Byte)
  | retrieve (key : List Byte)

namespace Served

def new (max : Nat) : Served := ⟨TlsSessionDB.new max, []⟩

def step (s : Served) : Operation → Option Served
  | .store key value address => (s.db.store key value address).map fun done =>
      ⟨done.2, AgedEntries.store s.db.maxSize s.kept key value⟩
  | .erase key => (s.db.erase key).map fun done => ⟨done.2, AgedEntries.erase s.kept key⟩
  | .retrieve key => (s.db.retrieve key).map fun _ => s

/-- Keys and values are within the size limit, and `new` returns memory that is not in
use. -/
def Allowed (s : Served) : Operation → Prop
  | .store key value address => key.length ≤ maxEntrySize ∧ value.length ≤ maxEntrySize ∧
      address ∉ s.db.map.map MapNode.address
  | .erase key => key.length ≤ maxEntrySize
  | .retrieve key => key.length ≤ maxEntrySize

instance (s : Served) : (op : Operation) → Decidable (s.Allowed op)
  | .store _ _ _ => inferInstanceAs (Decidable (_ ∧ _ ∧ _))
  | .erase _ => inferInstanceAs (Decidable (_ ≤ _))
  | .retrieve _ => inferInstanceAs (Decidable (_ ≤ _))

/-- What is retrieved is what was stored last and not erased or evicted since, no more
than `maxSize` entries are kept, and the age list has one iterator for each of them, the
one stored longest ago first. -/
structure Serves (s : Served) : Prop where
  retrieves : ∀ key, s.db.retrieve key = some ((AgedEntries.lookup s.kept key).getD [])
  few : s.db.map.length ≤ s.db.maxSize
  oldest : s.db.list.map s.db.keyAt = (AgedEntries.keys s.kept).map some
  indexed : s.db.Indexed

/-- A store has nothing to copy later, and finds the key or room for it. -/
def Undemanding (s : Served) : Operation → Prop
  | .store key value _ => value = [] ∧ (s.db.find key ≠ none ∨ s.db.map.length < s.db.maxSize)
  | _ => True

/-- As long as nothing but empty values is stored. -/
structure Blank (s : Served) : Prop where
  few : s.db.map.length ≤ s.db.maxSize
  oldest : s.db.list.map s.db.keyAt = (AgedEntries.keys s.kept).map some
  indexed : s.db.Indexed
  nodes : ∀ node ∈ s.db.map, node.value = []
  values : ∀ entry ∈ s.kept, entry.2 = []

end Served

theorem Indexed.keyAt {db : TlsSessionDB} (indexed : db.Indexed) {node : MapNode}
    (member : node ∈ db.map) : db.keyAt node.address = some node.key := by
  cases found : db.map.find? fun other => other.address = node.address with
  | none =>
      have differs := List.find?_eq_none.mp found node member
      simp at differs
  | some other =>
      have same : other.address = node.address := by simpa using List.find?_some found
      have here : other = node := List.inj_on_of_nodup_map indexed.addresses
        (List.mem_of_find?_eq_some found) member same
      rw [TlsSessionDB.keyAt, found, here]
      rfl

theorem Indexed.node {db : TlsSessionDB} (indexed : db.Indexed) {it : Nat} (listed : it ∈ db.list) :
    ∃ node ∈ db.map, node.address = it :=
  List.mem_map.mp (indexed.listed.subset listed)

/-- Leaving out an iterator leaves out its key. -/
theorem Indexed.others {db : TlsSessionDB} (indexed : db.Indexed) {node : MapNode}
    (member : node ∈ db.map) :
    (db.list.filter (· ≠ node.address)).map db.keyAt =
      (db.list.map db.keyAt).filter (· ≠ some node.key) := by
  rw [List.filter_map]
  congr 1
  apply List.filter_congr
  intro it listed
  obtain ⟨other, inside, rfl⟩ := indexed.node listed
  have both : other.address = node.address ↔ other.key = node.key := by
    constructor
    · intro same
      rw [List.inj_on_of_nodup_map indexed.addresses inside member same]
    · intro same
      rw [List.inj_on_of_nodup_map indexed.keys inside member same]
  simp [indexed.keyAt inside, both]

theorem keyAt_congr {db after : TlsSessionDB} (indexed : db.Indexed) (later : after.Indexed)
    (list : List Nat) (stays : ∀ it ∈ list, ∃ node ∈ db.map, node ∈ after.map ∧ node.address = it) :
    list.map after.keyAt = list.map db.keyAt := by
  apply List.map_congr_left
  intro it listed
  obtain ⟨node, before, behind, rfl⟩ := stays it listed
  rw [indexed.keyAt before, later.keyAt behind]

namespace Served
variable {s : Served}

theorem lookup_blank {entries : List (List Byte × List Byte)}
    (values : ∀ entry ∈ entries, entry.2 = []) (key : List Byte) :
    (AgedEntries.lookup entries key).getD [] = [] := by
  cases found : AgedEntries.lookup entries key with
  | none => rfl
  | some value => exact values _ (AgedEntries.mem_of_lookup found)

theorem Blank.retrieve (blank : Blank s) (key : List Byte) : s.db.retrieve key = some [] := by
  rw [TlsSessionDB.retrieve]
  cases found : s.db.find key with
  | none => rfl
  | some node =>
      dsimp only
      rw [datum, if_pos (blank.nodes node (find_some found).1)]

theorem Blank.serves (blank : Blank s) : Serves s where
  retrieves key := by rw [blank.retrieve, lookup_blank blank.values]
  few := blank.few
  oldest := blank.oldest
  indexed := blank.indexed

theorem Blank.count (blank : Blank s) : s.db.list.length = s.kept.length := by
  have lengths := congrArg List.length blank.oldest
  simpa [AgedEntries.keys] using lengths

theorem Blank.size (blank : Blank s) : s.db.list.length = s.db.map.length := by
  have lengths := blank.indexed.listed.length_eq
  simpa using lengths

theorem Blank.known_iff (blank : Blank s) (key : List Byte) :
    key ∈ AgedEntries.keys s.kept ↔ s.db.find key ≠ none := by
  have listed : key ∈ AgedEntries.keys s.kept ↔ some key ∈ s.db.list.map s.db.keyAt := by
    rw [blank.oldest]
    simp
  rw [listed]
  constructor
  · intro member absent
    obtain ⟨it, inside, leads⟩ := List.mem_map.mp member
    obtain ⟨node, there, rfl⟩ := blank.indexed.node inside
    rw [blank.indexed.keyAt there] at leads
    exact find_none absent node there (Option.some.inj leads)
  · intro present
    obtain ⟨node, found⟩ := Option.ne_none_iff_exists'.mp present
    obtain ⟨member, rfl⟩ := find_some found
    have inside : node.address ∈ s.db.list :=
      blank.indexed.listed.symm.subset (List.mem_map_of_mem member)
    exact List.mem_map.mpr ⟨node.address, inside, blank.indexed.keyAt member⟩

/-- A key that is known keeps its node and the value in it. -/
theorem Blank.store_known (blank : Blank s) {key value : List Byte} {address : Nat}
    (allowed : Allowed s (.store key value address)) {node : MapNode}
    (found : s.db.find key = some node) :
    s.db.store key value address =
      some (0, { s.db with list := s.db.list.filter (· ≠ node.address) ++ [node.address] }) := by
  obtain ⟨keySize, valueSize, -⟩ := allowed
  have small : ¬ (key.length > maxEntrySize ∨ value.length > maxEntrySize) := by omega
  have few : (s.db.list.filter (· ≠ node.address)).length ≤ s.db.maxSize := by
    have less := List.length_filter_le (fun it => decide (it ≠ node.address)) s.db.list
    have size := blank.size
    have bound := blank.few
    omega
  rw [find] at found
  rw [store, if_neg small]
  simp only [insert, found, evict_few _ few, Option.bind_eq_bind, Option.bind_some]

theorem Blank.store_new (blank : Blank s) {key value : List Byte} {address : Nat}
    (allowed : Allowed s (.store key value address)) (absent : s.db.find key = none) :
    s.db.store key value address =
      some (0, { s.db with
        map := s.db.map ++ [⟨address, key, value⟩]
        list := s.db.list ++ [address] }) := by
  obtain ⟨keySize, valueSize, unused⟩ := allowed
  have small : ¬ (key.length > maxEntrySize ∨ value.length > maxEntrySize) := by omega
  have stays : s.db.list.filter (· ≠ address) = s.db.list := by
    apply List.filter_eq_self.mpr
    intro other member
    have apart : other ≠ address := by
      rintro rfl
      exact unused (blank.indexed.listed.subset member)
    simp [apart]
  have few : s.db.list.length ≤ s.db.maxSize := by
    rw [blank.size]
    exact blank.few
  rw [find] at absent
  rw [store, if_neg small]
  simp only [insert, absent, stays, evict_few _ few, Option.bind_eq_bind, Option.bind_some]

theorem Blank.room (blank : Blank s) {key : List Byte}
    (room : s.db.find key ≠ none ∨ s.db.map.length < s.db.maxSize) (value : List Byte) :
    AgedEntries.store s.db.maxSize s.kept key value =
      AgedEntries.erase s.kept key ++ [(key, value)] := by
  have count := blank.count
  have size := blank.size
  have few := blank.few
  apply AgedEntries.store_of_room value (by omega)
  rcases room with known | less
  · exact .inl ((blank.known_iff key).mpr known)
  · exact .inr (by omega)

theorem some_others (keys : List (List Byte)) (key : List Byte) :
    (keys.map some).filter (· ≠ some key) = (keys.filter (· ≠ key)).map some := by
  rw [List.filter_map]
  congr 1
  apply List.filter_congr
  intro other _
  simp

theorem blank_append {kept : List (List Byte × List Byte)} (values : ∀ entry ∈ kept, entry.2 = [])
    (key : List Byte) : ∀ entry ∈ AgedEntries.erase kept key ++ [(key, [])], entry.2 = [] := by
  intro entry member
  rcases List.mem_append.mp member with old | new
  · exact values entry (List.mem_of_mem_filter old)
  · rw [List.mem_singleton.mp new]

theorem Blank.store (blank : Blank s) {key : List Byte} {address : Nat}
    (allowed : Allowed s (.store key [] address))
    (room : s.db.find key ≠ none ∨ s.db.map.length < s.db.maxSize) :
    ∃ after, s.step (.store key [] address) = some after ∧ Blank after := by
  obtain ⟨rv, db, stored, indexed⟩ := blank.indexed.store key [] allowed.2.2
  refine ⟨⟨db, AgedEntries.store s.db.maxSize s.kept key []⟩, by rw [step, stored]; rfl, ?_⟩
  rw [blank.room room]
  cases found : s.db.find key with
  | some node =>
      obtain ⟨member, same⟩ := find_some found
      rw [blank.store_known allowed found] at stored
      cases stored
      refine ⟨blank.few, ?_, indexed, blank.nodes, blank_append blank.values key⟩
      have leads := blank.indexed.keyAt member
      have others := blank.indexed.others member
      rw [blank.oldest, same, some_others, ← AgedEntries.keys_erase] at others
      rw [same] at leads
      show (s.db.list.filter (· ≠ node.address) ++ [node.address]).map s.db.keyAt =
        (AgedEntries.keys (AgedEntries.erase s.kept key ++ [(key, [])])).map some
      rw [AgedEntries.keys_concat, List.map_append, List.map_append, others, List.map_cons, leads]
      rfl
  | none =>
      have less : s.db.map.length < s.db.maxSize := room.resolve_left (fun known => known found)
      rw [blank.store_new allowed found] at stored
      cases stored
      have unknown : key ∉ AgedEntries.keys s.kept := fun member =>
        (blank.known_iff key).mp member found
      have old := keyAt_congr blank.indexed indexed s.db.list (by
        intro it listed
        obtain ⟨node, member, leads⟩ := blank.indexed.node listed
        exact ⟨node, member, List.mem_append_left _ member, leads⟩)
      have new := indexed.keyAt (List.mem_append_right s.db.map
        (List.mem_singleton_self (⟨address, key, []⟩ : MapNode)))
      refine ⟨?_, ?_, indexed, ?_, blank_append blank.values key⟩
      · show (s.db.map ++ [MapNode.mk address key []]).length ≤ s.db.maxSize
        rw [List.length_append]
        exact less
      · rw [List.map_append, old, blank.oldest, List.map_cons, new, AgedEntries.keys_concat,
          AgedEntries.erase_absent unknown, List.map_append]
        rfl
      · intro node member
        rcases List.mem_append.mp member with old | new
        · exact blank.nodes node old
        · rw [List.mem_singleton.mp new]

theorem Blank.erase (blank : Blank s) (key : List Byte) :
    ∃ after, s.step (.erase key) = some after ∧ Blank after := by
  obtain ⟨rv, db, erased, indexed⟩ := blank.indexed.erase key
  refine ⟨⟨db, AgedEntries.erase s.kept key⟩, by rw [step, erased]; rfl, ?_⟩
  have values : ∀ entry ∈ AgedEntries.erase s.kept key, entry.2 = [] := fun entry member =>
    blank.values entry (List.mem_of_mem_filter member)
  cases found : s.db.find key with
  | none =>
      simp only [TlsSessionDB.erase, found] at erased
      cases erased
      have unknown : key ∉ AgedEntries.keys s.kept := fun member =>
        (blank.known_iff key).mp member found
      rw [AgedEntries.erase_absent unknown]
      exact blank
  | some node =>
      obtain ⟨member, same⟩ := find_some found
      have there : node.address ∈ s.db.map.map MapNode.address := List.mem_map_of_mem member
      simp only [TlsSessionDB.erase, found, eraseNode, if_pos there, Option.bind_eq_bind,
        Option.bind_some] at erased
      cases erased
      refine ⟨?_, ?_, indexed, ?_, values⟩
      · exact (List.length_filter_le _ _).trans blank.few
      · have kept := keyAt_congr blank.indexed indexed (s.db.list.filter (· ≠ node.address)) (by
          intro it listed
          obtain ⟨inside, apart⟩ := List.mem_filter.mp listed
          obtain ⟨other, known, rfl⟩ := blank.indexed.node inside
          exact ⟨other, known, List.mem_filter.mpr ⟨known, apart⟩, rfl⟩)
        rw [kept, blank.indexed.others member, blank.oldest, same, some_others,
          AgedEntries.keys_erase]
      · intro other inside
        exact blank.nodes other (List.mem_of_mem_filter inside)

/-- A store that is not `Undemanding` is not served. -/
theorem Blank.unserved (blank : Blank s) {key value : List Byte} {address : Nat}
    (allowed : Allowed s (.store key value address))
    (demanding : ¬ s.Undemanding (.store key value address)) :
    ∃ after, s.step (.store key value address) = some after ∧ ¬ Serves after := by
  cases found : s.db.find key with
  | some node =>
      -- `insert` has left the old value, which is empty
      have filled : value ≠ [] := by
        intro empty
        exact demanding ⟨empty, .inl (by rw [found]; exact Option.some_ne_none _)⟩
      have stored := blank.store_known allowed found
      have known : s.db.find key ≠ none := by rw [found]; exact Option.some_ne_none _
      have kept := blank.room (.inl known) value
      rw [step, stored, kept]
      refine ⟨_, rfl, fun serves => ?_⟩
      have retrieved := serves.retrieves key
      rw [AgedEntries.lookup_erase_append] at retrieved
      have old : s.db.retrieve key = some value := retrieved
      rw [blank.retrieve] at old
      exact filled (Option.some.inj old).symm
  | none =>
      have stored := blank.store_new allowed found
      rw [step, stored]
      refine ⟨_, rfl, fun serves => ?_⟩
      have few : (s.db.map ++ [MapNode.mk address key value]).length ≤ s.db.maxSize := serves.few
      rw [List.length_append] at few
      have filled : value ≠ [] := by
        intro empty
        exact demanding ⟨empty, .inr few⟩
      have there : (s.db.map ++ [MapNode.mk address key value]).find? (fun node => node.key = key) =
          some ⟨address, key, value⟩ := by
        rw [find] at found
        rw [List.find?_append, found]
        simp
      have retrieved := serves.retrieves key
      simp only [TlsSessionDB.retrieve, find, there, datum, if_neg filled] at retrieved
      cases retrieved

/-- As long as each store has an empty value and finds its key or room for it, the
database serves as a cache of its size, and the first store that does not ends that. -/
theorem serves_iff {max : Nat}
    (run : Transition.Reaches step (fun s op => s.Allowed op ∧ s.Undemanding op) (new max) s) :
    Serves s ∧ ∀ op, s.Allowed op →
      ∃ after, s.step op = some after ∧ (Serves after ↔ s.Undemanding op) := by
  have next : ∀ {s : Served}, Blank s → ∀ op, s.Allowed op → s.Undemanding op →
      ∃ after, s.step op = some after ∧ Blank after := by
    intro s blank op allowed light
    cases op with
    | store key value address =>
        obtain ⟨rfl, room⟩ := light
        exact blank.store allowed room
    | erase key => exact blank.erase key
    | retrieve key => exact ⟨s, by rw [step, blank.retrieve]; rfl, blank⟩
  have blank : Blank s := by
    refine run.invariant ?_ ?_
    · exact ⟨Nat.zero_le _, rfl, .new max, by simp [new, TlsSessionDB.new], by simp [new]⟩
    · intro before op after blank meets stepped
      obtain ⟨after', stepped', kept⟩ := next blank op meets.1 meets.2
      rw [stepped] at stepped'
      cases stepped'
      exact kept
  refine ⟨blank.serves, fun op allowed => ?_⟩
  by_cases light : s.Undemanding op
  · obtain ⟨after, stepped, kept⟩ := next blank op allowed light
    exact ⟨after, stepped, fun _ => light, fun _ => kept.serves⟩
  · cases op with
    | store key value address =>
        obtain ⟨after, stepped, unserved⟩ := blank.unserved allowed light
        exact ⟨after, stepped, fun serves => absurd serves unserved, fun holds => absurd holds light⟩
    | erase key => exact absurd trivial light
    | retrieve key => exact absurd trivial light

/-- In every run, whatever its values. -/
theorem always_indexed {max : Nat}
    (run : Transition.Reaches step Allowed (new max) s) : s.db.Indexed := by
  have initial : (new max).db.Indexed := .new max
  apply run.invariant initial
  · intro before op after indexed allowed stepped
    cases op with
    | store key value address =>
        obtain ⟨rv, db, stored, kept⟩ := indexed.store key value allowed.2.2
        rw [step, stored] at stepped
        cases stepped
        exact kept
    | erase key =>
        obtain ⟨rv, db, erased, kept⟩ := indexed.erase key
        rw [step, erased] at stepped
        cases stepped
        exact kept
    | retrieve key =>
        obtain ⟨_, _, same⟩ := Option.map_eq_some_iff.mp stepped
        rw [← same]
        exact indexed

/-- One entry is kept, without a value; a second key is not served. -/
theorem serves_one : ∃ s after, s.db.list = [0] ∧ Serves s ∧
    s.step (.store (ascii "b") [] 1) = some after ∧ ¬ Serves after := by
  have run : Transition.Reaches step (fun s op => s.Allowed op ∧ s.Undemanding op) (new 1)
      ⟨⟨1, [⟨0, ascii "a", []⟩], [0]⟩, [(ascii "a", [])]⟩ :=
    .step (.store (ascii "a") [] 0) .start ⟨by decide, rfl, .inr (by decide)⟩ (by decide)
  obtain ⟨serves, next⟩ := serves_iff run
  obtain ⟨after, stepped, same⟩ := next (.store (ascii "b") [] 1) (by decide)
  refine ⟨_, after, rfl, serves, stepped, fun still => ?_⟩
  obtain ⟨-, room⟩ := same.mp still
  revert room
  decide

/-- A session that was stored cannot be retrieved. -/
theorem retrieve_copies_nowhere : ¬ ∀ (max : Nat) (s : Served), 1 ≤ max →
    Transition.Reaches step Allowed (new max) s → Serves s := by
  intro claim
  have run : Transition.Reaches step Allowed (new 100)
      ⟨⟨100, [⟨0, ascii "a", ascii "v"⟩], [0]⟩, [(ascii "a", ascii "v")]⟩ :=
    .step (.store (ascii "a") (ascii "v") 0) .start (by decide) (by decide)
  have retrieved := (claim 100 _ (by decide) run).retrieves (ascii "a")
  revert retrieved
  decide

end Served
end TlsSessionDB
end PdServ
