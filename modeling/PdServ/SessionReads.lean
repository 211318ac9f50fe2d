import PdServ.Areas
import PdServ.SessionSearch

/-!
What `rxPdo` touches while it follows PDOs that the writer may have overwritten
with anything: shared memory, the vector of signals and its local array `sp`.
-/

namespace PdServ

inductive Access where
  /-- bytes of the shared memory that are read -/
  | shared (address size : Nat)
  /-- an element of the vector of signals -/
  | signals (idx : Nat)
  /-- an element of `sp` that is written -/
  | sp (i : Nat)
deriving DecidableEq

/-- `sp` has as many elements as there are signals. -/
def Access.Inside (S : Setup) : Access → Prop
  | .shared address size => Areas.Within S.txMemBegin S.txMemEnd (address, size)
  | .signals idx => idx < S.signals.length
  | .sp i => i < S.signals.length

namespace SessionTaskData

variable (S : Setup)

/-- The loop over the indexes of a SignalList PDO, up to one that is no signal. -/
def listAccesses (m : Memory) (p : Nat) : (left i : Nat) → List Access
  | 0, _ => []
  | left + 1, i =>
      let idx := Pdo.signalIdx m p i
      .shared (p + 72 + 8 * i) 8 ::
        if idx ≥ S.signals.length then []
        else .signals idx :: .sp i :: listAccesses m p left (i + 1)

/-- What is touched of a PDO whose address has passed the check. -/
def pdoAccesses (m : Memory) (data : SessionTaskData) (p : Nat) : List Access :=
  .shared (p + 8) 8 :: .shared p 4 ::
    if Pdo.type m p = Pdo.SignalList then
      let n := Pdo.count m p
      if (p + 72 + 8 * n) % 2 ^ 64 > S.txMemEnd then []
      else listAccesses S m p n 0 ++
        if ∀ i < n, Pdo.signalIdx m p i < S.signals.length then [.shared (p + 4) 4] else []
    else if Pdo.type m p = Pdo.Data then
      if (p + 72 + data.pdoSize) % 2 ^ 64 ≥ S.txMemEnd then []
      else .shared (p + 4) 4 ::
        if Pdo.signalListId m p ≠ data.signalListId then []
        else .shared (p + 16) 4 ::
          if (Pdo.seqNo m p + 2 ^ 32 - data.seqNo) % 2 ^ 32 ≠ 1 then []
          else [.shared (p + 16) 4]
    else []

/-- What one turn of the loop in `rxPdo` touches, in order. -/
def accesses (m : Memory) (data : SessionTaskData) : List Access :=
  let p := Pdo.next m data.pdo
  .shared (data.pdo + 64) 8 ::
    if p = 0 then []
    else .shared (data.pdo + 64) 8 ::
      if p < S.txMemBegin ∨ (p + 72) % 2 ^ 64 > S.txMemEnd then []
      else pdoAccesses S m data p

/-- Number of indexes in front of the first one that is no signal. -/
def leading (m : Memory) (p : Nat) : (left i : Nat) → Nat
  | 0, _ => 0
  | left + 1, i =>
      if Pdo.signalIdx m p i < S.signals.length then leading m p left (i + 1) + 1 else 0

/-- The member `next` of the PDO the session stands on lies inside. -/
def StandsInside (data : SessionTaskData) : Prop :=
  Areas.Within S.txMemBegin S.txMemEnd (data.pdo + 64, 8)

/-- The first index that is no signal, or the end of the list, comes soon enough. -/
def ShortList (m : Memory) (p : Nat) : Prop :=
  let n := Pdo.count m p
  leading S m p n 0 ≤ S.signals.length ∧
    (n ≠ 0 → p + 72 + 8 * min n (leading S m p n 0 + 1) ≤ S.txMemEnd)

/-- The next PDO, if its address passes the check, wrapped or not, has the members
inside that are read; and a SignalList PDO whose end passes the check has a short
list. -/
def Bounded (m : Memory) (data : SessionTaskData) : Prop :=
  let p := Pdo.next m data.pdo
  p ≠ 0 → S.txMemBegin ≤ p → (p + 72) % 2 ^ 64 ≤ S.txMemEnd →
    p + 16 ≤ S.txMemEnd ∧
    (Pdo.type m p = Pdo.SignalList →
      (p + 72 + 8 * Pdo.count m p) % 2 ^ 64 ≤ S.txMemEnd → ShortList S m p) ∧
    (Pdo.type m p = Pdo.Data → (p + 72 + data.pdoSize) % 2 ^ 64 < S.txMemEnd →
      Pdo.signalListId m p = data.signalListId → p + 20 ≤ S.txMemEnd)

variable {S} {m : Memory} {data : SessionTaskData}

theorem listAccesses_inside_iff {p : Nat} (low : S.txMemBegin ≤ p) (left i : Nat)
    (few : i ≤ S.signals.length) :
    (∀ access ∈ listAccesses S m p left i, access.Inside S) ↔
      i + leading S m p left i ≤ S.signals.length ∧
        (left ≠ 0 → p + 72 + 8 * (i + min left (leading S m p left i + 1)) ≤ S.txMemEnd) := by
  induction left generalizing i with
  | zero => simp [listAccesses, leading, few]
  | succ left ih =>
      have first : Access.Inside S (.shared (p + 72 + 8 * i) 8) ↔
          p + 72 + 8 * (i + 1) ≤ S.txMemEnd := by
        simp only [Access.Inside, Areas.Within]
        omega
      rw [listAccesses, leading]
      rw [List.forall_mem_cons, first]
      by_cases known : Pdo.signalIdx m p i < S.signals.length
      · rw [if_neg (by omega), if_pos known, List.forall_mem_cons, List.forall_mem_cons]
        simp only [Access.Inside, known, true_and]
        constructor
        · rintro ⟨read, written, later⟩
          have rest := (ih (i + 1) written).mp later
          omega
        · rintro ⟨written, read⟩
          refine ⟨by omega, by omega, (ih (i + 1) (by omega)).mpr ?_⟩
          omega
      · rw [if_pos (by omega), if_neg known]
        simp only [List.not_mem_nil, false_imp_iff, implies_true, and_true]
        omega

theorem shared_inside_iff {p offset size : Nat} (low : S.txMemBegin ≤ p) :
    Access.Inside S (.shared (p + offset) size) ↔ p + offset + size ≤ S.txMemEnd := by
  simp only [Access.Inside, Areas.Within]
  omega

theorem pdoAccesses_inside_iff {p : Nat} (low : S.txMemBegin ≤ p) :
    (∀ access ∈ data.pdoAccesses S m p, access.Inside S) ↔
      p + 16 ≤ S.txMemEnd ∧
      (Pdo.type m p = Pdo.SignalList →
        (p + 72 + 8 * Pdo.count m p) % 2 ^ 64 ≤ S.txMemEnd → ShortList S m p) ∧
      (Pdo.type m p = Pdo.Data → (p + 72 + data.pdoSize) % 2 ^ 64 < S.txMemEnd →
        Pdo.signalListId m p = data.signalListId → p + 20 ≤ S.txMemEnd) := by
  have count : Access.Inside S (.shared (p + 8) 8) ↔ p + 16 ≤ S.txMemEnd :=
    shared_inside_iff low
  rw [pdoAccesses, List.forall_mem_cons, List.forall_mem_cons, count]
  apply and_congr_right
  intro inside
  have type : Access.Inside S (.shared p 4) :=
    (@shared_inside_iff S p 0 4 low).mpr (by omega)
  have id : Access.Inside S (.shared (p + 4) 4) := (shared_inside_iff low).mpr (by omega)
  have seqNo : Access.Inside S (.shared (p + 16) 4) ↔ p + 20 ≤ S.txMemEnd :=
    shared_inside_iff low
  rw [and_iff_right type]
  by_cases list : Pdo.type m p = Pdo.SignalList
  · rw [if_pos list]
    have other : ¬Pdo.SignalList = Pdo.Data := by decide
    simp only [list, other, true_imp_iff, false_imp_iff, and_true]
    by_cases behind : (p + 72 + 8 * Pdo.count m p) % 2 ^ 64 > S.txMemEnd
    · rw [if_pos behind]
      exact iff_of_true (by simp) fun before => absurd behind (by omega)
    · have last : ∀ access ∈ (if ∀ i < Pdo.count m p,
          Pdo.signalIdx m p i < S.signals.length then [Access.shared (p + 4) 4] else []),
          access.Inside S := by
        split <;> simp [id]
      have entries := listAccesses_inside_iff (m := m) low (Pdo.count m p) 0 (Nat.zero_le _)
      have before : (p + 72 + 8 * Pdo.count m p) % 2 ^ 64 ≤ S.txMemEnd := by omega
      rw [if_neg behind, List.forall_mem_append, and_iff_left last, entries]
      simp only [ShortList, before, Nat.zero_add, true_imp_iff]
  · rw [if_neg list]
    simp only [list, false_imp_iff, true_and]
    by_cases data_there : Pdo.type m p = Pdo.Data
    · rw [if_pos data_there]
      by_cases behind : (p + 72 + data.pdoSize) % 2 ^ 64 ≥ S.txMemEnd
      · rw [if_pos behind]
        exact iff_of_true (by simp) fun _ before => absurd behind (by omega)
      · rw [if_neg behind, List.forall_mem_cons, and_iff_right id]
        by_cases other : Pdo.signalListId m p = data.signalListId
        · have before : (p + 72 + data.pdoSize) % 2 ^ 64 < S.txMemEnd := by omega
          have last : ∀ access ∈ (if (Pdo.seqNo m p + 2 ^ 32 - data.seqNo) % 2 ^ 32 ≠ 1 then []
              else [Access.shared (p + 16) 4]), p + 20 ≤ S.txMemEnd → access.Inside S := by
            split <;> simp [seqNo]
          rw [if_neg (not_not.mpr other), List.forall_mem_cons, seqNo]
          simp only [data_there, before, other, true_imp_iff]
          exact ⟨fun both => both.1, fun high => ⟨high, fun access member =>
            last access member high⟩⟩
        · rw [if_pos other]
          exact iff_of_true (by simp) fun _ _ same => absurd same other
    · rw [if_neg data_there]
      exact iff_of_true (by simp) fun there => absurd there data_there

/-- A turn stays inside exactly where the session stands inside and what it goes
on to is bounded. -/
theorem accesses_inside_iff :
    (∀ access ∈ data.accesses S m, access.Inside S) ↔
      data.StandsInside S ∧ data.Bounded S m := by
  rw [accesses, List.forall_mem_cons]
  apply and_congr_right
  intro stands
  rw [Bounded]
  by_cases ended : Pdo.next m data.pdo = 0
  · simp [ended]
  · rw [if_neg ended, List.forall_mem_cons, and_iff_right stands]
    by_cases outside : Pdo.next m data.pdo < S.txMemBegin ∨
        (Pdo.next m data.pdo + 72) % 2 ^ 64 > S.txMemEnd
    · rw [if_pos outside]
      refine iff_of_true (by simp) fun _ low passed => ?_
      omega
    · have low : S.txMemBegin ≤ Pdo.next m data.pdo := by omega
      have passed : (Pdo.next m data.pdo + 72) % 2 ^ 64 ≤ S.txMemEnd := by omega
      rw [if_neg outside, pdoAccesses_inside_iff low]
      simp only [ne_eq, ended, not_false_iff, low, passed, true_imp_iff]

/-! ### A call of `rxPdo` -/

/-- The states before the turns of one call. Each turn sees a memory of its own,
and the subscription ids as they are then. -/
inductive CallReaches (S : Setup) (views : Nat → Memory × (Nat → Nat))
    (data : SessionTaskData) : Nat → SessionTaskData → Prop
  | start : CallReaches S views data 0 data
  | list {k before after told} : CallReaches S views data k before →
      before.receive S (views k).2 (views k).1 = (.list, after, told) →
      CallReaches S views data (k + 1) after

/-- Whatever stands in memory, a call of `rxPdo` stays inside exactly where in every
turn the session stands inside and what it goes on to is bounded. -/
theorem call_inside_iff (S : Setup) (views : Nat → Memory × (Nat → Nat))
    (data : SessionTaskData) :
    (∀ k before, CallReaches S views data k before →
      ∀ access ∈ before.accesses S (views k).1, access.Inside S) ↔
    ∀ k before, CallReaches S views data k before →
      before.StandsInside S ∧ before.Bounded S (views k).1 := by
  constructor
  · intro inside k before reached
    exact accesses_inside_iff.mp (inside k before reached)
  · intro bounded k before reached
    exact accesses_inside_iff.mpr (bounded k before reached)

/-- A SignalList PDO with the only signal twice. -/
def twiceListed : Memory :=
  let clear : Memory := fun _ => 0
  clear
    |>.putWord (oneSignal.txMemBegin + 64) 8 (oneSignal.txMemBegin + 80)
    |>.putWord (oneSignal.txMemBegin + 80) 4 Pdo.SignalList
    |>.putWord (oneSignal.txMemBegin + 88) 8 2

/-- Its second index is written behind the end of `sp`. -/
theorem call_leaves_sp :
    ∃ views data, data.StandsInside oneSignal ∧
      ∃ k before, CallReaches oneSignal views data k before ∧
        .sp 1 ∈ before.accesses oneSignal (views k).1 ∧ ¬ Access.Inside oneSignal (.sp 1) := by
  refine ⟨fun _ => (twiceListed, fun _ => 0), { pdo := oneSignal.txMemBegin }, ?_, 0, _,
    .start, ?_, ?_⟩
  · rw [StandsInside, Areas.Within]
    decide
  · decide
  · rw [Access.Inside]
    decide

end SessionTaskData

end PdServ
