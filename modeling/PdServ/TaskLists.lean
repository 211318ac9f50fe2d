import PdServ.SwapList
import PdServ.Task
import Mathlib.Data.List.Nodup

/-!
Both sides of a task hold the same lists of signals, one of them earlier than
the other. What the lists are is said by the log of all changes: the copy of
the non-real-time process is the log applied as a whole, that of the real-time
process is the part of the log it has processed, and the ring carries the rest.
-/

namespace PdServ

/-! ### The log of changes -/

/-- The lists of the bins after a change. -/
def SignalList.apply (S : Setup) (entry : SignalList) (lists : Nat → List Nat) :
    Nat → List Nat :=
  Function.update lists (S.bin entry.signal)
    (match entry.action with
      | .Insert => lists (S.bin entry.signal) ++ [entry.signal]
      | .Remove => SwapList.swapRemove (lists (S.bin entry.signal)) entry.signalPosition)

/-- A change that these lists allow. -/
def SignalList.Fits (S : Setup) (entry : SignalList) (lists : Nat → List Nat) : Prop :=
  entry.signal < S.signals.length ∧
    match entry.action with
    | .Insert => entry.signal ∉ lists (S.bin entry.signal)
    | .Remove => (lists (S.bin entry.signal))[entry.signalPosition]? = some entry.signal

def listsAfter (S : Setup) (log : List SignalList) : Nat → List Nat :=
  log.foldl (fun lists entry => entry.apply S lists) fun _ => []

@[simp] theorem listsAfter_nil (S : Setup) : listsAfter S [] = fun _ => [] := rfl

@[simp] theorem listsAfter_concat (S : Setup) (log : List SignalList) (entry : SignalList) :
    listsAfter S (log ++ [entry]) = entry.apply S (listsAfter S log) := by
  simp [listsAfter]

/-- Every change fits the lists before it, and the changes are numbered. -/
inductive ChangeLog (S : Setup) : List SignalList → Prop
  | nil : ChangeLog S []
  | concat {log entry} : ChangeLog S log → entry.Fits S (listsAfter S log) →
      entry.signalListId = (log.length + 1) % 2 ^ 32 → ChangeLog S (log ++ [entry])

/-- A bin has each of its signals at most once. -/
structure ListsFit (S : Setup) (lists : Nat → List Nat) : Prop where
  bins : ∀ w, ∀ s ∈ lists w, S.bin s = w ∧ s < S.signals.length
  nodup : ∀ w, (lists w).Nodup

namespace ListsFit

variable {S : Setup} {lists : Nat → List Nat}

theorem length_le (fit : ListsFit S lists) (w : Nat) :
    (lists w).length ≤ S.signals.length := by
  have within : lists w ⊆ List.range S.signals.length := fun s member =>
    List.mem_range.mpr (fit.bins w s member).2
  simpa using ((fit.nodup w).subperm within).length_le

theorem update {w : Nat} {list : List Nat} (fit : ListsFit S lists)
    (bins : ∀ s ∈ list, S.bin s = w ∧ s < S.signals.length) (nodup : list.Nodup) :
    ListsFit S (Function.update lists w list) := by
  constructor
  · intro v s member
    by_cases here : v = w
    · subst here
      rw [Function.update_self] at member
      exact bins s member
    · rw [Function.update_of_ne here] at member
      exact fit.bins v s member
  · intro v
    by_cases here : v = w
    · subst here
      rw [Function.update_self]
      exact nodup
    · rw [Function.update_of_ne here]
      exact fit.nodup v

theorem apply {entry : SignalList} (fit : ListsFit S lists) (fits : entry.Fits S lists) :
    ListsFit S (entry.apply S lists) := by
  obtain ⟨known, allowed⟩ := fits
  apply fit.update
  · intro s member
    cases action : entry.action with
    | Insert =>
        simp only [action, List.mem_append, List.mem_singleton] at member
        rcases member with old | rfl
        · exact fit.bins _ s old
        · exact ⟨rfl, known⟩
    | Remove =>
        simp only [action] at member allowed
        have parts := SwapList.perm_swapRemove allowed
        exact fit.bins _ s (parts.mem_iff.mpr (List.mem_cons_of_mem _ member))
  · cases action : entry.action with
    | Insert =>
        simp only [action] at allowed ⊢
        apply (List.perm_append_singleton _ _).nodup_iff.mpr
        exact List.nodup_cons.mpr ⟨allowed, fit.nodup _⟩
    | Remove =>
        simp only [action] at allowed ⊢
        have parts := SwapList.perm_swapRemove allowed
        exact (List.nodup_cons.mp (parts.nodup_iff.mp (fit.nodup _))).2

end ListsFit

namespace ChangeLog

variable {S : Setup} {log : List SignalList}

theorem listsFit (changes : ChangeLog S log) : ListsFit S (listsAfter S log) := by
  induction changes with
  | nil => exact ⟨by simp, by simp⟩
  | concat _ fits _ ih =>
      rw [listsAfter_concat]
      exact ih.apply fits

/-- What the log says about one of its changes. -/
theorem entry {part rest : List SignalList} {entry : SignalList}
    (changes : ChangeLog S log) (same : log = part ++ entry :: rest) :
    ChangeLog S part ∧ entry.Fits S (listsAfter S part) ∧
      entry.signalListId = (part.length + 1) % 2 ^ 32 := by
  induction changes generalizing rest with
  | nil => simp at same
  | @concat before last changes fits id ih =>
      rcases List.eq_nil_or_concat rest with rfl | ⟨front, final, rfl⟩
      · obtain ⟨rfl, single⟩ := List.append_inj' same rfl
        obtain ⟨rfl, -⟩ := List.cons.inj single
        exact ⟨changes, fits, id⟩
      · have split : before ++ [last] = (part ++ entry :: front) ++ [final] := by
          simpa using same
        exact ih (List.append_inj' split rfl).1

theorem part {part : List SignalList} (changes : ChangeLog S log) (early : part <+: log) :
    ChangeLog S part := by
  obtain ⟨rest, rfl⟩ := early
  cases rest with
  | nil => simpa using changes
  | cons first rest => exact (changes.entry rfl).1

end ChangeLog

/-! ### The lists of the non-real-time process -/

namespace Task

variable {S : Setup} {nrt : NrtTask} {lists : Nat → List Nat}

/-- The members of the non-real-time process for these lists. -/
structure NrtHolds (S : Setup) (nrt : NrtTask) (lists : Nat → List Nat) : Prop where
  lists_eq : NrtLists nrt = lists
  position : ∀ w s i, (lists w)[i]? = some s → nrt.copyListPos s = i
  listed : ∀ s, s < S.signals.length →
    (s ∈ lists (S.bin s) ↔ nrt.sessions s ≠ ∅)

@[simp] theorem length_NrtLists (nrt : NrtTask) (w : Nat) :
    (NrtLists nrt w).length = nrt.signalTypeCount w := by
  simp [NrtLists]

theorem getElem?_NrtLists (nrt : NrtTask) (w i : Nat) :
    (NrtLists nrt w)[i]? =
      if i < nrt.signalTypeCount w then some (nrt.signalCopyList w i) else none := by
  unfold NrtLists
  by_cases inside : i < nrt.signalTypeCount w
  · simp [inside]
  · simp [inside]

theorem NrtLists_insertLast (nrt : NrtTask) (w cs : Nat) :
    NrtLists (insertLast nrt w cs) =
      Function.update (NrtLists nrt) w (NrtLists nrt w ++ [cs]) := by
  funext v
  by_cases here : v = w
  · subst here
    rw [Function.update_self]
    apply List.ext_getElem?
    intro i
    simp only [getElem?_NrtLists, insertLast, Function.update_self,
      List.getElem?_append, length_NrtLists]
    by_cases old : i < nrt.signalTypeCount v
    · have other : i ≠ nrt.signalTypeCount v := by omega
      simp [old, other, Nat.lt_succ_of_lt old]
    · rcases Nat.lt_or_ge i (nrt.signalTypeCount v + 1) with last | behind
      · have : i = nrt.signalTypeCount v := by omega
        subst this
        simp
      · have apart : ¬i < nrt.signalTypeCount v + 1 := by omega
        rw [if_neg apart, if_neg old, List.getElem?_eq_none]
        simp only [List.length_singleton]
        omega
  · simp [NrtLists, insertLast, here]

theorem NrtLists_replaceWithLast (nrt : NrtTask) (w cs : Nat)
    (inside : nrt.copyListPos cs < nrt.signalTypeCount w) :
    NrtLists (replaceWithLast nrt w cs) = Function.update (NrtLists nrt) w
      (SwapList.swapRemove (NrtLists nrt w) (nrt.copyListPos cs)) := by
  funext v
  by_cases here : v = w
  · subst here
    rw [Function.update_self]
    apply List.ext_getElem?
    intro i
    rw [SwapList.getElem?_swapRemove (by simpa using inside)]
    simp only [getElem?_NrtLists, replaceWithLast, Function.update_self, length_NrtLists]
    by_cases short : i + 1 < nrt.signalTypeCount v
    · have old : i < nrt.signalTypeCount v := by omega
      have counted : i < nrt.signalTypeCount v - 1 := by omega
      have last : nrt.signalTypeCount v - 1 < nrt.signalTypeCount v := by omega
      by_cases position : i = nrt.copyListPos cs
      · subst position
        simp [short, counted, last]
      · simp [short, counted, old, position]
    · rw [if_neg short, if_neg (by omega)]
  · simp [NrtLists, replaceWithLast, here]

theorem NrtHolds.init : NrtHolds S {} fun _ => [] where
  lists_eq := rfl
  position := by simp
  listed := by simp

/-- A change of the sessions that leaves the lists as they are. -/
theorem NrtHolds.changeSessions {cs st : Nat} {insert : Bool}
    (holds : NrtHolds S nrt lists) (same : unchanged nrt cs st insert) :
    NrtHolds S (changeSessions nrt cs st insert) lists where
  lists_eq := holds.lists_eq
  position := holds.position
  listed := by
    intro s known
    rw [holds.listed s known]
    by_cases here : s = cs
    · subst here
      cases insert with
      | true => simp_all [Task.changeSessions, unchanged]
      | false =>
          simp only [unchanged, Bool.false_eq_true, if_false, decide_eq_true_eq] at same
          simp only [Task.changeSessions, Function.update_self, Bool.false_eq_true, if_false]
          rcases same with none_before | some_left
          · rw [none_before]
            rfl
          · refine iff_of_true ?_ some_left
            intro none_before
            simp [none_before] at some_left
    · simp [Task.changeSessions, here]

theorem NrtHolds.last {w : Nat} (holds : NrtHolds S nrt lists)
    (some_left : 0 < (lists w).length) :
    (lists w)[(lists w).length - 1]? =
      some (nrt.signalCopyList w (nrt.signalTypeCount w - 1)) := by
  rw [← holds.lists_eq] at some_left ⊢
  rw [length_NrtLists] at some_left ⊢
  rw [getElem?_NrtLists, if_pos (by omega)]

theorem NrtHolds.insertLast {cs : Nat} (st id : Nat) (holds : NrtHolds S nrt lists)
    (fit : ListsFit S lists) (known : cs < S.signals.length)
    (unused : nrt.sessions cs = ∅) :
    cs ∉ lists (S.bin cs) ∧
      NrtHolds S
        { Task.insertLast (Task.changeSessions nrt cs st true) (S.bin cs) cs with
          signalListId := id
          subscriptionId := Function.update nrt.subscriptionId cs id }
        (Function.update lists (S.bin cs) (lists (S.bin cs) ++ [cs])) := by
  have absent : cs ∉ lists (S.bin cs) := by
    rw [holds.listed cs known]
    simpa using unused
  have count : nrt.signalTypeCount (S.bin cs) = (lists (S.bin cs)).length := by
    rw [← holds.lists_eq, length_NrtLists]
  refine ⟨absent, ?_, ?_, ?_⟩
  · calc NrtLists _
        = NrtLists (Task.insertLast nrt (S.bin cs) cs) := rfl
      _ = _ := by rw [NrtLists_insertLast, holds.lists_eq]
  · intro w s i found
    simp only [Task.insertLast, Task.changeSessions]
    by_cases here : w = S.bin cs
    · subst here
      rw [Function.update_self, List.getElem?_append] at found
      by_cases old : i < (lists (S.bin cs)).length
      · rw [if_pos old] at found
        have other : s ≠ cs := by
          rintro rfl
          exact absent (List.mem_of_getElem? found)
        rw [Function.update_of_ne other]
        exact holds.position _ s i found
      · rw [if_neg old] at found
        obtain ⟨inside, rfl⟩ := List.getElem?_eq_some_iff.mp found
        simp only [List.length_singleton] at inside
        simp only [List.getElem_singleton, Function.update_self, count]
        omega
    · rw [Function.update_of_ne here] at found
      have other : s ≠ cs := by
        rintro rfl
        exact here (fit.bins w s (List.mem_of_getElem? found)).1.symm
      rw [Function.update_of_ne other]
      exact holds.position w s i found
  · intro s inside
    simp only [Task.insertLast, Task.changeSessions, if_true]
    by_cases same : s = cs
    · subst same
      simp
    · rw [Function.update_of_ne same]
      rw [← holds.listed s inside]
      by_cases here : S.bin s = S.bin cs
      · rw [here, Function.update_self]
        simp [same]
      · rw [Function.update_of_ne here]

theorem NrtHolds.replaceWithLast {cs st : Nat} (id : Nat) (holds : NrtHolds S nrt lists)
    (fit : ListsFit S lists) (known : cs < S.signals.length)
    (used : nrt.sessions cs ≠ ∅) (unused : (nrt.sessions cs).erase st = ∅) :
    (lists (S.bin cs))[nrt.copyListPos cs]? = some cs ∧
      NrtHolds S
        { Task.replaceWithLast (Task.changeSessions nrt cs st false) (S.bin cs) cs with
          signalListId := id
          subscriptionId := Function.update nrt.subscriptionId cs id }
        (Function.update lists (S.bin cs)
          (SwapList.swapRemove (lists (S.bin cs)) (nrt.copyListPos cs))) := by
  have member : cs ∈ lists (S.bin cs) := (holds.listed cs known).mpr used
  have here : (lists (S.bin cs))[nrt.copyListPos cs]? = some cs := by
    obtain ⟨i, found⟩ := List.mem_iff_getElem?.mp member
    rw [holds.position _ cs i found]
    exact found
  have parts := SwapList.perm_swapRemove here
  have inside : nrt.copyListPos cs < (lists (S.bin cs)).length :=
    (List.getElem?_eq_some_iff.mp here).1
  have count : nrt.signalTypeCount (S.bin cs) = (lists (S.bin cs)).length := by
    rw [← holds.lists_eq, length_NrtLists]
  have last := holds.last (Nat.zero_lt_of_lt inside)
  refine ⟨here, ?_, ?_, ?_⟩
  · calc NrtLists _
        = NrtLists (Task.replaceWithLast nrt (S.bin cs) cs) := rfl
      _ = _ := by
        rw [NrtLists_replaceWithLast _ _ _ (by rw [count]; exact inside), holds.lists_eq]
  · intro w s i found
    simp only [Task.replaceWithLast, Task.changeSessions]
    by_cases bin : w = S.bin cs
    · subst bin
      rw [Function.update_self, SwapList.getElem?_swapRemove inside] at found
      by_cases short : i + 1 < (lists (S.bin cs)).length
      · rw [if_pos short] at found
        by_cases position : i = nrt.copyListPos cs
        · rw [if_pos position, last, Option.some.injEq] at found
          subst found
          rw [Function.update_self, position]
        · rw [if_neg position] at found
          -- only the last signal gets another position
          have other : s ≠ nrt.signalCopyList (S.bin cs)
              (nrt.signalTypeCount (S.bin cs) - 1) := by
            rintro rfl
            have first := holds.position _ _ i found
            have second := holds.position _ _ _ last
            omega
          rw [Function.update_of_ne other]
          exact holds.position _ s i found
      · simp [if_neg short] at found
    · rw [Function.update_of_ne bin] at found
      -- a signal of another list is not the last one of this
      have other : s ≠ nrt.signalCopyList (S.bin cs)
          (nrt.signalTypeCount (S.bin cs) - 1) := by
        rintro rfl
        have first := (fit.bins w _ (List.mem_of_getElem? found)).1
        have second := (fit.bins _ _ (List.mem_of_getElem? last)).1
        exact bin (first.symm.trans second)
      rw [Function.update_of_ne other]
      exact holds.position w s i found
  · intro s inside
    simp only [Task.replaceWithLast, Task.changeSessions, Bool.false_eq_true, if_false]
    by_cases same : s = cs
    · subst same
      rw [Function.update_self, Function.update_self, unused]
      have gone := (List.nodup_cons.mp (parts.nodup_iff.mp (fit.nodup _))).1
      simpa using gone
    · rw [Function.update_of_ne same, ← holds.listed s inside]
      by_cases bin : S.bin s = S.bin cs
      · rw [bin, Function.update_self, parts.mem_iff]
        simp [same]
      · rw [Function.update_of_ne bin]

/-- What `subscribe` changes is an entry that fits the lists. -/
theorem NrtHolds.change {cs st : Nat} {insert : Bool} (holds : NrtHolds S nrt lists)
    (fit : ListsFit S lists) (known : cs < S.signals.length) (old : SignalList)
    (changed : unchanged nrt cs st insert = false) :
    let result := change S (Task.changeSessions nrt cs st insert) old cs insert
    result.2.Fits S lists ∧ NrtHolds S result.1 (result.2.apply S lists) := by
  cases insert with
  | true =>
      simp only [unchanged, if_true, decide_eq_false_iff_not, not_not] at changed
      obtain ⟨absent, after⟩ :=
        holds.insertLast st ((nrt.signalListId + 1) % 2 ^ 32) fit known changed
      exact ⟨⟨known, absent⟩, after⟩
  | false =>
      simp only [unchanged, Bool.false_eq_true, if_false, decide_eq_false_iff_not,
        not_or, not_not] at changed
      obtain ⟨found, after⟩ :=
        holds.replaceWithLast ((nrt.signalListId + 1) % 2 ^ 32) fit known changed.1 changed.2
      exact ⟨⟨known, found⟩, after⟩

/-! ### The lists of the real-time process -/

/-- The members of the real-time process for these lists. -/
structure RtHolds (S : Setup) (rt : RtTask) (lists : Nat → List Nat) : Prop where
  places : ∀ w i, rt.copyList w i = (lists w)[i]?
  count : ∀ w, rt.signalTypeCount w = (lists w).length
  memSize : rt.signalMemSize = (((List.range 4).flatMap lists).map S.sizeOf).sum

variable {rt : RtTask}

theorem scan_eq {list : List Nat} {places : Nat → Option Nat}
    (same : ∀ i, places i = list[i]?) (left i : Nat) (long : list.length < i + left) :
    scan places left i = list.drop i := by
  induction left generalizing i with
  | zero =>
      rw [List.drop_eq_nil_of_le (by omega)]
      rfl
  | succ left ih =>
      rw [scan, same]
      cases here : list[i]? with
      | none =>
          rw [List.getElem?_eq_none_iff] at here
          rw [List.drop_eq_nil_of_le here]
      | some signal =>
          obtain ⟨inside, rfl⟩ := List.getElem?_eq_some_iff.mp here
          dsimp only
          rw [ih (i + 1) (by omega), List.drop_eq_getElem_cons inside]

theorem RtHolds.copied_eq (holds : RtHolds S rt lists) (fit : ListsFit S lists) :
    copied S rt = lists := by
  funext w
  have short := fit.length_le w
  unfold copied
  rw [scan_eq (holds.places w) _ 0 (by omega)]
  rfl

theorem sum_update (size : Nat → Nat) (lists : Nat → List Nat) {w : Nat} (bin : w < 4)
    (list : List Nat) :
    (((List.range 4).flatMap (Function.update lists w list)).map size).sum +
        ((lists w).map size).sum =
      (((List.range 4).flatMap lists).map size).sum + (list.map size).sum := by
  have bins : List.range 4 = [0, 1, 2, 3] := rfl
  simp only [bins, List.flatMap_cons, List.flatMap_nil, List.map_append, List.sum_append]
  have cases : w = 0 ∨ w = 1 ∨ w = 2 ∨ w = 3 := by omega
  rcases cases with rfl | rfl | rfl | rfl <;> simp [Function.update] <;> omega

theorem RtHolds.applyEntry {entry : SignalList} (holds : RtHolds S rt lists)
    (fits : entry.Fits S lists) :
    RtHolds S (applyEntry S rt entry) (entry.apply S lists) := by
  obtain ⟨known, allowed⟩ := fits
  have bin : S.bin entry.signal < 4 := by
    unfold Setup.bin
    rw [List.getElem?_eq_getElem known]
    exact Signal.bin_lt _
  unfold Task.applyEntry SignalList.apply
  cases action : entry.action with
  | Insert =>
      simp only [action] at allowed ⊢
      constructor
      · intro w i
        by_cases here : w = S.bin entry.signal
        · subst here
          simp only [Function.update_self, holds.count, List.getElem?_append]
          by_cases last : i = (lists (S.bin entry.signal)).length
          · subst last
            simp
          · rw [Function.update_of_ne last, holds.places]
            by_cases old : i < (lists (S.bin entry.signal)).length
            · rw [if_pos old]
            · rw [if_neg old, List.getElem?_eq_none (by omega), List.getElem?_eq_none]
              simp only [List.length_singleton]
              omega
        · simp only [Function.update_of_ne here, holds.places]
      · intro w
        by_cases here : w = S.bin entry.signal
        · subst here
          simp [holds.count]
        · simp only [Function.update_of_ne here, holds.count]
      · -- the bytes to copy grow by those of the signal
        have total := sum_update S.sizeOf lists bin
          (lists (S.bin entry.signal) ++ [entry.signal])
        simp only [List.map_append, List.sum_append, List.map_cons, List.map_nil,
          List.sum_cons, List.sum_nil] at total
        simp only [holds.memSize]
        omega
  | Remove =>
      simp only [action] at allowed ⊢
      have inside := (List.getElem?_eq_some_iff.mp allowed).1
      constructor
      · intro w i
        by_cases here : w = S.bin entry.signal
        · subst here
          simp only [Function.update_self, holds.count,
            SwapList.getElem?_swapRemove inside]
          -- the last signal moves to the place that was left, and its own is cleared
          by_cases last : i = (lists (S.bin entry.signal)).length - 1
          · subst last
            rw [Function.update_self, if_neg (by omega)]
          · rw [Function.update_of_ne last]
            by_cases position : i = entry.signalPosition
            · subst position
              rw [Function.update_self, if_pos (by omega), if_pos rfl, holds.places]
            · rw [Function.update_of_ne position, holds.places]
              by_cases old : i + 1 < (lists (S.bin entry.signal)).length
              · rw [if_pos old, if_neg position]
              · rw [if_neg old, List.getElem?_eq_none (by omega)]
        · simp only [Function.update_of_ne here, holds.places]
      · intro w
        by_cases here : w = S.bin entry.signal
        · subst here
          simp [holds.count, SwapList.length_swapRemove]
        · simp only [Function.update_of_ne here, holds.count]
      · have total := sum_update S.sizeOf lists bin
          (SwapList.swapRemove (lists (S.bin entry.signal)) entry.signalPosition)
        have parts := ((SwapList.perm_swapRemove allowed).map S.sizeOf).sum_nat
        simp only [List.map_cons, List.sum_cons] at parts
        simp only [holds.memSize]
        omega

end Task

/-! ### Runs -/

namespace Task

/-- The changes made, in order. -/
def published (events : List TaskEvent) : List SignalList :=
  events.filterMap fun
    | .changed entry _ => some entry
    | _ => none

/-- The changes the real-time process has applied, in order. -/
def processed (events : List TaskEvent) : List SignalList :=
  events.filterMap fun
    | .processed entry => some entry
    | _ => none

@[simp] theorem published_append (events new : List TaskEvent) :
    published (events ++ new) = published events ++ published new :=
  List.filterMap_append ..

@[simp] theorem processed_append (events new : List TaskEvent) :
    processed (events ++ new) = processed events ++ processed new :=
  List.filterMap_append ..

/-- The changes that are still in the ring. -/
def pending (events : List TaskEvent) : List SignalList :=
  (published events).drop (processed events).length

end Task

/-- The lists an event tells of are those after a part of the log. -/
def TaskEvent.Told (S : Setup) (log : List SignalList) : TaskEvent → Prop
  | .changed entry lists =>
      ∃ part, part ++ [entry] <+: log ∧ lists = listsAfter S (part ++ [entry])
  | .processed _ => True
  | .signals pdo => ∃ part, part <+: log ∧
      pdo.signalListId = part.length % 2 ^ 32 ∧
      pdo.signals = (List.range 4).flatMap (listsAfter S part)
  | .data pdo => ∃ part, part <+: log ∧
      pdo.signalListId = part.length % 2 ^ 32 ∧
      pdo.copied = listsAfter S part ∧
      pdo.bytes = Task.sampled S pdo.values pdo.copied

theorem TaskEvent.Told.mono {S : Setup} {log longer : List SignalList} {event : TaskEvent}
    (told : event.Told S log) (more : log <+: longer) : event.Told S longer := by
  cases event with
  | changed entry lists =>
      obtain ⟨part, early, same⟩ := told
      exact ⟨part, early.trans more, same⟩
  | processed entry => trivial
  | signals pdo =>
      obtain ⟨part, early, same⟩ := told
      exact ⟨part, early.trans more, same⟩
  | data pdo =>
      obtain ⟨part, early, same⟩ := told
      exact ⟨part, early.trans more, same⟩

/-- Both sides and the ring between them. -/
structure Task.Follows (S : Setup) (task : Task) (events : List TaskEvent) : Prop where
  log : ChangeLog S (Task.published events)
  nrt : NrtHolds S task.nrt (listsAfter S (Task.published events))
  signalListId : task.nrt.signalListId = (Task.published events).length % 2 ^ 32
  last : (task.shmem.signalList task.shmem.signalListWp).signalListId =
    (Task.published events).length % 2 ^ 32
  behind : Task.processed events <+: Task.published events
  ring : S.signals ≠ [] → Ring.Carries S.ringSize task.shmem.signalList
    task.shmem.signalListRp task.shmem.signalListWp (Task.pending events)
  empty : S.signals = [] → task.shmem.signalListRp = task.shmem.signalListWp
  rt : RtHolds S task.rt (listsAfter S (Task.processed events))
  applied : task.rt.signalListId = (Task.processed events).length % 2 ^ 32
  told : ∀ event ∈ events, event.Told S (Task.published events)

namespace Task

variable {task after : Task} {events new : List TaskEvent}

/-- All that `subscribe` can do. -/
theorem subscribe_cases {cs st : Nat} {insert result : Bool}
    (done : task.subscribe S cs st insert = some (result, after, new)) :
    let wp := Ring.next S.ringSize task.shmem.signalListWp
    let sessions := changeSessions task.nrt cs st insert
    wp ≠ task.shmem.signalListRp ∧
    ((unchanged task.nrt cs st insert = true ∧ result = true ∧ new = [] ∧
        after = { task with
          nrt := sessions
          shmem := { task.shmem with
            signalList := Function.update task.shmem.signalList wp
              { task.shmem.signalList wp with signal := cs } } }) ∨
      (∃ changed entry,
        (changed, entry) = change S sessions (task.shmem.signalList wp) cs insert ∧
        unchanged task.nrt cs st insert = false ∧ result = false ∧
        new = [.changed entry (NrtLists changed)] ∧
        after = { task with
          nrt := changed
          shmem := { task.shmem with
            signalList := Function.update task.shmem.signalList wp entry
            signalListWp := wp } })) := by
  unfold subscribe at done
  dsimp only at done ⊢
  split at done
  · cases done
  · next free =>
    refine ⟨free, ?_⟩
    cases same : unchanged task.nrt cs st insert with
    | true =>
        rw [if_pos same] at done
        cases done
        exact .inl ⟨rfl, rfl, rfl, rfl⟩
    | false =>
        rw [if_neg (by simp [same])] at done
        cases done
        exact .inr ⟨_, _, rfl, rfl, rfl, rfl, rfl⟩

namespace Follows

theorem init : Follows S (Task.init S) [] where
  log := .nil
  nrt := NrtHolds.init
  signalListId := rfl
  last := rfl
  behind := List.prefix_refl []
  ring := by
    intro some_signals
    apply Ring.Carries.start
    have := List.length_pos_of_ne_nil some_signals
    simp only [Task.init, Setup.ringSize]
    omega
  empty := fun _ => rfl
  rt := ⟨fun _ _ => rfl, fun _ => rfl, rfl⟩
  applied := rfl
  told := by simp

theorem subscribe {cs st : Nat} {insert result : Bool} (follows : Follows S task events)
    (known : cs < S.signals.length)
    (done : task.subscribe S cs st insert = some (result, after, new)) :
    Follows S after (events ++ new) := by
  have some_signals : S.signals ≠ [] := by
    rintro none_there
    simp [none_there] at known
  have carries := follows.ring some_signals
  obtain ⟨free, same | changed⟩ := subscribe_cases done
  · obtain ⟨same, -, rfl, rfl⟩ := same
    rw [List.append_nil]
    -- the entry behind the write pointer is written, but not published
    have apart : task.shmem.signalListWp ≠
        Ring.next S.ringSize task.shmem.signalListWp := by
      have inside := carries.writer_lt
      have := List.length_pos_of_ne_nil some_signals
      unfold Ring.next Setup.ringSize at *
      split <;> omega
    exact
      { follows with
        nrt := follows.nrt.changeSessions same
        last := by
          dsimp only
          rw [Function.update_of_ne apart]
          exact follows.last
        ring := fun _ => carries.write free _ }
  · obtain ⟨changed, entry, entry_eq, same, -, rfl, rfl⟩ := changed
    have fit := follows.log.listsFit
    obtain ⟨fits, holds⟩ := follows.nrt.change fit known
      (task.shmem.signalList (Ring.next S.ringSize task.shmem.signalListWp)) same
    have entry_is := congrArg Prod.snd entry_eq
    have changed_is := congrArg Prod.fst entry_eq
    -- the change gets the next number
    have id : entry.signalListId = ((published events).length + 1) % 2 ^ 32 := by
      have : entry.signalListId = (task.nrt.signalListId + 1) % 2 ^ 32 := by
        rw [show entry = _ from entry_is]
        rfl
      rw [this, follows.signalListId]
      omega
    have id' : changed.signalListId = entry.signalListId := by
      rw [show changed = _ from changed_is, show entry = _ from entry_is]
      rfl
    rw [← entry_eq] at fits holds
    dsimp only at fits holds
    rw [← listsAfter_concat] at holds
    have longer : published (events ++ [.changed entry (NrtLists changed)]) =
        published events ++ [entry] := by
      rw [published_append]
      rfl
    have unread : processed (events ++ [.changed entry (NrtLists changed)]) =
        processed events := by
      rw [processed_append]
      exact List.append_nil _
    have short := follows.behind.length_le
    constructor
    case log =>
      rw [longer]
      exact .concat follows.log fits id
    case nrt =>
      rw [longer]
      exact holds
    case signalListId =>
      rw [longer, List.length_append, List.length_singleton]
      exact id'.trans id
    case last =>
      rw [longer, List.length_append, List.length_singleton]
      dsimp only
      rw [Function.update_self]
      exact id
    case behind =>
      rw [longer, unread]
      exact follows.behind.trans (List.prefix_append _ _)
    case ring =>
      intro _
      have grown : pending (events ++ [.changed entry (NrtLists changed)]) =
          pending events ++ [entry] := by
        unfold pending
        rw [longer, unread, List.drop_append_of_le_length short]
      rw [grown]
      exact carries.push free entry
    case empty =>
      intro none_there
      exact absurd none_there some_signals
    case rt =>
      rw [unread]
      exact follows.rt
    case applied =>
      rw [unread]
      exact follows.applied
    case told =>
      rw [longer]
      intro event member
      rcases List.mem_append.mp member with old | fresh
      · exact (follows.told event old).mono (List.prefix_append _ _)
      · rw [List.mem_singleton] at fresh
        subst fresh
        exact ⟨published events, List.prefix_refl _, holds.lists_eq⟩

theorem processSignalList (follows : Follows S task events)
    (waiting : task.shmem.signalListRp ≠ task.shmem.signalListWp) :
    Follows S (task.processSignalList S).1 (events ++ (task.processSignalList S).2) := by
  have some_signals : S.signals ≠ [] := fun none_there =>
    waiting (follows.empty none_there)
  have carries := follows.ring some_signals
  have short := follows.behind.length_le
  cases rest : pending events with
  | nil => exact absurd (carries.empty_iff.mpr rest) waiting
  | cons entry later =>
      rw [rest] at carries
      obtain ⟨found, after⟩ := carries.pop
      have behind : published events = processed events ++ entry :: later := by
        rw [← rest]
        exact List.prefix_iff_eq_append.mp follows.behind |>.symm
      obtain ⟨-, fits, id⟩ := follows.log.entry behind
      have same : published (events ++ (task.processSignalList S).2) = published events := by
        rw [published_append]
        exact List.append_nil _
      have longer : processed (events ++ (task.processSignalList S).2) =
          processed events ++ [entry] := by
        rw [processed_append, ← found]
        rfl
      constructor
      case log =>
        rw [same]
        exact follows.log
      case nrt =>
        rw [same]
        exact follows.nrt
      case signalListId =>
        rw [same]
        exact follows.signalListId
      case last =>
        rw [same]
        exact follows.last
      case behind =>
        rw [same, longer, behind]
        exact ⟨later, by simp⟩
      case ring =>
        intro _
        have shrunk : pending (events ++ (task.processSignalList S).2) = later := by
          unfold pending
          rw [same, longer, behind]
          simp
        rw [shrunk]
        exact after
      case empty =>
        intro none_there
        exact absurd none_there some_signals
      case rt =>
        rw [longer, listsAfter_concat, ← found]
        rw [← found] at fits
        exact follows.rt.applyEntry fits
      case applied =>
        rw [longer, List.length_append, List.length_singleton, ← id, ← found]
        unfold Task.processSignalList applyEntry
        dsimp only
        split <;> rfl
      case told =>
        rw [same]
        intro event member
        rcases List.mem_append.mp member with old | fresh
        · exact follows.told event old
        · simp only [Task.processSignalList, List.mem_singleton] at fresh
          subst fresh
          trivial

/-- A PDO with the lists of the real-time process is published. -/
theorem publish {event : TaskEvent} (follows : Follows S task events)
    (memory : Memory) (phase : RtPhase) (seqNo txPdo nextTxPdo : Nat)
    (changes : published [event] = []) (applies : processed [event] = [])
    (told : event.Told S (processed events)) :
    Follows S
      { task with
        phase := phase
        shmem := { task.shmem with memory := memory }
        rt := { task.rt with seqNo := seqNo, txPdo := txPdo, nextTxPdo := nextTxPdo } }
      (events ++ [event]) := by
  have same : published (events ++ [event]) = published events := by
    rw [published_append, changes, List.append_nil]
  have same' : processed (events ++ [event]) = processed events := by
    rw [processed_append, applies, List.append_nil]
  have holds := follows.rt
  constructor
  case log =>
    rw [same]
    exact follows.log
  case nrt =>
    rw [same]
    exact follows.nrt
  case signalListId =>
    rw [same]
    exact follows.signalListId
  case last =>
    rw [same]
    exact follows.last
  case behind =>
    rw [same, same']
    exact follows.behind
  case ring =>
    unfold pending
    rw [same, same']
    exact follows.ring
  case empty =>
    exact follows.empty
  case rt =>
    rw [same']
    exact ⟨holds.places, holds.count, holds.memSize⟩
  case applied =>
    rw [same']
    exact follows.applied
  case told =>
    rw [same]
    intro other member
    rcases List.mem_append.mp member with old | fresh
    · exact follows.told other old
    · rw [List.mem_singleton] at fresh
      subst fresh
      exact told.mono follows.behind

theorem copied_eq (follows : Follows S task events) :
    copied S task.rt = listsAfter S (processed events) :=
  follows.rt.copied_eq (follows.log.part follows.behind).listsFit

theorem calculateCopyList (follows : Follows S task events) (phase : RtPhase) :
    Follows S { (task.calculateCopyList S).1 with phase := phase }
      (events ++ (task.calculateCopyList S).2) :=
  follows.publish _ phase _ _ _ rfl rfl
    ⟨processed events, List.prefix_refl _, follows.applied, by rw [follows.copied_eq]⟩

theorem copyData (follows : Follows S task events) (phase : RtPhase)
    (t : Option Timespec) (values : Nat → Nat → Byte) :
    Follows S { (task.copyData S t values).1 with phase := phase }
      (events ++ (task.copyData S t values).2) :=
  follows.publish _ phase _ _ _ rfl rfl
    ⟨processed events, List.prefix_refl _, follows.applied, follows.copied_eq, rfl⟩

theorem step {action : Action} (follows : Follows S task events)
    (done : task.step S action = some (after, new)) : Follows S after (events ++ new) := by
  cases action with
  | subscribe cs st insert =>
      simp only [Task.step] at done
      split at done
      · next known =>
        obtain ⟨⟨result, after', new'⟩, done, same⟩ := Option.map_eq_some_iff.mp done
        cases same
        exact follows.subscribe known done
      · cases done
  | updateStatistics statistics =>
      simp only [Task.step] at done
      split at done <;> cases done
      rw [List.append_nil]
      have holds := follows.rt
      exact { follows with rt := ⟨holds.places, holds.count, holds.memSize⟩ }
  | rt_update t =>
      simp only [Task.step] at done
      split at done <;> cases done
      rw [List.append_nil]
      exact { follows with }
  | processSignalList =>
      simp only [Task.step] at done
      split at done
      · split at done
        · cases done
        · next waiting =>
          cases done
          exact follows.processSignalList waiting
      · cases done
  | calculateCopyList =>
      simp only [Task.step] at done
      split at done
      · split at done
        · cases done
          exact follows.calculateCopyList _
        · cases done
      · cases done
  | copyData values =>
      simp only [Task.step] at done
      split at done <;> cases done
      exact follows.copyData _ _ _

end Follows

end Task

theorem TaskRun.follows {S : Setup} {task : Task} {events : List TaskEvent}
    (run : TaskRun S task events) : Task.Follows S task events := by
  induction run with
  | start => exact Task.Follows.init
  | step action _ done ih => exact ih.step done

theorem Task.Follows.known {S : Setup} {task : Task} {events : List TaskEvent}
    (follows : Task.Follows S task events) {entry : SignalList}
    (member : entry ∈ Task.published events) : entry.signal < S.signals.length := by
  obtain ⟨before, rest, split⟩ := List.append_of_mem member
  exact (follows.log.entry split).2.1.1

/-- Take these actions one after the other. -/
def Task.perform (S : Setup) : List Task.Action → Task × List TaskEvent →
    Option (Task × List TaskEvent)
  | [], reached => some reached
  | action :: rest, (task, events) =>
      match task.step S action with
      | none => none
      | some (after, new) => perform S rest (after, events ++ new)

theorem TaskRun.perform {S : Setup} {actions : List Task.Action} {task : Task}
    {events : List TaskEvent} {reached : Task × List TaskEvent}
    (run : TaskRun S task events)
    (done : Task.perform S actions (task, events) = some reached) :
    TaskRun S reached.1 reached.2 := by
  induction actions generalizing task events with
  | nil =>
      cases done
      exact run
  | cons action rest ih =>
      rw [Task.perform] at done
      split at done
      · cases done
      · next after new here => exact ih (.step action run here) done

/-- One signal of the type double. -/
def oneSignal : Setup where
  signals := [⟨8, by decide, 8, by decide⟩]
  shmem := 4096
  bufferCount := 0
  aligned := by decide
  notNull := by decide
  countable := by decide
  inside := by decide

/-- A session subscribes the signal, and the real-time process takes a turn. -/
def firstCycleActions : List Task.Action :=
  [.subscribe 0 1 true, .rt_update (some ⟨5, 7⟩), .processSignalList,
    .calculateCopyList, .copyData fun _ _ => 9]

def firstCycle : Task × List TaskEvent :=
  (Task.perform oneSignal firstCycleActions
    (Task.init oneSignal, [])).getD (Task.init oneSignal, [])

theorem firstCycle_run : TaskRun oneSignal firstCycle.1 firstCycle.2 := by
  have done : Task.perform oneSignal firstCycleActions (Task.init oneSignal, []) =
      some firstCycle := rfl
  exact TaskRun.start.perform done

end PdServ
