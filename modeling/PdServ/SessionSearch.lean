import PdServ.SessionTaskData

/-!
The search of `SessionTaskData::init` for a Data PDO with the list committed
last, along PDOs that are published already and while no list changes.
-/

namespace PdServ

namespace Stream

variable {S : Setup} {stream : Stream} {caller : InitCaller} {signals : List Nat}

def isDataAt (m : Memory) (p : Nat) : Bool := Pdo.type m p = Pdo.Data

/-- `init` is at its test for a Data PDO, on this PDO and with this list. -/
def checkingAt (stream : Stream) (caller : InitCaller) (p : Nat) : Stream :=
  { stream with
    data := { stream.data with pdo := p, signalListId := stream.task.getSignalList.2 }
    phase := .checking caller stream.task.getSignalList.1 }

def awaitingAt (stream : Stream) (caller : InitCaller) (p : Nat) : Stream :=
  { stream.checkingAt caller p with phase := .awaiting caller stream.task.getSignalList.1 }

def listingAt (stream : Stream) (caller : InitCaller) (p : Nat) : Stream :=
  { stream.checkingAt caller p with phase := .listing caller }

theorem turn_of_listing (phase : stream.phase = .listing caller) :
    stream.turn S = some (stream.checkingAt caller stream.data.pdo) := by
  simp only [turn, phase]
  rfl

theorem turn_of_awaiting (phase : stream.phase = .awaiting caller signals)
    (some_pdo : Pdo.next stream.memory stream.data.pdo ≠ 0) :
    stream.turn S = some
      { stream with
        data := { stream.data with pdo := Pdo.next stream.memory stream.data.pdo }
        phase := .checking caller signals } := by
  simp only [turn, phase]
  exact if_neg some_pdo

theorem turn_listing (p : Nat) :
    (stream.listingAt caller p).turn S = some (stream.checkingAt caller p) := rfl

theorem turn_checking_other {p : Nat} (other : isDataAt stream.memory p = false) :
    (stream.checkingAt caller p).turn S = some (stream.awaitingAt caller p) := by
  simp only [isDataAt, decide_eq_false_iff_not] at other
  exact if_pos other

theorem turn_awaiting {p next : Nat} (link : Pdo.next stream.memory p = next)
    (some_pdo : next ≠ 0) :
    (stream.awaitingAt caller p).turn S = some (stream.checkingAt caller next) := by
  subst link
  exact @turn_of_awaiting S (stream.awaitingAt caller p) caller _ rfl some_pdo

theorem turn_checking_older {p : Nat} (data : isDataAt stream.memory p = true)
    (older : Pdo.signalListId stream.memory p ≠ stream.task.getSignalList.2) :
    (stream.checkingAt caller p).turn S = some (stream.listingAt caller p) := by
  simp only [isDataAt, decide_eq_true_eq] at data
  exact (if_neg (not_not.mpr data)).trans (if_pos older)

theorem turn_checking_found {p : Nat} (data : isDataAt stream.memory p = true)
    (found : Pdo.signalListId stream.memory p = stream.task.getSignalList.2) :
    (stream.checkingAt caller p).turn S =
      some ((stream.checkingAt caller p).synchronised S caller
        stream.task.getSignalList.1) := by
  simp only [isDataAt, decide_eq_true_eq] at data
  exact (if_neg (not_not.mpr data)).trans (if_neg (not_not.mpr found))

/-- Over PDOs that are no Data PDOs the search goes on. -/
theorem search_passes {front rest : List Nat} {first p : Nat}
    (linked : Linked (Pdo.next stream.memory) (front ++ p :: rest))
    (starts : (front ++ p :: rest).head? = some first)
    (some_pdos : ∀ q ∈ front ++ p :: rest, q ≠ 0)
    (other : ∀ q ∈ front, isDataAt stream.memory q = false) :
    Transition.turns (turn S) (2 * front.length) (stream.checkingAt caller first) =
      some (stream.checkingAt caller p) := by
  induction front generalizing first with
  | nil =>
      cases starts
      rfl
  | cons passed front ih =>
      cases starts
      obtain ⟨second, later⟩ : ∃ second, (front ++ p :: rest).head? = some second := by
        cases front with
        | nil => exact ⟨p, rfl⟩
        | cons second _ => exact ⟨second, rfl⟩
      have member : second ∈ front ++ p :: rest := List.mem_of_mem_head? later
      have link : Pdo.next stream.memory passed = second := by
        obtain ⟨tail, same⟩ := List.head?_eq_some_iff.mp later
        rw [List.cons_append, same] at linked
        exact linked.1
      have checks : (stream.checkingAt caller passed).turn S =
          some (stream.awaitingAt caller passed) :=
        turn_checking_other (other passed List.mem_cons_self)
      have waits : (stream.awaitingAt caller passed).turn S =
          some (stream.checkingAt caller second) :=
        turn_awaiting link (some_pdos second (List.mem_cons_of_mem _ member))
      have two : 2 * (passed :: front).length = 1 + (1 + 2 * front.length) := by
        rw [List.length_cons]
        omega
      rw [two]
      apply Transition.turns_add (Transition.turns_one checks)
      apply Transition.turns_add (Transition.turns_one waits)
      apply ih linked.tail later
      · intro q inside
        exact some_pdos q (List.mem_cons_of_mem _ inside)
      · intro q inside
        exact other q (List.mem_cons_of_mem _ inside)

/-- `init` has returned, standing on a Data PDO with the list committed last. -/
def Found (before after : Stream) (chain : List Nat) : Prop :=
  (∃ result, after.phase = .ready result) ∧ after.data.pdo ∈ chain ∧
    isDataAt before.memory after.data.pdo = true ∧
    Pdo.signalListId before.memory after.data.pdo = before.task.getSignalList.2 ∧
    after.data.signalListId = before.task.getSignalList.2

theorem loadSignalList_pdo (subscriptionId : Nat → Nat) (data : SessionTaskData)
    (sp : List Nat) (id : Nat) :
    (data.loadSignalList S subscriptionId sp id).1.pdo = data.pdo ∧
      (data.loadSignalList S subscriptionId sp id).1.signalListId = id := by
  unfold SessionTaskData.loadSignalList
  generalize started : (({ data with
    signalPosition := fun _ => 4294967295
    transferredSet := ∅
    signalListId := id
    pdoSize := 0 } : SessionTaskData), ([] : List Nat)) = loading
  have same : loading.1.pdo = data.pdo ∧ loading.1.signalListId = id := by
    subst started
    exact ⟨rfl, rfl⟩
  clear started
  induction sp generalizing loading with
  | nil => exact same
  | cons s sp ih =>
      apply ih
      unfold SessionTaskData.loadSignal
      dsimp only
      split <;> exact same

/-- At a Data PDO with the list committed last the search ends. -/
theorem search_finds {front rest : List Nat} {p : Nat} (phase : stream.phase = .listing caller)
    (linked : Linked (Pdo.next stream.memory) (front ++ p :: rest))
    (starts : (front ++ p :: rest).head? = some stream.data.pdo)
    (some_pdos : ∀ q ∈ front ++ p :: rest, q ≠ 0)
    (other : ∀ q ∈ front, isDataAt stream.memory q = false)
    (data : isDataAt stream.memory p = true)
    (found : Pdo.signalListId stream.memory p = stream.task.getSignalList.2) :
    ∃ after, Transition.turns (turn S) (1 + (2 * front.length + 1)) stream = some after ∧
      Found stream after (front ++ p :: rest) := by
  refine ⟨(stream.checkingAt caller p).synchronised S caller stream.task.getSignalList.1, ?_, ?_⟩
  · apply Transition.turns_add (Transition.turns_one (turn_of_listing phase))
    apply Transition.turns_add (search_passes linked starts some_pdos other)
    exact Transition.turns_one (turn_checking_found data found)
  · have kept := loadSignalList_pdo (S := S) stream.subscriptionId
      { (stream.checkingAt caller p).data with seqNo := Pdo.seqNo stream.memory p }
      stream.task.getSignalList.1 stream.task.getSignalList.2
    have pdo : ((stream.checkingAt caller p).synchronised S caller
        stream.task.getSignalList.1).data.pdo = p := by
      cases caller <;> exact kept.1
    have id : ((stream.checkingAt caller p).synchronised S caller
        stream.task.getSignalList.1).data.signalListId = stream.task.getSignalList.2 := by
      cases caller <;> exact kept.2
    refine ⟨?_, ?_, ?_, ?_, id⟩
    · cases caller <;> exact ⟨_, rfl⟩
    · rw [pdo]
      simp
    · rw [pdo]
      exact data
    · rw [pdo]
      exact found

/-- The search stands before or on a Data PDO with an older list. -/
def Searching (before : Stream) (caller : InitCaller) (p : Nat) (after : Stream) : Prop :=
  ∃ front rest q, Linked (Pdo.next before.memory) (front ++ p :: rest) ∧
    (front ++ p :: rest).head? = some q ∧ (∀ r ∈ front ++ p :: rest, r ≠ 0) ∧
    (∀ r ∈ front, isDataAt before.memory r = false) ∧
    (after = before.checkingAt caller q ∨ after = before.listingAt caller q ∨
      front ≠ [] ∧ after = before.awaitingAt caller q)

theorem searching_goes_on {p : Nat} {before : Stream}
    (data : isDataAt stream.memory p = true)
    (older : Pdo.signalListId stream.memory p ≠ stream.task.getSignalList.2)
    (searching : Searching stream caller p before) :
    ∃ after, before.turn S = some after ∧ Searching stream caller p after := by
  obtain ⟨front, rest, q, linked, starts, some_pdos, other, same⟩ := searching
  rcases same with rfl | rfl | ⟨nonempty, rfl⟩
  · cases front with
    | nil =>
        cases starts
        exact ⟨_, turn_checking_older data older, [], rest, p, linked, rfl, some_pdos, other,
          .inr (.inl rfl)⟩
    | cons passed front =>
        cases starts
        exact ⟨_, turn_checking_other (other q List.mem_cons_self), q :: front, rest,
          q, linked, rfl, some_pdos, other, .inr (.inr ⟨by simp, rfl⟩)⟩
  · exact ⟨_, turn_listing q, front, rest, q, linked, starts, some_pdos, other, .inl rfl⟩
  · cases front with
    | nil => exact absurd rfl nonempty
    | cons passed front =>
        cases starts
        obtain ⟨second, later⟩ : ∃ second, (front ++ p :: rest).head? = some second := by
          cases front with
          | nil => exact ⟨p, rfl⟩
          | cons second _ => exact ⟨second, rfl⟩
        have member : second ∈ front ++ p :: rest := List.mem_of_mem_head? later
        have link : Pdo.next stream.memory q = second := by
          obtain ⟨tail, same⟩ := List.head?_eq_some_iff.mp later
          rw [List.cons_append, same] at linked
          exact linked.1
        have nonzero := some_pdos second (List.mem_cons_of_mem _ member)
        refine ⟨_, turn_awaiting link nonzero, front, rest, second, linked.tail, later, ?_, ?_,
          .inl rfl⟩
        · intro r inside
          exact some_pdos r (List.mem_cons_of_mem _ inside)
        · intro r inside
          exact other r (List.mem_cons_of_mem _ inside)

/-- The search never gets past a Data PDO with an older list. -/
theorem search_forever {front rest : List Nat} {p : Nat}
    (phase : stream.phase = .listing caller)
    (linked : Linked (Pdo.next stream.memory) (front ++ p :: rest))
    (starts : (front ++ p :: rest).head? = some stream.data.pdo)
    (some_pdos : ∀ q ∈ front ++ p :: rest, q ≠ 0)
    (other : ∀ q ∈ front, isDataAt stream.memory q = false)
    (data : isDataAt stream.memory p = true)
    (older : Pdo.signalListId stream.memory p ≠ stream.task.getSignalList.2) (count : Nat) :
    ∃ after, Transition.turns (turn S) count stream = some after ∧
      ∀ result, after.phase ≠ .ready result := by
  cases count with
  | zero =>
      refine ⟨stream, rfl, ?_⟩
      intro result
      rw [phase]
      exact SessionPhase.noConfusion
  | succ count =>
      have searching : Searching stream caller p (stream.checkingAt caller stream.data.pdo) :=
        ⟨front, rest, stream.data.pdo, linked, starts, some_pdos, other, .inl rfl⟩
      obtain ⟨after, there, still⟩ := Transition.turns_forever
        (fun before => searching_goes_on (S := S) data older) count searching
      refine ⟨after, ?_, ?_⟩
      · rw [Transition.turns, turn_of_listing phase]
        exact there
      · intro result
        obtain ⟨_, _, _, -, -, -, -, rfl | rfl | ⟨-, rfl⟩⟩ := still <;>
          exact SessionPhase.noConfusion

end Stream

/-- Along PDOs that are published already, `init` finds a Data PDO with the
list committed last exactly when the first Data PDO from where it caught up has
this list; if not, it never returns. -/
theorem Stream.search_finds_iff {S : Setup} (stream : Stream) (caller : InitCaller)
    (chain : List Nat) (phase : stream.phase = .listing caller)
    (linked : Linked (Pdo.next stream.memory) (stream.data.pdo :: chain))
    (some_pdos : ∀ p ∈ stream.data.pdo :: chain, p ≠ 0)
    (later : ∃ p ∈ chain, isDataAt stream.memory p = true ∧
      Pdo.signalListId stream.memory p = stream.task.getSignalList.2) :
    ((∃ count after, count ≤ 2 * (chain.length + 1) ∧
        Transition.turns (turn S) count stream = some after ∧
        Found stream after (stream.data.pdo :: chain)) ↔
      ∀ p ∈ (stream.data.pdo :: chain).find? (isDataAt stream.memory),
        Pdo.signalListId stream.memory p = stream.task.getSignalList.2) ∧
    ((∃ p ∈ (stream.data.pdo :: chain).find? (isDataAt stream.memory),
        Pdo.signalListId stream.memory p ≠ stream.task.getSignalList.2) →
      ∀ count, ∃ after, Transition.turns (turn S) count stream = some after ∧
        ∀ result, after.phase ≠ .ready result) := by
  obtain ⟨p, first⟩ : ∃ p, (stream.data.pdo :: chain).find? (isDataAt stream.memory) =
      some p := by
    obtain ⟨p, member, data, -⟩ := later
    apply Option.isSome_iff_exists.mp
    exact List.find?_isSome.mpr ⟨p, List.mem_cons_of_mem _ member, data⟩
  obtain ⟨data, front, rest, split, before⟩ := List.find?_eq_some_iff_append.mp first
  have other : ∀ q ∈ front, isDataAt stream.memory q = false := by
    intro q member
    simpa using before q member
  have starts : (front ++ p :: rest).head? = some stream.data.pdo := by
    rw [← split]
    rfl
  have length : front.length ≤ chain.length := by
    have same := congrArg List.length split
    simp only [List.length_cons, List.length_append] at same
    omega
  rw [split] at linked some_pdos ⊢
  rw [← split, first]
  have forever : (∃ q ∈ some p, Pdo.signalListId stream.memory q ≠
      stream.task.getSignalList.2) → ∀ count, ∃ after,
        Transition.turns (turn S) count stream = some after ∧
          ∀ result, after.phase ≠ .ready result := by
    rintro ⟨q, same, older⟩
    cases same
    exact search_forever phase linked starts some_pdos other data older
  refine ⟨⟨?_, ?_⟩, forever⟩
  · rintro ⟨count, after, -, reached, ⟨result, ready⟩, -⟩ q same
    by_contra older
    obtain ⟨after', reached', never⟩ := forever ⟨q, same, older⟩ count
    rw [reached, Option.some.injEq] at reached'
    subst reached'
    exact never result ready
  · intro found
    obtain ⟨after, reached, finds⟩ :=
      search_finds phase linked starts some_pdos other data (found p rfl)
    refine ⟨_, after, ?_, reached, ?_⟩
    · omega
    · rw [split]
      exact finds

/-- A session catches up to the SignalList PDO of a turn of the real-time
process before the Data PDO is there. -/
def betweenPdos : List StreamAction :=
  [.task (.subscribe 0 2 true), .task (.rt_update none), .task .processSignalList,
    .task .calculateCopyList, .construct, .turn, .task (.copyData fun _ _ => 9)]

theorem Stream.search_finds_betweenPdos :
    ∃ count after, count ≤ 4 ∧
      Transition.turns (turn oneSignal) count (Stream.perform oneSignal 1 betweenPdos) =
        some after ∧
      Found (Stream.perform oneSignal 1 betweenPdos) after
        [oneSignal.txMemBegin, oneSignal.txMemBegin + 80] := by
  have finds := Stream.search_finds_iff (S := oneSignal)
    (Stream.perform oneSignal 1 betweenPdos) .constructor [oneSignal.txMemBegin + 80]
    (by rfl) ⟨by rfl, by rfl⟩ (by decide) ⟨oneSignal.txMemBegin + 80, by simp, by rfl, by rfl⟩
  apply finds.1.mpr
  intro p first
  have here : ([oneSignal.txMemBegin, oneSignal.txMemBegin + 80]).find?
      (isDataAt (Stream.perform oneSignal 1 betweenPdos).memory) =
        some (oneSignal.txMemBegin + 80) := by rfl
  obtain rfl := Option.some.inj (here.symm.trans first)
  rfl

/-- A session catches up to a Data PDO without signals, then another session
subscribes. -/
def olderList : List StreamAction :=
  [.task (.rt_update none), .task (.copyData fun _ _ => 9), .construct, .turn,
    .task (.subscribe 0 2 true), .task (.rt_update none), .task .processSignalList,
    .task .calculateCopyList, .task (.copyData fun _ _ => 9)]

theorem Stream.search_stays_at_olderList :
    ∃ stream caller chain, StreamRun oneSignal 1 Transition.anyStep stream ∧
      stream.phase = .listing caller ∧
      Linked (Pdo.next stream.memory) (stream.data.pdo :: chain) ∧
      (∃ p ∈ chain, isDataAt stream.memory p = true ∧
        Pdo.signalListId stream.memory p = stream.task.getSignalList.2) ∧
      ¬ ∃ count after, Transition.turns (turn oneSignal) count stream = some after ∧
        Found stream after (stream.data.pdo :: chain) := by
  have linked : Linked (Pdo.next (Stream.perform oneSignal 1 olderList).memory)
      [oneSignal.txMemBegin, oneSignal.txMemBegin + 72, oneSignal.txMemBegin + 152] :=
    ⟨by rfl, by rfl, by rfl⟩
  refine ⟨Stream.perform oneSignal 1 olderList, .constructor,
    [oneSignal.txMemBegin + 72, oneSignal.txMemBegin + 152],
    .of_perform (by rfl), by rfl, linked, ⟨oneSignal.txMemBegin + 152, by simp, by rfl, by rfl⟩,
    ?_⟩
  rintro ⟨count, after, reached, ⟨result, ready⟩, -⟩
  obtain ⟨after', reached', never⟩ := @search_forever oneSignal
    (Stream.perform oneSignal 1 olderList) .constructor [] _ _ (by rfl) linked rfl (by decide) (by simp) (by rfl) (by decide) count
  rw [reached, Option.some.injEq] at reached'
  subst reached'
  exact never result ready

end PdServ
