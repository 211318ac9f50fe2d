import Mathlib.Data.List.Nodup
import PdServ.ParameterTree
import PdServ.PushHistory
import PdServ.Transition

/-!
How a session tells its client about changed parameters: `setAIC`, `parameterChanged` and
the part of the loop in `Session::run` that writes `<pu>`, with the delay for asynchronous
input channels. Any thread calls the first two while the session holds no lock, so also
while it writes.
-/

namespace PdServ

structure PushSession extends Session where
  aic : List Nat
  aicDelay : Nat
deriving DecidableEq, Repr

namespace PushSession

variable (mainParam : Nat → Nat)

def new : PushSession := { polite := false, changedParameter := [], aic := [], aicDelay := 0 }

def parameterChanged (session : PushSession) (p : Nat) : PushSession :=
  { session with toSession := session.toSession.parameterChanged p }

def setAIC (session : PushSession) (p : Nat) : PushSession :=
  { session with
    aic := if session.polite then session.aic else session.aic.insert (mainParam p)
    aicDelay := if session.aicDelay = 0 then 5 else session.aicDelay }

/-- `polite = parser->isTrue("polite")` in `remoteHost`, and what follows. -/
def remoteHost (session : PushSession) (polite : Bool) : PushSession :=
  if polite then { session with polite := true, changedParameter := [], aic := [] }
  else { session with polite := false }

/-- What the client hears of now. -/
def due (session : PushSession) (p : Nat) : Bool :=
  session.aicDelay = 0 || mainParam p ∉ session.aic

/-- The block under the mutex: `cp`, and the session behind it. -/
def collect (session : PushSession) : List Nat × PushSession :=
  -- `if (aicDelay) --aicDelay;`
  let session := { session with aicDelay := session.aicDelay - 1 }
  (session.changedParameter.filter (session.due mainParam),
    { session with
      changedParameter := session.changedParameter.filter fun p => !session.due mainParam p })

/-- A session, the `cp` of a cycle that writes, and what happened so far. -/
structure State where
  session : PushSession
  cp : Option (List Nat)
  history : List (PushHistory.Event Nat Nat)

inductive Action where
  | parameterChanged (p : Nat)
  | setAIC (p : Nat)
  | remoteHost (polite : Bool)
  | collect
  | write (p : Nat)
  | finish

/-- The order in which `cp` is written depends on addresses; any order is possible. -/
def step (s : State) : Action → Option State
  | .parameterChanged p =>
      some { s with session := s.session.parameterChanged p, history := .changed p :: s.history }
  | .setAIC p =>
      some { s with
        session := s.session.setAIC mainParam p
        history := .announced (mainParam p) :: s.history }
  | .remoteHost polite =>
      match s.cp with
      | none => some { s with session := s.session.remoteHost polite }
      | some _ => none
  | .collect =>
      match s.cp with
      | none =>
          let (cp, session) := s.session.collect mainParam
          some ⟨session, some cp, .took cp :: s.history⟩
      | some _ => none
  | .write p =>
      match s.cp with
      | some cp =>
          if p ∈ cp then some { s with cp := some (cp.erase p), history := .sent p :: s.history }
          else none
      | none => none
  | .finish =>
      match s.cp with
      | some [] => some { s with cp := none, history := .ended :: s.history }
      | _ => none

def start : State := ⟨new, none, []⟩

/-- The session never becomes polite. -/
def Allowed (_ : State) (action : Action) : Prop := action ≠ .remoteHost true

/-! ### Who waits -/

open PushHistory

/-- `cp`, also between the cycles. -/
def State.writes (s : State) : List Nat := s.cp.getD []

structure Waits (s : State) : Prop where
  polite : s.session.polite = false
  changed : ∀ p, p ∈ s.session.changedParameter ↔ waiting p s.history = true
  nodup : s.session.changedParameter.Nodup
  once : s.writes.Nodup

variable {mainParam} {s after : State}

theorem parameterChanged_of_not_polite {session : PushSession} (impolite : session.polite = false)
    (p : Nat) : session.parameterChanged p =
      { session with changedParameter := session.changedParameter.insert p } := by
  simp [parameterChanged, Session.parameterChanged, impolite]

/-- All a step can do, while the session does not become polite. -/
inductive Steps (mainParam : Nat → Nat) (s : State) : State → Prop
  | parameterChanged (p : Nat) :
      Steps mainParam s ⟨{ s.session with
        changedParameter := s.session.changedParameter.insert p }, s.cp, .changed p :: s.history⟩
  | setAIC (p : Nat) :
      Steps mainParam s ⟨{ s.session with
        aic := s.session.aic.insert (mainParam p)
        aicDelay := if s.session.aicDelay = 0 then 5 else s.session.aicDelay },
        s.cp, .announced (mainParam p) :: s.history⟩
  | stay : Steps mainParam s s
  | collect (idle : s.cp = none) :
      Steps mainParam s ⟨(s.session.collect mainParam).2, some (s.session.collect mainParam).1,
        .took (s.session.collect mainParam).1 :: s.history⟩
  | write (p : Nat) (member : p ∈ s.writes) :
      Steps mainParam s ⟨s.session, some (s.writes.erase p), .sent p :: s.history⟩
  | finish (written : s.writes = []) : Steps mainParam s ⟨s.session, none, .ended :: s.history⟩

theorem steps_of_step (impolite : s.session.polite = false) {action : Action}
    (allowed : Allowed s action) (done : step mainParam s action = some after) :
    Steps mainParam s after := by
  cases action with
  | parameterChanged p =>
      cases done
      rw [parameterChanged_of_not_polite impolite]
      exact .parameterChanged p
  | setAIC p =>
      cases done
      simp only [PushSession.setAIC, impolite, Bool.false_eq_true, ↓reduceIte]
      exact .setAIC p
  | remoteHost polite =>
      simp only [step] at done
      split at done
      · cases polite with
        | true => exact absurd rfl allowed
        | false =>
            cases done
            -- what the client does not ask for changes nothing
            have same : s.session.remoteHost false = s.session := by
              simp [remoteHost, ← impolite]
            rw [same]
            exact .stay
      · cases done
  | collect =>
      simp only [step] at done
      split at done
      · next idle =>
        cases done
        exact .collect idle
      · cases done
  | write p =>
      simp only [step] at done
      split at done
      · next cp writing =>
        have writes : s.writes = cp := by rw [State.writes, writing, Option.getD_some]
        split at done
        · next member =>
          cases done
          rw [← writes] at member ⊢
          exact .write p member
        · cases done
      · cases done
  | finish =>
      simp only [step] at done
      split at done
      · next written =>
        cases done
        exact .finish (by rw [State.writes, written, Option.getD_some])
      · cases done

theorem mem_taken {session : PushSession} {p : Nat} :
    p ∈ (session.collect mainParam).1 ↔ p ∈ session.changedParameter ∧
      (session.aicDelay - 1 = 0 ∨ mainParam p ∉ session.aic) := by
  simp [collect, due]

theorem mem_left {session : PushSession} {p : Nat} :
    p ∈ (session.collect mainParam).2.changedParameter ↔ p ∈ session.changedParameter ∧
      session.aicDelay - 1 ≠ 0 ∧ mainParam p ∈ session.aic := by
  simp [collect, due]

theorem left_iff {session : PushSession} {p : Nat} :
    p ∈ (session.collect mainParam).2.changedParameter ↔
      p ∉ (session.collect mainParam).1 ∧ p ∈ session.changedParameter := by
  rw [mem_left, mem_taken]
  tauto

theorem Waits.steps (waits : Waits s) (steps : Steps mainParam s after) : Waits after := by
  cases steps with
  | parameterChanged p =>
      refine ⟨waits.polite, ?_, List.Nodup.insert waits.nodup, waits.once⟩
      intro other
      simp only [waiting, List.mem_insert_iff, waits.changed, Bool.or_eq_true, decide_eq_true_eq]
      exact or_congr eq_comm Iff.rfl
  | setAIC p => exact ⟨waits.polite, waits.changed, waits.nodup, waits.once⟩
  | stay => exact waits
  | collect idle =>
      refine ⟨waits.polite, ?_, waits.nodup.filter _, waits.nodup.filter _⟩
      intro other
      rw [left_iff, waits.changed]
      simp [waiting]
  | write p member => exact ⟨waits.polite, waits.changed, waits.nodup, waits.once.erase p⟩
  | finish written => exact ⟨waits.polite, waits.changed, waits.nodup, List.nodup_nil⟩

/-! ### Nothing is lost, nothing is sent without a change -/

/-- Each key that was changed was sent since, or waits, or is about to be sent. -/
def Passes (s : State) : Prop :=
  ∀ p, .changed p ∈ s.history → .sent p ∈ sinceChange p s.history ∨
    p ∈ s.session.changedParameter ∨ p ∈ s.writes

theorem Passes.steps (passes : Passes s) (steps : Steps mainParam s after) : Passes after := by
  intro p happened
  cases steps with
  | parameterChanged q =>
      by_cases same : q = p
      · exact .inr (.inl (List.mem_insert_iff.mpr (.inl same.symm)))
      · -- a change of another key hides nothing
        have apart : (Event.changed q : Event Nat Nat) ≠ .changed p := by simp [same]
        have before := passes p ((List.mem_cons.mp happened).resolve_left apart.symm)
        rcases before with sent | waits | writes
        · exact .inl (mem_sinceChange_cons apart sent)
        · exact .inr (.inl (List.mem_insert_iff.mpr (.inr waits)))
        · exact .inr (.inr writes)
  | setAIC q =>
      have before := passes p (by simpa using happened)
      exact before.imp_left (mem_sinceChange_cons (by simp))
  | stay => exact passes p happened
  | collect idle =>
      have before := passes p (by simpa using happened)
      rcases before with sent | waits | writes
      · exact .inl (mem_sinceChange_cons (by simp) sent)
      · -- what the round takes is written next, the rest still waits
        by_cases taken : p ∈ (s.session.collect mainParam).1
        · exact .inr (.inr taken)
        · exact .inr (.inl (left_iff.mpr ⟨taken, waits⟩))
      · -- a round begins with nothing left to write
        rw [State.writes, idle] at writes
        cases writes
  | write q member =>
      have before := passes p (by simpa using happened)
      rcases before with sent | waits | writes
      · exact .inl (mem_sinceChange_cons (by simp) sent)
      · exact .inr (.inl waits)
      · by_cases same : p = q
        · subst same
          exact .inl (by simp [sinceChange])
        · exact .inr (.inr ((List.mem_erase_of_ne same).mpr writes))
  | finish written =>
      have before := passes p (by simpa using happened)
      rw [written] at before
      rcases before with sent | waits | writes
      · exact .inl (mem_sinceChange_cons (by simp) sent)
      · exact .inr (.inl waits)
      · cases writes

/-- A key that is about to be sent, or waits, was changed since the round that sent it last
took its keys; one that waits besides was changed since it was taken. -/
structure Owes (s : State) : Prop where
  owed : ∀ p, p ∈ s.writes ∨ waiting p s.history = true → .changed p ∈ sinceTaken p s.history
  again : ∀ p ∈ s.writes, waiting p s.history = true → .changed p ∈ thisRound s.history
  justified : Justified s.history

theorem Owes.steps (owes : Owes s) (waits : Waits s) (steps : Steps mainParam s after) :
    Owes after := by
  cases steps with
  | parameterChanged q =>
      refine ⟨?_, ?_, owes.justified.cons (by simp)⟩
      · intro p due
        by_cases same : q = p
        · subst same
          exact List.mem_cons_self
        · apply mem_sinceTaken_cons (by simp)
          exact owes.owed p (due.imp_right fun waits => by simpa [waiting, same] using waits)
      · intro p writes due
        by_cases same : q = p
        · subst same
          simp [isTook]
        · have earlier := owes.again p writes (by simpa [waiting, same] using due)
          simp [isTook, earlier]
  | setAIC q =>
      refine ⟨?_, ?_, owes.justified.cons (by simp)⟩
      · intro p due
        exact mem_sinceTaken_cons (by simp) (owes.owed p due)
      · intro p writes due
        simp [isTook, owes.again p writes due]
  | stay => exact owes
  | collect idle =>
      refine ⟨?_, ?_, owes.justified.cons (by simp)⟩
      · intro p due
        apply mem_sinceTaken_cons (by simp)
        apply owes.owed p
        rcases due with taken | left
        · exact .inr ((waits.changed p).mp (mem_taken.mp taken).1)
        · simp only [waiting, Bool.and_eq_true] at left
          exact .inr left.2
      · intro p taken left
        -- what is taken does not wait any more
        simp only [State.writes, Option.getD_some] at taken
        simp [waiting, taken] at left
  | write q member =>
      refine ⟨?_, ?_, owes.justified.cons ?_⟩
      · intro p due
        by_cases same : q = p
        · subst same
          -- it is written once, so it can only wait for a change of this round
          have left : q ∉ s.writes.erase q := waits.once.not_mem_erase
          have waited := due.resolve_left left
          rw [sinceTaken, if_pos rfl]
          exact List.mem_cons_of_mem _ (owes.again q member waited)
        · apply mem_sinceTaken_cons (by simp [same])
          exact owes.owed p (due.imp_left fun writes => List.mem_of_mem_erase writes)
      · intro p writes due
        simp [isTook, owes.again p (List.mem_of_mem_erase writes) due]
      · intro p same
        cases same
        exact owes.owed q (.inl member)
  | finish written =>
      refine ⟨?_, ?_, owes.justified.cons (by simp)⟩
      · intro p due
        exact mem_sinceTaken_cons (by simp) (owes.owed p (due.imp_left fun writes => by cases writes))
      · intro p writes
        cases writes

/-! ### The delay -/

/-- However often the delay is started again, the rounds that have left a key behind and
those that may still do so are no more than five, and the fifth takes it. -/
structure Paced (mainParam : Nat → Nat) (s : State) : Prop where
  aic : ∀ m, m ∈ s.session.aic ↔ .announced m ∈ s.history
  delay : s.session.aicDelay ≤ 5
  age : ∀ p, 0 < rounds p s.history →
    0 < s.session.aicDelay ∧ rounds p s.history + s.session.aicDelay ≤ 5
  left : ∀ p, 0 < rounds p s.history → mainParam p ∈ s.session.aic

theorem rounds_took {p : Nat} {keys : List Nat} {history : List (Event Nat Nat)}
    (some : 0 < rounds p (.took keys :: history)) :
    p ∉ keys ∧ waiting p history = true ∧
      rounds p (.took keys :: history) = rounds p history + 1 := by
  simp only [rounds] at some ⊢
  by_cases taken : p ∈ keys
  · simp [taken] at some
  · by_cases waits : waiting p history = true
    · simp [taken, waits]
    · simp [taken, waits] at some

theorem Paced.steps (paced : Paced mainParam s) (waits : Waits s)
    (steps : Steps mainParam s after) : Paced mainParam after := by
  have delay := paced.delay
  cases steps with
  | parameterChanged q => exact ⟨by simpa using paced.aic, delay, paced.age, paced.left⟩
  | setAIC q =>
      refine ⟨?_, ?_, ?_, ?_⟩
      · intro m
        simp [paced.aic]
      · dsimp only
        split <;> omega
      · intro p some
        obtain ⟨running, age⟩ := paced.age p some
        dsimp only
        -- the delay is not started again while a key is left behind
        rw [if_neg (by omega)]
        exact ⟨running, age⟩
      · intro p some
        exact List.mem_insert_iff.mpr (.inr (paced.left p some))
  | stay => exact paced
  | collect idle =>
      refine ⟨by simpa [collect] using paced.aic, ?_, ?_, ?_⟩
      · simp only [collect]
        omega
      · intro p some
        obtain ⟨stays, waited, more⟩ := rounds_took some
        have left := mem_left.mp (left_iff.mpr ⟨stays, (waits.changed p).mpr waited⟩)
        have delayed : (s.session.collect mainParam).2.aicDelay = s.session.aicDelay - 1 := rfl
        dsimp only
        rw [more, delayed]
        rcases Nat.eq_zero_or_pos (rounds p s.history) with none | old
        · omega
        · have age := paced.age p old
          omega
      · intro p some
        obtain ⟨stays, waited, -⟩ := rounds_took some
        exact (mem_left.mp (left_iff.mpr ⟨stays, (waits.changed p).mpr waited⟩)).2.2
  | write q member => exact ⟨by simpa using paced.aic, delay, paced.age, paced.left⟩
  | finish written => exact ⟨by simpa using paced.aic, delay, paced.age, paced.left⟩

/-! ### Every run -/

/-- What the client of a session can rely on at the end of a cycle. -/
structure Pushes (mainParam : Nat → Nat) (s : State) : Prop where
  kept : ∀ p, .changed p ∈ s.history →
    .sent p ∈ sinceChange p s.history ∨ p ∈ s.session.changedParameter
  announced : ∀ p ∈ s.session.changedParameter,
    .announced (mainParam p) ∈ s.history ∨ .changed p ∈ thisRound s.history
  soon : ∀ p ∈ s.session.changedParameter, rounds p s.history ≤ 4

structure Runs (mainParam : Nat → Nat) (s : State) : Prop where
  waits : Waits s
  passes : Passes s
  owes : Owes s
  paced : Paced mainParam s

theorem Runs.start : Runs mainParam start where
  waits := ⟨rfl, by simp [PushSession.start, new, waiting], List.nodup_nil, List.nodup_nil⟩
  passes := by simp [Passes, PushSession.start]
  owes := ⟨by simp [PushSession.start, State.writes, waiting], by simp [PushSession.start, State.writes],
    Justified.nil⟩
  paced := ⟨by simp [PushSession.start, new], by simp [PushSession.start, new],
    by simp [PushSession.start, rounds], by simp [PushSession.start, rounds]⟩

theorem Runs.step {action : Action} (runs : Runs mainParam s) (allowed : Allowed s action)
    (done : step mainParam s action = some after) : Runs mainParam after := by
  have steps := steps_of_step runs.waits.polite allowed done
  exact ⟨runs.waits.steps steps, runs.passes.steps steps, runs.owes.steps runs.waits steps,
    runs.paced.steps runs.waits steps⟩

theorem Runs.pushes (runs : Runs mainParam s) (idle : s.cp = none) : Pushes mainParam s where
  kept := by
    intro p changed
    have nothing : s.writes = [] := by rw [State.writes, idle, Option.getD_none]
    have passes := runs.passes p changed
    rw [nothing] at passes
    exact passes.imp_right fun still => still.resolve_right List.not_mem_nil
  announced := by
    intro p waits
    have cases := waiting_cases ((runs.waits.changed p).mp waits)
    exact cases.imp_left fun old => (runs.paced.aic _).mp (runs.paced.left p old)
  soon := by
    intro p waits
    by_contra many
    have age := runs.paced.age p (by omega)
    omega

/-- Between the cycles nothing is lost and nothing waits for long, and at any time a `<pu>`
stands for a change that the one before did not cover. -/
theorem pushes_always (mainParam : Nat → Nat) {s : State}
    (run : Transition.Reaches (step mainParam) Allowed start s) :
    (s.cp = none → Pushes mainParam s) ∧ Justified s.history := by
  have runs : Runs mainParam s := run.invariant Runs.start
    fun _ _ _ runs allowed done => runs.step allowed done
  exact ⟨runs.pushes, runs.owes.justified⟩

/-- Parameter 3 is announced and changes. -/
def delayedHistory : List (Event Nat Nat) :=
  [.ended, .took [], .changed 3, .announced 3]

def delayed : State :=
  ⟨{ polite := false, changedParameter := [3], aic := [3], aicDelay := 4 }, none, delayedHistory⟩

theorem delayed_run : Transition.Reaches (step id) Allowed start delayed :=
  .step .finish
    (.step .collect
      (.step (.parameterChanged 3)
        (.step (.setAIC 3) .start nofun rfl) nofun rfl) nofun rfl) nofun rfl

/-- The fourth cycle after the first one tells the client. -/
def pushed : State :=
  ⟨{ polite := false, changedParameter := [], aic := [3], aicDelay := 0 }, none,
    [.ended, .sent 3, .took [3], .ended, .took [], .ended, .took [], .ended, .took []] ++
      delayedHistory⟩

/-- The first cycle leaves the parameter behind. -/
theorem pushes_always_cycle :
    Pushes id delayed ∧ Pushes id pushed ∧ Justified pushed.history := by
  have waits {s after : State} (run : Transition.Reaches (step id) Allowed start s)
      (done : ((step id s .collect).bind fun s => step id s .finish) = some after) :
      Transition.Reaches (step id) Allowed start after := by
    obtain ⟨middle, collected, finished⟩ := Option.bind_eq_some_iff.mp done
    exact .step .finish (.step .collect run nofun collected) nofun finished
  have waited := waits (waits (waits delayed_run rfl) rfl) rfl
  have both := pushes_always id
    (.step .finish (.step (.write 3) (.step .collect waited nofun rfl) nofun rfl) nofun rfl)
  exact ⟨(pushes_always id delayed_run).1 rfl, both.1 rfl, both.2⟩

/-- A change that falls between the mutex and the `<pu>` is announced by two of them, and
waits at the end of the cycle although its main parameter was never announced. -/
theorem change_while_writing :
    (¬ ∀ s, Transition.Reaches (step id) Allowed start s → ∀ newer older p,
      s.history = newer ++ .sent p :: older → .changed p ∈ sinceSent p older) ∧
    ¬ ∀ s, Transition.Reaches (step id) Allowed start s → (∃ older, s.history = .ended :: older) →
      ∀ p ∈ s.session.changedParameter, .announced p ∈ s.history := by
  have written : Transition.Reaches (step id) Allowed start
      ⟨{ polite := false, changedParameter := [3], aic := [], aicDelay := 0 }, none,
        [.ended, .sent 3, .changed 3, .took [3], .changed 3]⟩ :=
    .step .finish
      (.step (.write 3)
        (.step (.parameterChanged 3)
          (.step .collect
            (.step (.parameterChanged 3) .start nofun rfl) nofun rfl) nofun rfl) nofun rfl) nofun rfl
  constructor
  · intro always
    have twice := always _ (.step (.write 3) (.step .collect written nofun rfl) nofun rfl)
      [] [.took [3], .ended, .sent 3, .changed 3, .took [3], .changed 3] 3 rfl
    revert twice
    decide
  · intro always
    have announced := always _ written ⟨_, rfl⟩ 3 (by decide)
    revert announced
    decide

end PushSession
end PdServ
