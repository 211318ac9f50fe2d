import Mathlib.Algebra.BigOperators.Fin
import PdServ.SdoLinearization

/-!
The locks and the pipes of the calls never block each other: while a call is under way
some thread or the real-time process can go on, and what is left to do gets less with
every step, so every call returns.
-/

namespace PdServ.Sdo

variable {App : Type} {n : Nat} {areas : SharedAreas} {callbacks : Callbacks App}

/-- The steps that go on with a call; none of them is a failure. -/
def Action.proceeds : Action App n → Bool
  | .call _ _ => false
  | .cycle _ => false
  | .failWrite _ => false
  | .failRead _ => false
  | _ => true

def Action.isCall : Action App n → Bool
  | .call _ _ => true
  | _ => false

/-- The steps a thread has before it, with those of the real-time process for a request that
is not written yet. -/
def Phase.work : Phase → Nat
  | .called => 8
  | .locked => 7
  | .entered => 6
  | .asked _ => 2
  | .left _ => 1

def Thread.work : Thread → Nat
  | none => 0
  | some (_, phase) => phase.work

@[simp] theorem Thread.work_none : Thread.work none = 0 := rfl

@[simp] theorem Thread.work_some (call : Call) (phase : Phase) :
    Thread.work (some (call, phase)) = phase.work := rfl

def Supervisor.work : Supervisor → Nat
  | .waiting => 0
  | .took _ => 2
  | .ran _ => 1

def State.work (s : State App n) : Nat :=
  (Finset.univ.sum fun t => (s.thread t).work) + 3 * s.requests.length + s.supervisor.work

variable {s after : State App n}

theorem sum_work_update (thread : Fin n → Thread) (t : Fin n) (next : Thread) :
    (Finset.univ.sum fun u => (Function.update thread t next u).work) + (thread t).work =
      (Finset.univ.sum fun u => (thread u).work) + next.work := by
  have before := Finset.add_sum_erase Finset.univ (fun u => (thread u).work) (Finset.mem_univ t)
  have behind := Finset.add_sum_erase Finset.univ
    (fun u => (Function.update thread t next u).work) (Finset.mem_univ t)
  have others : ((Finset.univ.erase t).sum fun u => (Function.update thread t next u).work) =
      (Finset.univ.erase t).sum fun u => (thread u).work := by
    apply Finset.sum_congr rfl
    intro u member
    rw [Function.update_of_ne (Finset.ne_of_mem_erase member)]
  simp only [Function.update_self] at behind
  omega

theorem State.put_work (s : State App n) (t : Fin n) (call : Call) (phase : Phase) :
    (s.put t call phase).work + (s.thread t).work = s.work + Thread.work (some (call, phase)) := by
  have update := sum_work_update s.thread t (some (call, phase))
  simp only [work, put]
  omega

/-- Only a new call makes work. -/
theorem State.step_work {action : Action App n} (done : s.step areas callbacks action = some after)
    (old : action.isCall = false) : after.work + action.proceeds.toNat ≤ s.work := by
  cases action with
  | call t call => cases old
  | lock t =>
      simp only [step] at done
      split at done
      · next change there =>
        split at done
        · cases done
          have put := s.put_work t (.request (.paramChange change)) .locked
          simp only [there, Thread.work_some, Phase.work] at put
          exact Nat.le_of_eq (by simp [Action.proceeds]; omega)
        · cases done
      · next p there =>
        split at done
        · cases done
          have put := s.put_work t (.getValue p) .locked
          simp only [there, Thread.work_some, Phase.work] at put
          exact Nat.le_of_eq (by simp [Action.proceeds]; omega)
        · cases done
      · next signal there =>
        cases done
        have put := s.put_work t (.request (.pollSignal signal)) .locked
        simp only [there, Thread.work_some, Phase.work] at put
        exact Nat.le_of_eq (by simp [Action.proceeds]; omega)
      · cases done
  | enter t =>
      simp only [step] at done
      split at done
      · next request there =>
        split at done
        · cases done
          have put := s.put_work t (.request request) .entered
          simp only [there, Thread.work_some, Phase.work] at put
          exact Nat.le_of_eq (by simp [Action.proceeds]; omega)
        · cases done
      · cases done
  | ask t =>
      simp only [step] at done
      split at done
      · next request there =>
        cases done
        have put := s.put_work t (.request request) (.asked (request.copy areas s.main).2)
        simp only [there, Thread.work_some, Phase.work, work, State.put] at put
        simp only [work, State.put, List.length_append, List.length_cons, List.length_nil,
          Action.proceeds, Bool.toNat_true]
        omega
      · cases done
  | failWrite t =>
      simp only [step] at done
      split at done
      · next request there =>
        cases done
        have put := s.put_work t (.request request) (.left request.broken)
        simp only [there, Thread.work_some, Phase.work, work, State.put] at put
        simp only [work, State.put, Action.proceeds, Bool.toNat_false]
        omega
      · cases done
  | finish t =>
      simp only [step] at done
      split at done
      · next request backup sdo rest there received =>
        obtain ⟨⟨result, main⟩, -, rfl⟩ := Option.map_eq_some_iff.mp done
        have put := s.put_work t (.request request) (.left result)
        simp only [there, Thread.work_some, Phase.work, work, State.put] at put
        simp only [work, State.put, Action.proceeds, Bool.toNat_true]
        omega
      · cases done
  | failRead t =>
      simp only [step] at done
      split at done
      · next request backup there =>
        cases done
        have put := s.put_work t (.request request) (.left request.broken)
        simp only [there, Thread.work_some, Phase.work, work, State.put] at put
        simp only [work, State.put, Action.proceeds, Bool.toNat_false]
        omega
      · cases done
  | copyValue t =>
      simp only [step] at done
      split at done
      · next p there =>
        cases done
        have put := s.put_work t (.getValue p)
          (.left (s.toObject.apply areas callbacks (.getValue p)).1)
        simp only [there, Thread.work_some, Phase.work] at put
        simp only [Action.proceeds, Bool.toNat_true]
        omega
      · cases done
  | «return» t =>
      simp only [step] at done
      split at done
      · next call result there =>
        cases done
        have update := sum_work_update s.thread t none
        simp only [there, Thread.work_some, Thread.work_none, Phase.work] at update
        simp only [work, Action.proceeds, Bool.toNat_true]
        omega
      · cases done
  | take =>
      simp only [step] at done
      split at done
      · next sdo rest waiting received =>
        cases done
        simp only [work, waiting, received, Supervisor.work, List.length_cons, Action.proceeds,
          Bool.toNat_true]
        omega
      · cases done
  | run =>
      simp only [step] at done
      split at done
      · next sdo took =>
        obtain ⟨⟨answer, object⟩, -, rfl⟩ := Option.map_eq_some_iff.mp done
        simp only [work, took, Supervisor.work, Action.proceeds, Bool.toNat_true]
        omega
      · cases done
  | answer =>
      simp only [step] at done
      split at done
      · next sdo ran =>
        cases done
        simp only [work, ran, Supervisor.work, Action.proceeds, Bool.toNat_true]
        omega
      · cases done
  | cycle app =>
      cases done
      simp [work, Action.proceeds]

/-! ### No deadlock -/

/-- While a call is under way and no pipe has failed, somebody can go on. -/
theorem Standing.goes_on {o : Object App} {pending : Fin n → Option (Call × Result)}
    (standing : Standing areas s o pending) (callbacks : Callbacks App)
    {t : Fin n} (active : s.thread t ≠ none) :
    ∃ action, action.proceeds = true ∧ (s.step areas callbacks action).isSome = true := by
  cases standing.stands with
  | entered u request there =>
      exact ⟨.ask u, rfl, by simp [State.step, there]⟩
  | asked u request backup there alone message answers app copied first =>
      obtain ⟨requests, supervisor⟩ | ⟨requests, supervisor⟩ := message
      · exact ⟨.take, rfl, by simp [State.step, requests, supervisor]⟩
      · have served := request.served areas callbacks o
        rw [copied] at served
        obtain ⟨answer, object, -, -, ran, -⟩ := served
        have here : s.toObject.run areas callbacks request.message = some (answer, object) := by
          rw [← ran, ← app]
        exact ⟨.run, rfl, by simp [State.step, supervisor, here]⟩
  | served u request backup answer result there alone requests message app length finish done =>
      obtain ⟨supervisor, -⟩ | ⟨supervisor, answers⟩ := message
      · exact ⟨.answer, rfl, by simp [State.step, supervisor]⟩
      · exact ⟨.finish u, rfl, by
          simp [State.step, there, answers, finish]⟩
  | free alone =>
      have free : s.sdoFree = true := by simpa [State.sdoFree] using alone
      -- who holds a lock goes on; without any, every call gets its first one
      by_cases holds : ∃ u call phase, s.thread u = some (call, phase) ∧ phase ≠ .called
      · obtain ⟨u, call, phase, there, locked⟩ := holds
        have outside := alone u
        rw [there] at outside
        cases phase with
        | called => exact absurd rfl locked
        | entered => cases outside
        | asked backup => cases outside
        | left result => exact ⟨.return u, rfl, by simp [State.step, there]⟩
        | locked =>
            cases call with
            | getValue p => exact ⟨.copyValue u, rfl, by simp [State.step, there]⟩
            | request request =>
                exact ⟨.enter u, rfl, by simp [State.step, there, free]⟩
      · have called (u : Fin n) (call : Call) (phase : Phase) (there : s.thread u = some (call, phase)) :
            phase = .called := by
          by_contra locked
          exact holds ⟨u, call, phase, there, locked⟩
        have unlocked (p : Nat) (u : Fin n) :
            (s.thread u).writes p = false ∧ (s.thread u).reads p = false := by
          cases there : s.thread u with
          | none => exact ⟨rfl, rfl⟩
          | some job =>
              obtain ⟨call, phase⟩ := job
              obtain rfl := called u call phase there
              cases call with
              | getValue q => simp [Thread.writes, Thread.reads]
              | request request => cases request <;> simp [Thread.writes, Thread.reads]
        obtain ⟨⟨call, phase⟩, there⟩ := Option.ne_none_iff_exists'.mp active
        obtain rfl := called t call phase there
        cases call with
        | getValue p =>
            have unwritten : s.unwritten p = true := by
              simpa [State.unwritten] using fun u => (unlocked p u).1
            exact ⟨.lock t, rfl, by simp [State.step, there, unwritten]⟩
        | request request =>
            cases request with
            | pollSignal signal => exact ⟨.lock t, rfl, by simp [State.step, there]⟩
            | paramChange change =>
                have free : s.unlocked change.mainParam = true := by
                  simpa [State.unlocked] using unlocked change.mainParam
                exact ⟨.lock t, rfl, by simp [State.step, there, free]⟩

/-- A step that goes on does not fail. -/
theorem ipc_error_of_proceeds {action : Action App n} (proceeds : action.proceeds = true)
    (done : s.step areas callbacks action = some after) : after.ipc_error = s.ipc_error := by
  cases action <;> grind [State.step, State.put, Option.map_eq_some_iff, Action.proceeds]

/-! ### Whole runs -/

variable {r next : SdoRun App n}

theorem inside_of_proceeds {action : Action App n} (proceeds : action.proceeds = true) :
    Inside areas r action := by
  cases action with
  | call t call => cases proceeds
  | _ => trivial

theorem SdoRun.step_work {action : Action App n} (done : r.step areas callbacks action = some next)
    (old : action.isCall = false) : next.state.work + action.proceeds.toNat ≤ r.state.work := by
  obtain ⟨after, went, rfl⟩ := Option.map_eq_some_iff.mp done
  exact State.step_work went old

theorem SdoRun.Holds.goes_on {first : Object App} (holds : r.Holds areas callbacks first)
    (fine : r.state.ipc_error = false) (active : ∃ t, r.state.thread t ≠ none) :
    ∃ action next, action.proceeds = true ∧ r.step areas callbacks action = some next ∧
      next.Holds areas callbacks first ∧ next.state.ipc_error = false ∧
      next.state.work < r.state.work := by
  obtain ⟨t, active⟩ := active
  obtain ⟨o, pending, standing, -⟩ := holds fine
  obtain ⟨action, proceeds, can⟩ := standing.goes_on callbacks active
  obtain ⟨after, went⟩ := Option.isSome_iff_exists.mp can
  obtain ⟨next, done, rfl⟩ : ∃ next : SdoRun App n,
      r.step areas callbacks action = some next ∧ next.state = after := by
    rw [SdoRun.step, went]
    exact ⟨_, rfl, rfl⟩
  have still := (ipc_error_of_proceeds proceeds went).trans fine
  have old : action.isCall = false := by
    cases action with
    | call t call => cases proceeds
    | _ => rfl
  have less := State.step_work went old
  rw [proceeds, Bool.toNat_true] at less
  exact ⟨action, next, proceeds, done, holds.step (inside_of_proceeds proceeds) done, still, less⟩

/-- Whatever the order of steps: while a call is under way and no pipe has failed, some party
can go on; without new calls there are no more such steps than `work`; and they can bring
every call to its return. -/
theorem SdoRun.calls_return (areas : SharedAreas) (callbacks : Callbacks App) (main : MainState)
    (app : App) (r : SdoRun App n)
    (run : Transition.Reaches (SdoRun.step areas callbacks) (Inside areas) (start main app) r)
    (fine : r.state.ipc_error = false) :
    ((∃ t, r.state.thread t ≠ none) →
      ∃ action, action.proceeds = true ∧ (r.step areas callbacks action).isSome = true) ∧
    (∀ actions next, (∀ action ∈ actions, action.isCall = false) →
      Transition.perform (SdoRun.step areas callbacks) (fun _ _ => true) actions r = some next →
      next.state.work + (actions.filter Action.proceeds).length ≤ r.state.work) ∧
    ∃ last, Transition.Reaches (SdoRun.step areas callbacks)
      (fun _ action => action.proceeds = true) r last ∧ ∀ t, last.state.thread t = none := by
  have holds := run.invariant (holds_start areas callbacks main app)
    fun before action after holds inside done => holds.step inside done
  refine ⟨?_, ?_, ?_⟩
  · intro active
    obtain ⟨action, next, proceeds, done, -⟩ := holds.goes_on fine active
    exact ⟨action, proceeds, Option.isSome_iff_exists.mpr ⟨next, done⟩⟩
  · intro actions next old done
    exact Transition.perform_bounded Action.proceeds (fun r => r.state.work)
      (fun state action next member done => SdoRun.step_work done (old action member)) done
  · have goes_on (before : SdoRun App n)
        (there : before.Holds areas callbacks ⟨main, app⟩ ∧ before.state.ipc_error = false)
        (busy : ¬ ∀ t, before.state.thread t = none) :
        ∃ action after, action.proceeds = true ∧ before.step areas callbacks action = some after ∧
          (after.Holds areas callbacks ⟨main, app⟩ ∧ after.state.ipc_error = false) ∧
          after.state.work < before.state.work := by
      obtain ⟨action, next, proceeds, done, kept, fine', less⟩ :=
        there.1.goes_on there.2 (not_forall.mp busy)
      exact ⟨action, next, proceeds, done, ⟨kept, fine'⟩, less⟩
    obtain ⟨last, path, -, rests⟩ := Transition.comes_to_rest
      (fun r : SdoRun App n => r.Holds areas callbacks ⟨main, app⟩ ∧ r.state.ipc_error = false)
      (fun r => ∀ t, r.state.thread t = none) (fun r => r.state.work) goes_on ⟨holds, fine⟩
    exact ⟨last, path, rests⟩

/-! Two threads that write the same parameter. -/

def contendedSteps : List (Action Nat 2) :=
  [.call firstThread (.request (.paramChange ⟨0, 0, [1]⟩)), .lock firstThread,
    .call secondThread (.request (.paramChange ⟨0, 0, [2]⟩)), .enter firstThread,
    .ask firstThread, .take]

def contended : SdoRun Nat 2 :=
  (Transition.perform (SdoRun.step sampleAreas sampleCallbacks) sampleAllowed contendedSteps
    sampleStart).getD sampleStart

theorem SdoRun.calls_return_contended :
    contended.state.work = 12 ∧ ∃ last, Transition.Reaches
      (SdoRun.step sampleAreas sampleCallbacks) (fun _ action => action.proceeds = true)
      contended last ∧ ∀ t, last.state.thread t = none := by
  have done : Transition.perform (SdoRun.step sampleAreas sampleCallbacks) sampleAllowed
      contendedSteps sampleStart = some contended := rfl
  have run : Transition.Reaches (SdoRun.step sampleAreas sampleCallbacks) (Inside sampleAreas)
      sampleStart contended := .perform sampleAllowed_sound .start done
  obtain ⟨-, -, returns⟩ := SdoRun.calls_return sampleAreas sampleCallbacks
    ⟨fun _ => 7, fun _ => (0, 0)⟩ 4 contended run rfl
  exact ⟨rfl, returns⟩

end PdServ.Sdo
