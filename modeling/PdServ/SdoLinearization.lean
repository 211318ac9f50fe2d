import PdServ.SdoExchange

/-!
Calls of the server's threads take effect one after the other as long as no pipe fails: a
request where the real-time process runs it, the reading of a parameter where it copies.
No thread reads a value that the real-time process has not accepted.
-/

namespace PdServ.Sdo

open Linearization

variable {App : Type} {n : Nat} (areas : SharedAreas) (callbacks : Callbacks App)

/-! ### Runs with their effects -/

/-- The thread between lock and unlock of `sdoMutex`. -/
def State.holder (s : State App n) : Option (Fin n) :=
  (List.finRange n).find? fun t => (s.thread t).exclusive

/-- The effect of a step, if it has one. -/
def State.effect (s : State App n) : Action App n → Option (Effect (Fin n) Call Result)
  | .copyValue t =>
      match s.thread t with
      | some (.getValue p, .locked) =>
          some ⟨t, .getValue p, (s.toObject.apply areas callbacks (.getValue p)).1⟩
      | _ => none
  | .run =>
      s.holder.bind fun t =>
        match s.thread t, s.supervisor with
        | some (.request request, .asked backup), .took sdo =>
            (s.toObject.run areas callbacks sdo).bind fun (answer, object) =>
              (request.finish areas object.main backup answer).map fun (result, _) =>
                ⟨t, .request request, result⟩
        | _, _ => none
  | _ => none

/-- What a step reports to the caller of a thread. -/
def State.report (s : State App n) : Action App n → Option (Fin n × Call × Result)
  | .return t =>
      match s.thread t with
      | some (call, .left result) => some (t, call, result)
      | _ => none
  | _ => none

/-- A state with the effects so far, and what the callers got. -/
structure SdoRun (App : Type) (n : Nat) where
  state : State App n
  log : List (Effect (Fin n) Call Result)
  returned : Fin n → List (Call × Result)

def SdoRun.step (r : SdoRun App n) (action : Action App n) : Option (SdoRun App n) :=
  (r.state.step areas callbacks action).map fun after =>
    { state := after
      log := r.log ++ (r.state.effect areas callbacks action).toList
      returned :=
        match r.state.report action with
        | some (t, done) => Function.update r.returned t (r.returned t ++ [done])
        | none => r.returned }

def SdoRun.start (main : MainState) (app : App) : SdoRun App n where
  state :=
    { main := main, app := app, thread := fun _ => none, requests := [], answers := []
      supervisor := .waiting, ipc_error := false }
  log := []
  returned := fun _ => []

/-- A parameter is only written inside its own area. -/
def Inside (_ : SdoRun App n) : Action App n → Prop
  | .call _ (.request (.paramChange call)) =>
      call.offset + call.buf.length ≤ areas.memSize call.mainParam
  | _ => True

/-! ### A request on its own -/

variable {areas callbacks}

/-- The parts of a request, one after the other, are the request as a whole. -/
theorem Request.served (areas : SharedAreas) (callbacks : Callbacks App) (request : Request)
    (o : Object App) :
    let (main, backup) := request.copy areas o.main
    ∃ answer object result after,
      Object.run areas callbacks { o with main := main } request.message = some (answer, object) ∧
        request.finish areas object.main backup answer = some (result, after) ∧
        o.apply areas callbacks (.request request) = (result, { object with main := after }) := by
  cases request with
  | pollSignal signal => exact ⟨_, _, _, _, rfl, rfl, rfl⟩
  | paramChange call =>
      rcases took : callbacks.write_cb o.app call.mainParam
        ((o.main.shmem.write (areas.shmAddr call.mainParam + call.offset) call.buf).read
          (areas.shmAddr call.mainParam + call.offset % 2 ^ 32) (call.buf.length % 2 ^ 32))
        with ⟨⟨rv, time⟩, app⟩
      let main := (copy areas o.main (.paramChange call)).1
      let backup := (copy areas o.main (.paramChange call)).2
      have ran : Object.run areas callbacks { o with main := main } (message (.paramChange call)) =
          some (.paramChangeAck rv time, { main := main, app := app }) := by
        simp only [Object.run, message, main, copy, took]
      by_cases accepted : rv = 0
      · refine ⟨_, _, .set rv,
          { main with mtime := Function.update main.mtime call.mainParam time }, ran, ?_, ?_⟩
        · rw [finish, if_pos accepted]
        · simp only [Object.apply, MainState.exchange, MainState.run, took, MainState.setValue,
            accepted, main, copy]
          simp
      · refine ⟨_, _, .set rv,
          { main with
            shmem := main.shmem.write (areas.shmAddr call.mainParam + call.offset) backup },
          ran, ?_, ?_⟩
        · rw [finish, if_neg accepted]
          rfl
        · simp only [Object.apply, MainState.exchange, MainState.run, took, MainState.setValue,
            accepted, main, copy, backup]
          simp

/-! ### The locks -/

/-- The call that has its result, before the return. -/
def Thread.result : Thread → Option (Call × Result)
  | some (call, .left result) => some (call, result)
  | _ => none

/-- Who writes a parameter is alone with it. -/
def Locks (thread : Fin n → Thread) : Prop :=
  ∀ p t u, (thread t).writes p = true →
    (thread u).writes p = true ∨ (thread u).reads p = true → u = t

/-- A thread that keeps or drops its locks. -/
theorem Locks.drop {thread : Fin n → Thread} (locks : Locks thread) {t : Fin n} {next : Thread}
    (writes : ∀ p, next.writes p = true → (thread t).writes p = true)
    (reads : ∀ p, next.reads p = true → (thread t).reads p = true) :
    Locks (Function.update thread t next) := by
  have weaker (u : Fin n) (p : Nat) :
      ((Function.update thread t next u).writes p = true → (thread u).writes p = true) ∧
        ((Function.update thread t next u).reads p = true → (thread u).reads p = true) := by
    by_cases same : u = t
    · subst same
      simpa using ⟨writes p, reads p⟩
    · simp [same]
  intro p u v write other
  exact locks p u v ((weaker u p).1 write) (other.imp (weaker v p).1 (weaker v p).2)

theorem Locks.write {thread : Fin n → Thread} (locks : Locks thread) {call : Parameter.Call}
    (t : Fin n) (free : ∀ u, (thread u).writes call.mainParam = false ∧
      (thread u).reads call.mainParam = false) :
    Locks (Function.update thread t (some (.request (.paramChange call), .locked))) := by
  intro p u v write other
  by_cases here : u = t
  · subst here
    simp only [Function.update_self, Thread.writes, decide_eq_true_eq] at write
    obtain ⟨rfl, -⟩ := write
    by_contra apart
    simp [apart, free v] at other
  · simp only [Function.update_of_ne here] at write
    by_cases there : v = t
    · subst there
      simp only [Function.update_self, Thread.writes, Thread.reads, decide_eq_true_eq,
        Bool.false_eq_true, or_false] at other
      obtain ⟨rfl, -⟩ := other
      rw [(free u).1] at write
      cases write
    · simp only [Function.update_of_ne there] at other
      exact locks p u v write other

theorem Locks.read {thread : Fin n → Thread} (locks : Locks thread) {q : Nat}
    (t : Fin n) (free : ∀ u, (thread u).writes q = false) :
    Locks (Function.update thread t (some (.getValue q, .locked))) := by
  intro p u v write other
  by_cases here : u = t
  · subst here
    simp [Thread.writes] at write
  · simp only [Function.update_of_ne here] at write
    by_cases there : v = t
    · subst there
      simp only [Function.update_self, Thread.writes, Thread.reads, decide_eq_true_eq,
        Bool.false_eq_true, false_or] at other
      obtain ⟨rfl, -⟩ := other
      rw [free u] at write
      cases write
    · simp only [Function.update_of_ne there] at other
      exact locks p u v write other

/-! ### Where the request stands -/

/-- How the state and the object of the effects so far belong together. -/
inductive Stands (areas : SharedAreas) (s : State App n) (o : Object App)
    (pending : Fin n → Option (Call × Result)) : Prop
  | free (alone : ∀ u, (s.thread u).exclusive = false) (requests : s.requests = [])
      (answers : s.answers = []) (supervisor : s.supervisor = .waiting) (same : s.toObject = o)
  | entered (t : Fin n) (request : Request) (there : s.thread t = some (.request request, .entered))
      (alone : ∀ u, (s.thread u).exclusive = true → u = t) (requests : s.requests = [])
      (answers : s.answers = []) (supervisor : s.supervisor = .waiting) (same : s.toObject = o)
      (first : pending t = none)
  | asked (t : Fin n) (request : Request) (backup : List Byte)
      (there : s.thread t = some (.request request, .asked backup))
      (alone : ∀ u, (s.thread u).exclusive = true → u = t)
      (message : s.requests = [request.message] ∧ s.supervisor = .waiting ∨
        s.requests = [] ∧ s.supervisor = .took request.message)
      (answers : s.answers = []) (app : s.app = o.app)
      (copied : request.copy areas o.main = (s.main, backup)) (first : pending t = none)
  | served (t : Fin n) (request : Request) (backup : List Byte) (answer : Sdo) (result : Result)
      (there : s.thread t = some (.request request, .asked backup))
      (alone : ∀ u, (s.thread u).exclusive = true → u = t) (requests : s.requests = [])
      (message : s.supervisor = .ran answer ∧ s.answers = [] ∨
        s.supervisor = .waiting ∧ s.answers = [answer])
      (app : s.app = o.app) (length : ∀ call, request = .paramChange call →
        backup.length = call.buf.length)
      (finish : request.finish areas s.main backup answer = some (result, o.main))
      (done : pending t = some (.request request, result))

structure Standing (areas : SharedAreas) (s : State App n) (o : Object App)
    (pending : Fin n → Option (Call × Result)) : Prop where
  stands : Stands areas s o pending
  locks : Locks s.thread
  left : ∀ t, (s.thread t).exclusive = false → pending t = (s.thread t).result
  inside : ∀ t call phase, s.thread t = some (.request (.paramChange call), phase) →
    call.offset + call.buf.length ≤ areas.memSize call.mainParam

variable {s after : State App n} {o : Object App} {pending : Fin n → Option (Call × Result)}

theorem alone_update {thread : Fin n → Thread} {holder t : Fin n} {next : Thread}
    (alone : ∀ u, (thread u).exclusive = true → u = holder) (outside : next.exclusive = false) :
    ∀ u, (Function.update thread t next u).exclusive = true → u = holder := by
  intro u exclusive
  by_cases here : u = t
  · subst here
    simp [outside] at exclusive
  · exact alone u (by simpa [here] using exclusive)

/-- A thread outside the critical section changes nothing about the request. -/
theorem Stands.update (stands : Stands areas s o pending) {t : Fin n} {next : Thread}
    {pending' : Fin n → Option (Call × Result)} (before : (s.thread t).exclusive = false)
    (outside : next.exclusive = false) (others : ∀ u, u ≠ t → pending' u = pending u) :
    Stands areas { s with thread := Function.update s.thread t next } o pending' := by
  have apart {u : Fin n} {call : Call} {phase : Phase} (there : s.thread u = some (call, phase))
      (exclusive : Thread.exclusive (some (call, phase)) = true) : u ≠ t := by
    rintro rfl
    rw [there, exclusive] at before
    cases before
  cases stands with
  | free alone requests answers supervisor same =>
      refine .free ?_ requests answers supervisor same
      intro u
      by_cases here : u = t
      · subst here
        simpa using outside
      · simpa [here] using alone u
  | entered u request there alone requests answers supervisor same first =>
      have other := apart there rfl
      exact .entered u request (by simpa [other] using there) (alone_update alone outside)
        requests answers supervisor same ((others u other).trans first)
  | asked u request backup there alone message answers app copied first =>
      have other := apart there rfl
      exact .asked u request backup (by simpa [other] using there) (alone_update alone outside)
        message answers app copied ((others u other).trans first)
  | served u request backup answer result there alone requests message app length finish done =>
      have other := apart there rfl
      exact .served u request backup answer result (by simpa [other] using there)
        (alone_update alone outside) requests message app length finish
        ((others u other).trans done)

/-- Who reads a parameter sees what the effects so far made of it, also while another one
is written that may yet be refused. -/
theorem Standing.value (standing : Standing areas s o pending) (callbacks : Callbacks App) {p : Nat}
    (unwritten : ∀ u, (s.thread u).writes p = false) :
    s.toObject.apply areas callbacks (.getValue p) =
      ((o.apply areas callbacks (.getValue p)).1, s.toObject) := by
  have areas_apart (call : Parameter.Call) (bytes : List Byte) (length : bytes.length = call.buf.length)
      (inside : call.offset + call.buf.length ≤ areas.memSize call.mainParam)
      (other : p ≠ call.mainParam) (memory : Memory) :
      (memory.write (areas.shmAddr call.mainParam + call.offset) bytes).read (areas.shmAddr p)
        (areas.memSize p) = memory.read (areas.shmAddr p) (areas.memSize p) := by
    apply Memory.read_write_apart
    have apart := areas.apart p call.mainParam other
    simp only [Areas.Apart] at apart
    omega
  have other {u : Fin n} {call : Parameter.Call} {phase : Phase} (locked : phase ≠ .called)
      (there : s.thread u = some (.request (.paramChange call), phase)) : p ≠ call.mainParam := by
    rintro rfl
    have free := unwritten u
    simp [there, Thread.writes, locked] at free
  cases standing.stands with
  | free alone requests answers supervisor same =>
      rw [← same]
      rfl
  | entered u request there alone requests answers supervisor same first =>
      rw [← same]
      rfl
  | asked u request backup there alone message answers app copied first =>
      cases request with
      | pollSignal signal =>
          rw [Request.copy, Prod.mk.injEq] at copied
          simp only [Object.apply, ← copied.1]
      | paramChange call =>
          have inside := standing.inside u call _ there
          have apart := areas_apart call call.buf rfl inside (other (by simp) there) o.main.shmem
          rw [Request.copy, Prod.mk.injEq] at copied
          simp only [Object.apply, ← copied.1, apart]
  | served u request backup answer result there alone requests message app length finish done =>
      cases request with
      | pollSignal signal =>
          cases answer with
          | polled time =>
              simp only [Request.finish, Option.some.injEq, Prod.mk.injEq] at finish
              simp only [Object.apply, ← finish.2]
          | _ => cases finish
      | paramChange call =>
          have inside := standing.inside u call _ there
          have apart := areas_apart call backup (length call rfl) inside (other (by simp) there)
            s.main.shmem
          cases answer with
          | paramChangeAck rv time =>
              simp only [Request.finish] at finish
              split at finish
              · simp only [Option.some.injEq, Prod.mk.injEq] at finish
                simp only [Object.apply, ← finish.2,
                  Function.update_of_ne (other (by simp) there)]
              · simp only [Option.some.injEq, Prod.mk.injEq] at finish
                simp only [Object.apply, ← finish.2, apart]
          | _ => cases finish

/-! ### One step -/

/-- What a step does to the object of the effects and to the calls that have theirs. -/
inductive Moves (areas : SharedAreas) (callbacks : Callbacks App) (o : Object App)
    (pending : Fin n → Option (Call × Result)) : Option (Effect (Fin n) Call Result) →
    Option (Fin n × Call × Result) → Object App → (Fin n → Option (Call × Result)) → Prop
  | stay : Moves areas callbacks o pending none none o pending
  | cycle (app : App) : Moves areas callbacks o pending none none { o with app := app } pending
  | effect (t : Fin n) (call : Call) (first : pending t = none) :
      Moves areas callbacks o pending (some ⟨t, call, (o.apply areas callbacks call).1⟩) none
        (o.apply areas callbacks call).2
        (Function.update pending t (some (call, (o.apply areas callbacks call).1)))
  | report (t : Fin n) (done : Call × Result) (there : pending t = some done) :
      Moves areas callbacks o pending none (some (t, done)) o (Function.update pending t none)

/-- A thread goes on outside the critical section and has its result, if any, in order. -/
theorem Standing.move (standing : Standing areas s o pending) {t : Fin n} {next : Thread}
    {pending' : Fin n → Option (Call × Result)} (before : (s.thread t).exclusive = false)
    (outside : next.exclusive = false) (locks : Locks (Function.update s.thread t next))
    (mine : pending' t = next.result) (others : ∀ u, u ≠ t → pending' u = pending u)
    (inside : ∀ call phase, next = some (.request (.paramChange call), phase) →
      call.offset + call.buf.length ≤ areas.memSize call.mainParam) :
    Standing areas { s with thread := Function.update s.thread t next } o pending' := by
  refine ⟨standing.stands.update before outside others, locks, ?_, ?_⟩
  · intro u exclusive
    by_cases here : u = t
    · subst here
      simpa using mine
    · simp only [Function.update_of_ne here] at exclusive ⊢
      rw [others u here]
      exact standing.left u exclusive
  · intro u call phase there
    by_cases here : u = t
    · subst here
      exact inside call phase (by simpa using there)
    · exact standing.inside u call phase (by simpa [here] using there)

theorem Standing.call (standing : Standing areas s o pending) {t : Fin n} {call : Call}
    (idle : s.thread t = none)
    (inside : ∀ change, call = .request (.paramChange change) →
      change.offset + change.buf.length ≤ areas.memSize change.mainParam) :
    Standing areas (s.put t call .called) o pending := by
  have before : (s.thread t).exclusive = false := by rw [idle]; rfl
  refine standing.move before rfl (standing.locks.drop ?_ ?_) ?_ (fun _ _ => rfl) ?_
  · intro p write
    cases call with
    | getValue q => cases write
    | request request => cases request <;> simp [Thread.writes] at write
  · intro p read
    cases call with
    | getValue q => simp [Thread.reads] at read
    | request request => cases read
  · rw [standing.left t before, idle]
    rfl
  · rintro change phase ⟨⟩
    exact inside change rfl

theorem Standing.lock (standing : Standing areas s o pending) {t : Fin n}
    (done : s.step areas callbacks (.lock t) = some after) : Standing areas after o pending := by
  simp only [State.step] at done
  split at done
  · next change there =>
    split at done
    · next free =>
      cases done
      have before : (s.thread t).exclusive = false := by rw [there]; rfl
      have locks := standing.locks.write t (by simpa [State.unlocked] using free)
      refine standing.move before rfl locks ?_ (fun _ _ => rfl) ?_
      · rw [standing.left t before, there]
        rfl
      · rintro call phase ⟨⟩
        exact standing.inside t change _ there
    · cases done
  · next p there =>
    split at done
    · next free =>
      cases done
      have before : (s.thread t).exclusive = false := by rw [there]; rfl
      have locks := standing.locks.read t (q := p) (by simpa [State.unwritten] using free)
      refine standing.move before rfl locks ?_ (fun _ _ => rfl) ?_
      · rw [standing.left t before, there]
        rfl
      · rintro call phase ⟨⟩
    · cases done
  · next signal there =>
    cases done
    have before : (s.thread t).exclusive = false := by rw [there]; rfl
    refine standing.move before rfl (standing.locks.drop ?_ ?_) ?_ (fun _ _ => rfl) ?_
    · intro p write
      cases write
    · intro p read
      cases read
    · rw [standing.left t before, there]
      rfl
    · rintro call phase ⟨⟩
  · cases done

/-- Into the critical section. -/
theorem Standing.into (standing : Standing areas s o pending) {t : Fin n} {request : Request}
    (there : s.thread t = some (.request request, .locked)) (free : s.sdoFree = true) :
    Standing areas (s.put t (.request request) .entered) o pending := by
  have alone : ∀ u, (s.thread u).exclusive = false := by simpa [State.sdoFree] using free
  have first : pending t = none := by
    rw [standing.left t (alone t), there]
    rfl
  refine ⟨?_, standing.locks.drop ?_ ?_, ?_, ?_⟩
  · cases standing.stands with
    | free _ requests answers supervisor same =>
        refine .entered t request (Function.update_self ..) ?_ requests answers supervisor same first
        intro u exclusive
        by_contra other
        simp [State.put, other, alone u] at exclusive
    | entered u request there _ => simpa [there, Thread.exclusive] using alone u
    | asked u request backup there _ => simpa [there, Thread.exclusive] using alone u
    | served u request backup answer result there _ => simpa [there, Thread.exclusive] using alone u
  · intro p write
    cases request with
    | pollSignal signal => cases write
    | paramChange call =>
        rw [there]
        simp only [Thread.writes, decide_eq_true_eq] at write ⊢
        exact ⟨write.1, by simp⟩
  · intro p read
    cases read
  · intro u exclusive
    by_cases here : u = t
    · subst here
      simp [State.put, Thread.exclusive] at exclusive
    · simp only [State.put, Function.update_of_ne here] at exclusive ⊢
      exact standing.left u exclusive
  · intro u call later there'
    by_cases here : u = t
    · subst here
      simp only [State.put, Function.update_self, Option.some.injEq, Prod.mk.injEq] at there'
      obtain ⟨same, -⟩ := there'
      rw [same] at there
      exact standing.inside u call _ there
    · exact standing.inside u call later (by simpa [State.put, here] using there')

theorem Standing.enter (standing : Standing areas s o pending) {t : Fin n}
    (done : s.step areas callbacks (.enter t) = some after) : Standing areas after o pending := by
  simp only [State.step] at done
  split at done
  · next request there =>
    split at done
    · next free =>
      cases done
      exact standing.into there free
    · cases done
  · cases done

/-- A request goes on under the same locks. -/
theorem Standing.carry (standing : Standing areas s o pending) {t : Fin n} {request : Request}
    {phase : Phase} (there : s.thread t = some (.request request, phase)) (next : Phase)
    (locked : phase ≠ .called)
    (threads : after.thread = Function.update s.thread t (some (.request request, next)))
    {o' : Object App} (stands : Stands areas after o' pending)
    (mine : Thread.exclusive (some (.request request, next)) = false →
      pending t = Thread.result (some (.request request, next))) :
    Standing areas after o' pending := by
  refine ⟨stands, ?_, ?_, ?_⟩
  · rw [threads]
    refine standing.locks.drop ?_ ?_
    · intro p write
      rw [there]
      cases request with
      | pollSignal signal => cases write
      | paramChange call =>
          simp only [Thread.writes, decide_eq_true_eq] at write ⊢
          exact ⟨write.1, locked⟩
    · intro p read
      cases read
  · intro u exclusive
    rw [threads] at exclusive ⊢
    by_cases here : u = t
    · subst here
      simp only [Function.update_self] at exclusive ⊢
      exact mine exclusive
    · simp only [Function.update_of_ne here] at exclusive ⊢
      exact standing.left u exclusive
  · intro u call later there'
    rw [threads] at there'
    by_cases here : u = t
    · subst here
      simp only [Function.update_self, Option.some.injEq, Prod.mk.injEq] at there'
      obtain ⟨same, -⟩ := there'
      rw [same] at there
      exact standing.inside u call _ there
    · exact standing.inside u call later (by simpa [here] using there')

theorem Standing.ask (standing : Standing areas s o pending) {t : Fin n}
    (done : s.step areas callbacks (.ask t) = some after) : Standing areas after o pending := by
  simp only [State.step] at done
  split at done
  · next request there =>
    cases done
    refine standing.carry there _ (by simp) rfl ?_ (fun outside => by cases outside)
    have inside : (s.thread t).exclusive = true := by rw [there]; rfl
    cases standing.stands with
    | free alone requests answers supervisor same => simp [alone t] at inside
    | entered u request' there' alone requests answers supervisor same first =>
        obtain rfl := alone t inside
        refine .asked t request _ (Function.update_self ..) ?_ (.inl ⟨?_, supervisor⟩) answers ?_ ?_
          first
        · intro v exclusive
          by_contra other
          exact other (alone v (by simpa [State.put, other] using exclusive))
        · simp [requests]
        · simp [State.put, ← same]
        · simp [← same]
    | asked u request' backup there' alone message answers app copied first =>
        obtain rfl := alone t inside
        rw [there] at there'
        cases there'
    | served u request' backup answer result there' alone requests message app length finish done =>
        obtain rfl := alone t inside
        rw [there] at there'
        cases there'
  · cases done

theorem Standing.finish (standing : Standing areas s o pending) {t : Fin n}
    (done : s.step areas callbacks (.finish t) = some after) : Standing areas after o pending := by
  simp only [State.step] at done
  split at done
  · next request backup sdo rest there received =>
    obtain ⟨⟨result, main⟩, finished, rfl⟩ := Option.map_eq_some_iff.mp done
    have inside : (s.thread t).exclusive = true := by rw [there]; rfl
    cases standing.stands with
    | free alone requests answers supervisor same => simp [alone t] at inside
    | entered u request' there' alone requests answers supervisor same first =>
        rw [received] at answers
        cases answers
    | asked u request' backup' there' alone message answers app copied first =>
        rw [received] at answers
        cases answers
    | served u request' backup' answer result' there' alone requests message app length finish first =>
        obtain rfl := alone t inside
        rw [there] at there'
        cases there'
        -- the answer in the pipe is the one to this request
        obtain ⟨-, none⟩ | ⟨supervisor, answers⟩ := message
        · rw [received] at none
          cases none
        · rw [received] at answers
          cases answers
          rw [finished] at finish
          cases finish
          refine standing.carry there (.left result) (by simp) rfl ?_ (fun _ => first)
          refine .free ?_ requests rfl supervisor ?_
          · intro u
            by_cases here : u = t
            · subst here
              simp [State.put, Thread.exclusive]
            · rw [Bool.eq_false_iff]
              intro exclusive
              exact here (alone u (by simpa [State.put, here] using exclusive))
          · simp [State.put, app]
  · cases done

theorem Standing.copyValue (standing : Standing areas s o pending) {t : Fin n}
    (done : s.step areas callbacks (.copyValue t) = some after) :
    ∃ o' pending', Standing areas after o' pending' ∧
      Moves areas callbacks o pending (s.effect areas callbacks (.copyValue t)) none o' pending' := by
  simp only [State.step] at done
  split at done
  · next p there =>
    cases done
    have before : (s.thread t).exclusive = false := by rw [there]; rfl
    have first : pending t = none := by rw [standing.left t before, there]; rfl
    have unwritten : ∀ u, (s.thread u).writes p = false := by
      intro u
      rw [Bool.eq_false_iff]
      intro write
      have same := standing.locks p u t write (.inr (by simp [there, Thread.reads]))
      subst same
      simp [there, Thread.writes] at write
    have seen := standing.value callbacks unwritten
    refine ⟨o, Function.update pending t
      (some (.getValue p, (o.apply areas callbacks (.getValue p)).1)), ?_, ?_⟩
    · rw [seen]
      refine standing.move before rfl (standing.locks.drop ?_ ?_) (by simp [Thread.result])
        (fun u other => Function.update_of_ne other _ _) ?_
      · intro q write
        cases write
      · intro q read
        simpa [there, Thread.reads] using read
      · rintro call phase ⟨⟩
    · simp only [State.effect, there, seen]
      exact .effect t (.getValue p) first
  · cases done

theorem Standing.return (standing : Standing areas s o pending) {t : Fin n}
    (done : s.step areas callbacks (.return t) = some after) :
    ∃ pending', Standing areas after o pending' ∧
      Moves areas callbacks o pending none (s.report (.return t)) o pending' := by
  simp only [State.step] at done
  split at done
  · next call result there =>
    cases done
    have before : (s.thread t).exclusive = false := by rw [there]; rfl
    have mine : pending t = some (call, result) := by rw [standing.left t before, there]; rfl
    refine ⟨Function.update pending t none, ?_, ?_⟩
    · refine standing.move before rfl (standing.locks.drop ?_ ?_) (by simp [Thread.result])
        (fun u other => Function.update_of_ne other _ _) ?_
      · intro p write
        cases write
      · intro p read
        cases read
      · rintro call phase ⟨⟩
    · simp only [State.report, there]
      exact .report t _ mine
  · cases done

theorem Standing.take (standing : Standing areas s o pending)
    (done : s.step areas callbacks .take = some after) : Standing areas after o pending := by
  simp only [State.step] at done
  split at done
  · next sdo rest waiting received =>
    cases done
    refine ⟨?_, standing.locks, standing.left, standing.inside⟩
    cases standing.stands with
    | free alone requests => simp [requests] at received
    | entered u request there alone requests => simp [requests] at received
    | served u request backup answer result there alone requests => simp [requests] at received
    | asked u request backup there alone message answers app copied first =>
        obtain ⟨requests, -⟩ | ⟨none, -⟩ := message
        · rw [received] at requests
          cases requests
          exact .asked u request backup there alone (.inr ⟨rfl, rfl⟩) answers app copied first
        · simp [none] at received
  · cases done

theorem Standing.answer (standing : Standing areas s o pending)
    (done : s.step areas callbacks .answer = some after) : Standing areas after o pending := by
  simp only [State.step] at done
  split at done
  · next sdo ran =>
    cases done
    refine ⟨?_, standing.locks, standing.left, standing.inside⟩
    cases standing.stands with
    | free alone requests answers supervisor => simp [supervisor] at ran
    | entered u request there alone requests answers supervisor => simp [supervisor] at ran
    | asked u request backup there alone message =>
        obtain ⟨-, supervisor⟩ | ⟨-, supervisor⟩ := message <;> simp [supervisor] at ran
    | served u request backup answer result there alone requests message app length finish first =>
        obtain ⟨supervisor, answers⟩ | ⟨supervisor, -⟩ := message
        · rw [ran] at supervisor
          cases supervisor
          refine .served u request backup sdo result there alone requests (.inr ⟨rfl, ?_⟩) app
            length finish first
          simp [answers]
        · simp [supervisor] at ran
  · cases done

theorem holder_eq {t : Fin n} (exclusive : (s.thread t).exclusive = true)
    (alone : ∀ u, (s.thread u).exclusive = true → u = t) : s.holder = some t := by
  cases found : s.holder with
  | none =>
      have outside := List.find?_eq_none.mp found t (List.mem_finRange t)
      exact absurd exclusive outside
  | some u =>
      have inside : (s.thread u).exclusive = true :=
        List.find?_some (p := fun t => (s.thread t).exclusive) found
      exact congrArg some (alone u inside)

theorem Standing.run (standing : Standing areas s o pending)
    (done : s.step areas callbacks .run = some after) :
    ∃ o' pending', Standing areas after o' pending' ∧
      Moves areas callbacks o pending (s.effect areas callbacks .run) none o' pending' := by
  simp only [State.step] at done
  split at done
  · next sdo took =>
    obtain ⟨⟨answer, object⟩, ran, rfl⟩ := Option.map_eq_some_iff.mp done
    cases standing.stands with
    | free alone requests answers supervisor => simp [supervisor] at took
    | entered u request there alone requests answers supervisor => simp [supervisor] at took
    | served u request backup answer result there alone requests message =>
        obtain ⟨supervisor, -⟩ | ⟨supervisor, -⟩ := message <;> simp [supervisor] at took
    | asked u request backup there alone message answers app copied first =>
        obtain ⟨-, supervisor⟩ | ⟨requests, supervisor⟩ := message
        · simp [supervisor] at took
        · rw [took] at supervisor
          cases supervisor
          -- the message is the request of the holder, and the memory is as it left it
          have served := request.served areas callbacks o
          rw [copied] at served
          obtain ⟨answer', object', result, main, ran', finish, whole⟩ := served
          have here : s.toObject.run areas callbacks request.message = some (answer', object') := by
            rw [← ran', ← app]
          rw [here] at ran
          cases ran
          have exclusive : (s.thread u).exclusive = true := by rw [there]; rfl
          refine ⟨(o.apply areas callbacks (.request request)).2, Function.update pending u
            (some (.request request, (o.apply areas callbacks (.request request)).1)), ?_, ?_⟩
          · refine ⟨?_, standing.locks, ?_, standing.inside⟩
            · refine .served u request backup answer result there alone requests
                (.inl ⟨rfl, answers⟩) (by simp [whole]) ?_ (by simpa [whole] using finish)
                (by simp [whole])
              rintro call rfl
              rw [Request.copy, Prod.mk.injEq] at copied
              rw [← copied.2, Memory.read_length]
            · intro v outside
              have other : v ≠ u := by
                rintro rfl
                rw [exclusive] at outside
                cases outside
              rw [Function.update_of_ne other]
              exact standing.left v outside
          · have effect : s.effect areas callbacks .run =
                some ⟨u, .request request, (o.apply areas callbacks (.request request)).1⟩ := by
              simp [State.effect, holder_eq exclusive alone, there, took, here, finish, whole]
            rw [effect]
            exact .effect u (.request request) first
  · cases done

theorem Standing.cycle (standing : Standing areas s o pending) (app : App) :
    Standing areas { s with app := app } { o with app := app } pending := by
  refine ⟨?_, standing.locks, standing.left, standing.inside⟩
  cases standing.stands with
  | free alone requests answers supervisor same =>
      exact .free alone requests answers supervisor (by rw [← same])
  | entered u request there alone requests answers supervisor same first =>
      exact .entered u request there alone requests answers supervisor (by rw [← same]) first
  | asked u request backup there alone message answers _ copied first =>
      exact .asked u request backup there alone message answers rfl copied first
  | served u request backup answer result there alone requests message _ length finish done =>
      exact .served u request backup answer result there alone requests message rfl length finish
        done

/-- Every step without a failure keeps state and effects together. -/
theorem Standing.step (standing : Standing areas s o pending) {action : Action App n}
    (inside : ∀ t change, action = .call t (.request (.paramChange change)) →
      change.offset + change.buf.length ≤ areas.memSize change.mainParam)
    (done : s.step areas callbacks action = some after) (fine : after.ipc_error = false) :
    ∃ o' pending', Standing areas after o' pending' ∧
      Moves areas callbacks o pending (s.effect areas callbacks action) (s.report action)
        o' pending' := by
  cases action with
  | call t call =>
      simp only [State.step] at done
      split at done
      · next idle =>
        cases done
        exact ⟨o, pending, standing.call idle fun change same => inside t change (by rw [same]),
          .stay⟩
      · cases done
  | lock t => exact ⟨o, pending, standing.lock done, .stay⟩
  | enter t => exact ⟨o, pending, standing.enter done, .stay⟩
  | ask t => exact ⟨o, pending, standing.ask done, .stay⟩
  | failWrite t =>
      simp only [State.step] at done
      split at done <;> cases done
      cases fine
  | finish t => exact ⟨o, pending, standing.finish done, .stay⟩
  | failRead t =>
      simp only [State.step] at done
      split at done <;> cases done
      cases fine
  | copyValue t => exact standing.copyValue done
  | «return» t =>
      obtain ⟨pending', standing', moves⟩ := standing.return done
      exact ⟨o, pending', standing', moves⟩
  | take => exact ⟨o, pending, standing.take done, .stay⟩
  | run => exact standing.run done
  | answer => exact ⟨o, pending, standing.answer done, .stay⟩
  | cycle app =>
      cases done
      exact ⟨_, pending, standing.cycle app, .cycle app⟩

/-! ### Whole runs -/

/-- Once a pipe has failed the error stays. -/
theorem ipc_error_of_step {action : Action App n}
    (done : s.step areas callbacks action = some after) (fine : after.ipc_error = false) :
    s.ipc_error = false := by
  cases action <;> grind [State.step, State.put, Option.map_eq_some_iff]

/-- The effects of a run explain the object, and the callers got their results. -/
structure SdoRun.Serial (areas : SharedAreas) (callbacks : Callbacks App) (first : Object App)
    (r : SdoRun App n) (o : Object App) : Prop where
  explains : Explains (Object.apply areas callbacks) Object.Cycles first r.log o
  got : ∀ t, r.returned t <+: effectsOf t r.log
  behind : ∀ t, (effectsOf t r.log).length ≤ (r.returned t).length + 1
  idle : ∀ t, r.state.thread t = none → r.returned t = effectsOf t r.log
  value : ∀ p, (∀ t, (r.state.thread t).writes p = false) →
    (r.state.toObject.apply areas callbacks (.getValue p)).1 =
      (o.apply areas callbacks (.getValue p)).1
  calm : (∀ t, r.state.thread t = none) → r.state.toObject = o

/-- What holds after every step, as long as no pipe has failed. -/
def SdoRun.Holds (areas : SharedAreas) (callbacks : Callbacks App) (first : Object App)
    (r : SdoRun App n) : Prop :=
  r.state.ipc_error = false → ∃ o pending, Standing areas r.state o pending ∧
    Explains (Object.apply areas callbacks) Object.Cycles first r.log o ∧
    Accounts r.log r.returned pending

theorem SdoRun.holds_start (areas : SharedAreas) (callbacks : Callbacks App) (main : MainState)
    (app : App) : (start (n := n) main app).Holds areas callbacks ⟨main, app⟩ := by
  intro _
  refine ⟨⟨main, app⟩, fun _ => none, ⟨?_, ?_, ?_, ?_⟩, .start, .start⟩
  · exact .free (fun _ => rfl) rfl rfl rfl rfl
  · intro p t u write
    cases write
  · exact fun _ _ => rfl
  · rintro t call phase ⟨⟩

theorem SdoRun.Holds.step {first : Object App} {r next : SdoRun App n} {action : Action App n}
    (holds : r.Holds areas callbacks first) (inside : Inside areas r action)
    (done : r.step areas callbacks action = some next) : next.Holds areas callbacks first := by
  intro fine
  obtain ⟨after, went, rfl⟩ := Option.map_eq_some_iff.mp done
  obtain ⟨o, pending, standing, explains, accounts⟩ := holds (ipc_error_of_step went fine)
  have allowed : ∀ t change, action = .call t (.request (.paramChange change)) →
      change.offset + change.buf.length ≤ areas.memSize change.mainParam := by
    rintro t change rfl
    exact inside
  obtain ⟨o', pending', standing', moves⟩ := standing.step allowed went fine
  refine ⟨o', pending', standing', ?_⟩
  dsimp only
  generalize r.state.effect areas callbacks action = effect at moves
  generalize r.state.report action = report at moves
  cases moves with
  | stay => exact ⟨by simpa using explains, by simpa using accounts⟩
  | cycle app =>
      have cycled := explains.own (show Object.Cycles o { o with app := app } from rfl)
      exact ⟨by simpa using cycled, by simpa using accounts⟩
  | effect t call first => exact ⟨explains.effect t call, accounts.effect first _ _⟩
  | report t done there => exact ⟨by simpa using explains, by simpa using accounts.report there⟩

/-- Whatever the order of steps: while no pipe has failed, every result is that of the calls
made one at a time, in the order of their effects, and each call has one effect. -/
theorem SdoRun.serial (areas : SharedAreas) (callbacks : Callbacks App) (main : MainState)
    (app : App) (r : SdoRun App n)
    (run : Transition.Reaches (SdoRun.step areas callbacks) (Inside areas) (start main app) r)
    (fine : r.state.ipc_error = false) : ∃ o, r.Serial areas callbacks ⟨main, app⟩ o := by
  have holds := run.invariant (holds_start areas callbacks main app)
    fun before action after holds inside done => holds.step inside done
  obtain ⟨o, pending, standing, explains, accounts⟩ := holds fine
  refine ⟨o, explains, accounts.prefix, ?_, ?_, ?_, ?_⟩
  · intro t
    rw [accounts t, List.length_append]
    cases pending t <;> simp
  · intro t idle
    have none : pending t = none := by
      rw [standing.left t (by rw [idle]; rfl), idle]
      rfl
    rw [accounts t, none]
    simp
  · intro p unwritten
    rw [standing.value callbacks unwritten]
  · intro idle
    cases standing.stands with
    | free alone requests answers supervisor same => exact same
    | entered u request there => simp [idle u] at there
    | asked u request backup there => simp [idle u] at there
    | served u request backup answer result there => simp [idle u] at there

/-! A write that is refused while another thread reads, and a poll. -/

def sampleAreas : SharedAreas := Application.sample.sharedAreas 4096

/-- Takes every value but 9. -/
def sampleCallbacks : Callbacks Nat where
  write_cb app _ buf := if buf = [9] then ((-22, (1, 0)), app) else ((0, (2, 0)), app + 1)
  read_cb app _ := (([UInt8.ofNat app], (3, 0)), app)

def firstThread : Fin 2 := 0
def secondThread : Fin 2 := 1

def sampleSteps : List (Action Nat 2) :=
  [.call firstThread (.request (.paramChange ⟨0, 2, [9]⟩)), .lock firstThread, .enter firstThread,
    .call secondThread (.getValue 1), .ask firstThread, .lock secondThread,
    .copyValue secondThread, .take, .cycle 5, .run, .answer, .return secondThread,
    .finish firstThread, .return firstThread, .call secondThread (.request (.pollSignal 0)),
    .lock secondThread, .enter secondThread, .ask secondThread, .take, .run, .answer,
    .finish secondThread, .return secondThread]

def sampleAllowed (_ : SdoRun Nat 2) : Action Nat 2 → Bool
  | .call _ (.request (.paramChange call)) =>
      call.offset + call.buf.length ≤ sampleAreas.memSize call.mainParam
  | _ => true

theorem sampleAllowed_sound (r : SdoRun Nat 2) (action : Action Nat 2)
    (allowed : sampleAllowed r action = true) : Inside sampleAreas r action := by
  cases action with
  | call t call =>
      cases call with
      | getValue p => trivial
      | request request =>
          cases request with
          | pollSignal signal => trivial
          | paramChange change => simpa [sampleAllowed, Inside] using allowed
  | _ => trivial

def sampleStart : SdoRun Nat 2 := SdoRun.start ⟨fun _ => 7, fun _ => (0, 0)⟩ 4

def sampleRun : SdoRun Nat 2 :=
  (Transition.perform (SdoRun.step sampleAreas sampleCallbacks) sampleAllowed sampleSteps
    sampleStart).getD sampleStart

theorem SdoRun.serial_sample :
    sampleRun.returned firstThread = [(.request (.paramChange ⟨0, 2, [9]⟩), .set (-22))] ∧
      sampleRun.returned secondThread = [(.getValue 1, .value [7, 7, 7, 7, 7, 7, 7, 7] (0, 0)),
        (.request (.pollSignal 0), .polled [5, 7, 7, 7, 7, 7, 7, 7] (3, 0))] ∧
      ∃ o, sampleRun.Serial sampleAreas sampleCallbacks ⟨⟨fun _ => 7, fun _ => (0, 0)⟩, 4⟩ o := by
  have done : Transition.perform (SdoRun.step sampleAreas sampleCallbacks) sampleAllowed sampleSteps
      sampleStart = some sampleRun := rfl
  have run : Transition.Reaches (SdoRun.step sampleAreas sampleCallbacks) (Inside sampleAreas)
      sampleStart sampleRun := .perform sampleAllowed_sound .start done
  exact ⟨rfl, rfl, SdoRun.serial sampleAreas sampleCallbacks ⟨fun _ => 7, fun _ => (0, 0)⟩ 4
    sampleRun run rfl⟩

end PdServ.Sdo
