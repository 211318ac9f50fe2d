import PdServ.ParameterSessions

/-!
What a client was told last of a parameter is up to date, or word of a change is on its
way. A write is told of before its lock is given back, a reply is written before the
session looks for changes, and a `<pu>` calls in what was told before.
-/

namespace PdServ

open Invalidation

namespace Coherence

variable {App : Type} {n : Nat} (app : Application) (shmem : Nat) {callbacks : Callbacks App}

/-! ### What a client knows, and what is on its way -/

/-- What the client was told, or the session has read for it. -/
def Client.Knows (server : Server) (client : Client) (pending : Option (Sdo.Call × Sdo.Result))
    (q : Nat) (bytes : List Byte) : Prop :=
  remembered q client.output = some bytes ∨
    ∃ p buf, server.parameters[q]? = some p ∧ bytes = p.part buf ∧
      (client.held = some (p.mainParam, buf) ∨
        ∃ time, pending = some (.getValue p.mainParam, .value buf time))

/-- A `<pu>` waits, or is in `cp`. -/
def Client.Owes (client : Client) (q : Nat) : Prop :=
  q ∈ client.push.session.changedParameter ∨ q ∈ client.push.writes

/-- How the session of a client and its thread belong together. -/
structure Client.Fits (client : Client) (thread : Sdo.Thread) : Prop where
  impolite : client.push.session.polite = false
  resting : client.push.cp ≠ none ∨ client.held ≠ none → thread = none
  apart : client.push.cp ≠ none → client.held = none

section

variable (server : Server) (s : State App n) (pending : Fin n → Option (Sdo.Call × Sdo.Result))
  (c : Fin n)

def Knows (q : Nat) (bytes : List Byte) : Prop :=
  ∃ client, s.client c = some client ∧ client.Knows server (pending c) q bytes

/-- A thread whose write was accepted has yet to tell the session. -/
def Telling (q : Nat) : Prop :=
  ∃ t call, pending t = some (.request (.paramChange call), .set 0) ∧ Reaches server call q ∧
    ∀ left, s.telling t = some left → (c, q) ∈ left

def Due (q : Nat) : Prop :=
  (∃ client, s.client c = some client ∧ client.Owes q) ∨ Telling server s pending c q

end

/-- What holds after every step, for one session. -/
structure View (areas : SharedAreas) (server : Server) (c : Fin n) (s : State App n)
    (o : Sdo.Object App) (pending : Fin n → Option (Sdo.Call × Sdo.Result)) : Prop where
  standing : Sdo.Standing areas s.calls o pending
  coherent : Coherent (store areas server o) (Knows server s pending c) (Due server s pending c)
  telling : ∀ t left, s.telling t = some left →
    ∃ call, s.calls.thread t = some (.request (.paramChange call), .left (.set 0))
  fits : ∀ client, s.client c = some client → client.Fits (s.calls.thread c)
  offline : s.client c = none → s.calls.thread c = none
  reported : ∀ t call phase, s.calls.thread t = some (.request (.paramChange call), phase) →
    0 < call.buf.length → server.ReportsExactly call.mainParam call.offset call.buf.length

/-! ### Steps of the sessions -/

namespace View

variable {areas : SharedAreas} {server : Server} {c : Fin n} {s after : State App n}
  {o : Sdo.Object App} {pending : Fin n → Option (Sdo.Call × Sdo.Result)}

theorem pending_of_left (view : View areas server c s o pending) {t : Fin n} {call : Sdo.Call}
    {result : Sdo.Result} (there : s.calls.thread t = some (call, .left result)) :
    pending t = some (call, result) := by
  rw [view.standing.left t (by rw [there]; rfl), there]
  rfl

theorem pending_of_idle (view : View areas server c s o pending) {t : Fin n}
    (idle : s.calls.thread t = none) : pending t = none := by
  rw [view.standing.left t (by rw [idle]; rfl), idle]
  rfl

/-- A session of which something was taken note. -/
theorem client_of_map {d : Fin n} {f : Client → Client} {client' : Client}
    (here : (s.put d ((s.client d).map f)).client c = some client') :
    ∃ client, s.client c = some client ∧
      (client' = client ∧ d ≠ c ∨ client' = f client ∧ d = c) := by
  by_cases same : d = c
  · subst same
    simp only [State.put, Function.update_self] at here
    obtain ⟨client, before, rfl⟩ := Option.map_eq_some_iff.mp here
    exact ⟨client, before, .inr ⟨rfl, rfl⟩⟩
  · simp only [State.put, Function.update_of_ne (Ne.symm same)] at here
    exact ⟨client', here, .inl ⟨rfl, same⟩⟩

/-- Something happens to another session. -/
theorem other (view : View areas server c s o pending) (d : Fin n) (apart : d ≠ c)
    (client : Option Client) : View areas server c (s.put d client) o pending := by
  have same : (s.put d client).client c = s.client c := Function.update_of_ne apart.symm _ _
  refine ⟨view.standing, ?_, view.telling, ?_, ?_, view.reported⟩
  · have coherent := view.coherent
    simp only [Coherent, Knows, Due, same] at coherent ⊢
    exact coherent
  · rw [same]
    exact view.fits
  · rw [same]
    exact view.offline

/-- Something happens to the session itself. -/
theorem own (view : View areas server c s o pending) {client : Client}
    (fits : client.Fits (s.calls.thread c))
    (reads : ∀ q bytes, client.Knows server (pending c) q bytes → Knows server s pending c q bytes)
    (passes : ∀ q bytes before, s.client c = some before → before.Owes q →
      client.Knows server (pending c) q bytes → client.Owes q) :
    View areas server c (s.put c (some client)) o pending := by
  have same : (s.put c (some client)).client c = some client := Function.update_self ..
  refine ⟨view.standing, ?_, view.telling, ?_, ?_, view.reported⟩
  · apply view.coherent.move
    · rintro q bytes ⟨after, here, knows⟩
      rw [same] at here
      cases here
      exact reads q bytes knows
    · rintro q bytes (⟨before, here, owes⟩ | telling) ⟨after, there, knows⟩
      · rw [same] at there
        cases there
        exact .inl ⟨client, same, passes q bytes before here owes knows⟩
      · exact .inr telling
  · intro after here
    rw [same] at here
    cases here
    exact fits
  · intro none
    rw [same] at none
    cases none

theorem connect (view : View areas server c s o pending) (d : Fin n) (fresh : s.client d = none) :
    View areas server c (s.put d (some Client.new)) o pending := by
  by_cases same : d = c
  · subst same
    have idle := view.offline fresh
    have nothing : ∀ q bytes, ¬ Client.new.Knows server (pending d) q bytes := by
      rintro q bytes (told | ⟨p, buf, -, -, held | ⟨time, mine⟩⟩)
      · cases told
      · cases held
      · rw [view.pending_of_idle idle] at mine
        cases mine
    exact view.own ⟨rfl, fun _ => idle, fun _ => rfl⟩
      (fun q bytes knows => absurd knows (nothing q bytes))
      (fun q bytes _ _ _ knows => absurd knows (nothing q bytes))
  · exact view.other d same _

theorem close (view : View areas server c s o pending) (d : Fin n)
    (idle : s.calls.thread d = none) : View areas server c (s.put d none) o pending := by
  by_cases same : d = c
  · subst same
    have gone : (s.put d none).client d = none := Function.update_self ..
    refine ⟨view.standing, ?_, view.telling, ?_, fun _ => idle, view.reported⟩
    · apply Coherent.start
      rintro q bytes ⟨client, here, -⟩
      rw [gone] at here
      cases here
    · intro client here
      rw [gone] at here
      cases here
  · exact view.other d same _

theorem reply (view : View areas server c s o pending) {d : Fin n} {client client' : Client}
    (here : s.client d = some client) {q : Nat} {p : Parameter}
    (found : server.parameters[q]? = some p) (replied : client.reply q p = some client') :
    View areas server c (s.put d (some client')) o pending := by
  by_cases same : d = c
  · subst same
    have fits := view.fits client here
    simp only [Client.reply] at replied
    obtain ⟨⟨var, buf⟩, held, replied⟩ := Option.bind_eq_some_iff.mp replied
    split at replied
    · next var_eq =>
      cases replied
      refine view.own ⟨fits.impolite, fits.resting, fits.apart⟩ ?_ ?_
      · rintro r bytes (told | read)
        · by_cases this : q = r
          · -- the reply is what the session had read
            subst this
            rw [remembered_value_self] at told
            cases told
            exact ⟨client, here, .inr ⟨p, buf, found, rfl, .inl (by rw [held, var_eq])⟩⟩
          · rw [remembered_value_ne this] at told
            exact ⟨client, here, .inl told⟩
        · exact ⟨client, here, .inr read⟩
      · intro r bytes before at_c owes _
        rw [here] at at_c
        cases at_c
        exact owes
    · cases replied
  · exact view.other d same _

theorem drop (view : View areas server c s o pending) {d : Fin n} {client : Client}
    (here : s.client d = some client) :
    View areas server c (s.put d (some { client with held := none })) o pending := by
  by_cases same : d = c
  · subst same
    have fits := view.fits client here
    refine view.own ⟨fits.impolite, fun busy => fits.resting (.inl (by simpa using busy)),
      fun _ => rfl⟩ ?_ ?_
    · rintro q bytes (told | ⟨p, buf, found, read, held | mine⟩)
      · exact ⟨client, here, .inl told⟩
      · cases held
      · exact ⟨client, here, .inr ⟨p, buf, found, read, .inr mine⟩⟩
    · intro q bytes before at_c owes _
      rw [here] at at_c
      cases at_c
      exact owes
  · exact view.other d same _

/-- What waits for the client goes on to wait or is written, unless the session becomes
polite. -/
theorem owes_of_push {mainParam : Nat → Nat} {before next : PushSession.State}
    {action : PushSession.Action} (impolite : before.session.polite = false)
    (allowed : action ≠ .remoteHost true)
    (done : PushSession.step mainParam before action = some next) (q : Nat)
    (owes : q ∈ before.session.changedParameter ∨ q ∈ before.writes) :
    (q ∈ next.session.changedParameter ∨ q ∈ next.writes) ∨ action = .write q := by
  cases action with
  | parameterChanged p =>
      cases done
      simp only [PushSession.parameterChanged_of_not_polite impolite]
      exact .inl (owes.imp_left fun waits => List.mem_insert_iff.mpr (.inr waits))
  | setAIC p =>
      cases done
      exact .inl owes
  | remoteHost polite =>
      simp only [PushSession.step] at done
      split at done <;> cases done
      cases polite with
      | true => exact absurd rfl allowed
      | false => exact .inl owes
  | collect =>
      simp only [PushSession.step] at done
      split at done
      · next idle =>
        cases done
        rcases owes with waits | writes
        · by_cases taken : q ∈ (before.session.collect mainParam).1
          · exact .inl (.inr taken)
          · exact .inl (.inl (PushSession.left_iff.mpr ⟨taken, waits⟩))
        · rw [PushSession.State.writes, idle] at writes
          cases writes
      · cases done
  | write p =>
      simp only [PushSession.step] at done
      split at done
      · next cp writing =>
        split at done <;> cases done
        rcases owes with waits | writes
        · exact .inl (.inl waits)
        · by_cases same : q = p
          · exact .inr (by rw [same])
          · rw [PushSession.State.writes, writing] at writes
            exact .inl (.inr ((List.mem_erase_of_ne same).mpr writes))
      · cases done
  | finish =>
      simp only [PushSession.step] at done
      split at done
      · next nothing =>
        cases done
        rcases owes with waits | writes
        · exact .inl (.inl waits)
        · rw [PushSession.State.writes, nothing] at writes
          cases writes
      · cases done

/-- Only its own thread begins to write. -/
theorem cp_of_push {mainParam : Nat → Nat} {before next : PushSession.State}
    {action : PushSession.Action} (done : PushSession.step mainParam before action = some next)
    (others : ownThread action = false) : next.cp = before.cp := by
  cases action with
  | parameterChanged p =>
      cases done
      rfl
  | setAIC p =>
      cases done
      rfl
  | _ => cases others

theorem polite_of_push {mainParam : Nat → Nat} {before next : PushSession.State}
    {action : PushSession.Action} (impolite : before.session.polite = false)
    (allowed : action ≠ .remoteHost true)
    (done : PushSession.step mainParam before action = some next) :
    next.session.polite = false := by
  have steps := PushSession.steps_of_step impolite allowed done
  cases steps <;> exact impolite

theorem push (view : View areas server c s o pending) {d : Fin n} {client : Client}
    (here : s.client d = some client) {action : PushSession.Action}
    (allowed : d = c → action ≠ .remoteHost true)
    (free : ownThread action = true → s.calls.thread d = none ∧ client.held = none)
    {next : PushSession.State}
    (done : PushSession.step server.mainParamOf client.push action = some next) :
    View areas server c
      (s.put d (some { client with push := next, output := written action ++ client.output }))
      o pending := by
  by_cases same : d = c
  · subst same
    have fits := view.fits client here
    refine view.own ⟨polite_of_push fits.impolite (allowed rfl) done, ?_, ?_⟩ ?_ ?_
    · intro busy
      by_cases mine : ownThread action = true
      · exact (free mine).1
      · have cp := cp_of_push done (by simpa using mine)
        exact fits.resting (by simpa [cp] using busy)
    · intro busy
      by_cases mine : ownThread action = true
      · exact (free mine).2
      · have cp := cp_of_push done (by simpa using mine)
        exact fits.apart (by simpa [cp] using busy)
    · rintro q bytes (told | read)
      · refine ⟨client, here, .inl ?_⟩
        cases action with
        | write p =>
            by_cases this : p = q
            · subst this
              simp [written] at told
            · simpa [written, remembered_changed_ne this] using told
        | _ => exact told
      · exact ⟨client, here, .inr read⟩
    · intro q bytes before at_c owes knows
      rw [here] at at_c
      cases at_c
      refine (owes_of_push fits.impolite (allowed rfl) done q owes).resolve_right ?_
      -- with the `<pu>` the client forgets, and nothing is held for it
      rintro rfl
      obtain ⟨idle, none⟩ := free rfl
      rcases knows with told | ⟨p, buf, -, -, held | ⟨time, mine⟩⟩
      · simp [written] at told
      · simp [none] at held
      · rw [view.pending_of_idle idle] at mine
        cases mine
  · exact view.other d same _

/-! ### Telling the sessions -/

theorem mem_notices {root q : Nat} {call : Parameter.Call} {client : Client}
    (here : s.client c = some client)
    (marked : q ∈ (server.inform call.offset (call.offset + call.buf.length)
      server.parameters.length root).2) :
    (c, q) ∈ s.notices server root call := by
  simp only [State.notices, List.mem_flatMap, List.mem_filter, List.mem_finRange, true_and]
  exact ⟨c, by simp [here], List.mem_map.mpr ⟨q, marked, rfl⟩⟩

theorem announce (view : View areas server c s o pending) {t : Fin n} {call : Parameter.Call}
    (there : s.calls.thread t = some (.request (.paramChange call), .left (.set 0)))
    {root : Nat} (map : server.parameterMap call.mainParam = some root) :
    View areas server c
      { s with telling := Function.update s.telling t (some (s.notices server root call)) }
      o pending := by
  refine ⟨view.standing, ?_, ?_, view.fits, view.offline, view.reported⟩
  · apply view.coherent.move
    · exact fun q bytes knows => knows
    · rintro q bytes (owes | ⟨u, change, mine, reaches, telling⟩) ⟨client, here, -⟩
      · exact .inl owes
      · refine .inr ⟨u, change, mine, reaches, ?_⟩
        intro left tells
        by_cases same : u = t
        · subst same
          rw [view.pending_of_left there] at mine
          cases mine
          dsimp only at tells
          rw [Function.update_self] at tells
          cases tells
          -- every parameter the write reaches is marked
          obtain ⟨n', map', marks⟩ :=
            Server.marks_of_reports (view.reported u call _ there reaches.pos)
          rw [map] at map'
          cases map'
          obtain ⟨p, found, main, meets⟩ := reaches
          exact mem_notices here ((marks q).mpr ⟨p, found, main, meets⟩)
        · dsimp only at tells
          rw [Function.update_of_ne same] at tells
          exact telling left tells
  · intro u left tells
    by_cases same : u = t
    · subst same
      exact ⟨call, there⟩
    · dsimp only at tells
      rw [Function.update_of_ne same] at tells
      exact view.telling u left tells

/-- A session that is not polite takes note. -/
theorem owes_parameterChanged {client : Client} (impolite : client.push.session.polite = false)
    (p q : Nat) : (client.parameterChanged p).Owes q ↔ client.Owes q ∨ q = p := by
  simp only [Client.Owes, Client.parameterChanged, PushSession.State.writes,
    PushSession.parameterChanged_of_not_polite impolite, List.mem_insert_iff]
  tauto

theorem mark (view : View areas server c s o pending) {t d : Fin n} {p : Nat}
    {left : List (Fin n × Nat)} (tells : s.telling t = some left) :
    View areas server c
      { s.put d ((s.client d).map fun client => client.parameterChanged p) with
        telling := Function.update s.telling t (some (left.erase (d, p))) }
      o pending := by
  generalize made : ({ s.put d ((s.client d).map fun client => client.parameterChanged p) with
    telling := Function.update s.telling t (some (left.erase (d, p))) } : State App n) = after
  have clients : ∀ client', after.client c = some client' → ∃ client, s.client c = some client ∧
      (client' = client ∧ d ≠ c ∨ client' = client.parameterChanged p ∧ d = c) := by
    intro client' here
    rw [← made] at here
    exact client_of_map here
  have calls : after.calls = s.calls := by rw [← made]; rfl
  have tells' : after.telling = Function.update s.telling t (some (left.erase (d, p))) := by
    rw [← made]
  refine ⟨by rw [calls]; exact view.standing, ?_, ?_, ?_, ?_, by rw [calls]; exact view.reported⟩
  · apply view.coherent.move
    · rintro q bytes ⟨client', here, knows⟩
      obtain ⟨client, before, ⟨rfl, -⟩ | ⟨rfl, -⟩⟩ := clients client' here
      · exact ⟨client', before, knows⟩
      · exact ⟨client, before, knows⟩
    · rintro q bytes due ⟨client', here, -⟩
      obtain ⟨client, before, change⟩ := clients client' here
      have more : client.Owes q ∨ (d = c ∧ q = p) → client'.Owes q := by
        have impolite := (view.fits client before).impolite
        rcases change with ⟨rfl, apart⟩ | ⟨rfl, rfl⟩
        · exact fun owes => owes.resolve_right fun both => apart both.1
        · rw [owes_parameterChanged impolite]
          exact fun owes => owes.imp_right And.right
      rcases due with ⟨before', here', owes⟩ | ⟨u, call, mine, reaches, telling⟩
      · rw [before] at here'
        cases here'
        exact .inl ⟨client', here, more (.inl owes)⟩
      · by_cases marked : d = c ∧ q = p
        · exact .inl ⟨client', here, more (.inr marked)⟩
        · refine .inr ⟨u, call, mine, reaches, ?_⟩
          intro left' there
          rw [tells'] at there
          by_cases same : u = t
          · subst same
            rw [Function.update_self] at there
            cases there
            refine (List.mem_erase_of_ne ?_).mpr (telling left tells)
            intro equal
            cases equal
            exact marked ⟨rfl, rfl⟩
          · rw [Function.update_of_ne same] at there
            exact telling left' there
  · intro u left' there
    rw [calls]
    rw [tells'] at there
    by_cases same : u = t
    · subst same
      exact view.telling u left tells
    · rw [Function.update_of_ne same] at there
      exact view.telling u left' there
  · intro client' here
    rw [calls]
    obtain ⟨client, before, ⟨rfl, -⟩ | ⟨rfl, -⟩⟩ := clients client' here
    · exact view.fits client' before
    · have fits := view.fits client before
      refine ⟨?_, fits.resting, fits.apart⟩
      simpa only [Client.parameterChanged,
        PushSession.parameterChanged_of_not_polite fits.impolite] using fits.impolite
  · intro gone
    rw [calls]
    apply view.offline
    cases before : s.client c with
    | none => rfl
    | some client =>
        by_cases same : d = c
        · subst same
          simp [← made, State.put, before] at gone
        · simp [← made, State.put, Ne.symm same, before] at gone

/-! ### Steps of the calls -/

/-- An effect is that of a call under way. -/
theorem caller_of_effect {areas : SharedAreas} {callbacks : Callbacks App} {s : Sdo.State App n}
    {action : Sdo.Action App n} {t : Fin n} {call : Sdo.Call} {result : Sdo.Result}
    (effect : s.effect areas callbacks action = some ⟨t, call, result⟩) :
    ∃ phase, s.thread t = some (call, phase) := by
  cases action with
  | copyValue u =>
      simp only [Sdo.State.effect] at effect
      split at effect
      · next there =>
        cases effect
        exact ⟨_, there⟩
      · cases effect
  | run =>
      simp only [Sdo.State.effect] at effect
      obtain ⟨u, -, effect⟩ := Option.bind_eq_some_iff.mp effect
      split at effect
      · next there _ =>
        obtain ⟨⟨answer, object⟩, -, effect⟩ := Option.bind_eq_some_iff.mp effect
        obtain ⟨⟨value, main⟩, -, made⟩ := Option.map_eq_some_iff.mp effect
        cases made
        exact ⟨_, there⟩
      · cases effect
  | _ => cases effect

/-- A call goes on, takes effect or begins. -/
theorem calls (view : View (app.sharedAreas shmem) server c s o pending)
    {action : Sdo.Action App n} {next : Sdo.State App n}
    (inside : ∀ t change, action = .call t (.request (.paramChange change)) →
      change.offset + change.buf.length ≤ (app.sharedAreas shmem).memSize change.mainParam)
    (done : s.calls.step (app.sharedAreas shmem) callbacks action = some next)
    (fine : next.ipc_error = false) (quiet : s.calls.report action = none)
    (telling : ∀ t left, s.telling t = some left →
      ∃ call, next.thread t = some (.request (.paramChange call), .left (.set 0)))
    (fits : ∀ client, s.client c = some client → client.Fits (next.thread c))
    (offline : s.client c = none → next.thread c = none)
    (reported : ∀ t call phase, next.thread t = some (.request (.paramChange call), phase) →
      0 < call.buf.length → server.ReportsExactly call.mainParam call.offset call.buf.length) :
    ∃ o' pending', View (app.sharedAreas shmem) server c { s with calls := next } o' pending' := by
  obtain ⟨o', pending', standing, moves⟩ := view.standing.step inside done fine
  refine ⟨o', pending', standing, ?_, telling, fits, offline, reported⟩
  rw [quiet] at moves
  generalize happens : s.calls.effect (app.sharedAreas shmem) callbacks action = effect at moves
  cases moves with
  | stay => exact view.coherent
  | cycle cycled => exact view.coherent
  | effect t call first =>
      have untold : ∀ left, s.telling t ≠ some left := by
        intro left tells
        obtain ⟨change, there⟩ := view.telling t left tells
        rw [view.pending_of_left there] at first
        cases first
      apply view.coherent.step
      · intro q
        have within : ∀ change, call = .request (.paramChange change) →
            change.offset + change.buf.length ≤
              (app.sharedAreas shmem).memSize change.mainParam := by
          rintro change rfl
          obtain ⟨phase, there⟩ := caller_of_effect happens
          exact view.standing.inside t change phase there
        rcases store_apply app shmem callbacks server o call within q with
          same | ⟨change, rfl, accepted, reaches⟩
        · exact .inl same
        · refine .inr (.inr ⟨t, change, ?_, reaches, ?_⟩)
          · rw [Function.update_self, accepted]
          · exact fun left tells => absurd tells (untold left)
      · rintro q bytes ⟨client, here, told | ⟨p, buf, found, rfl, held | ⟨time, mine⟩⟩⟩
        · exact .inl ⟨client, here, .inl told⟩
        · exact .inl ⟨client, here, .inr ⟨p, buf, found, rfl, .inl held⟩⟩
        · by_cases same : c = t
          · subst same
            -- what was read just now
            rw [Function.update_self] at mine
            cases mine
            exact .inr (by simp [store, found, value, Sdo.Object.apply])
          · rw [Function.update_of_ne same] at mine
            exact .inl ⟨client, here, .inr ⟨p, buf, found, rfl, .inr ⟨time, mine⟩⟩⟩
      · rintro q bytes (owes | ⟨u, change, mine, reaches, tells⟩) -
        · exact .inl owes
        · have apart : u ≠ t := by
            rintro rfl
            rw [first] at mine
            cases mine
          exact .inr ⟨u, change, by rw [Function.update_of_ne apart]; exact mine, reaches, tells⟩

theorem sdo (view : View (app.sharedAreas shmem) server c s o pending)
    {action : Sdo.Action App n} (inner : within action = true) {next : Sdo.State App n}
    (done : s.calls.step (app.sharedAreas shmem) callbacks action = some next)
    (fine : next.ipc_error = false) :
    ∃ o' pending', View (app.sharedAreas shmem) server c { s with calls := next } o' pending' := by
  have goes := goes_of_step inner done
  refine view.calls app shmem ?_ done fine ?_ ?_ ?_ ?_ ?_
  · rintro t change rfl
    cases inner
  · cases action <;> first | rfl | cases inner
  · intro t left tells
    obtain ⟨call, there⟩ := view.telling t left tells
    exact ⟨call, goes.left there⟩
  · intro client here
    have fits := view.fits client here
    exact ⟨fits.impolite, fun busy => goes.idle (fits.resting busy), fits.apart⟩
  · exact fun gone => goes.idle (view.offline gone)
  · intro t call phase there
    obtain ⟨before, there⟩ := goes.call there
    exact view.reported t call before there

theorem command
    (view : View (app.sharedAreas shmem) server c s o pending) {d : Fin n} {client : Client}
    (here : s.client d = some client) (idle : client.push.cp = none) (free : client.held = none)
    {call : Sdo.Call} {next : Sdo.State App n}
    (inside : ∀ change, call = .request (.paramChange change) →
      change.offset + change.buf.length ≤ (app.sharedAreas shmem).memSize change.mainParam)
    (reports : ∀ change, call = .request (.paramChange change) → 0 < change.buf.length →
      server.ReportsExactly change.mainParam change.offset change.buf.length)
    (done : s.calls.step (app.sharedAreas shmem) callbacks (.call d call) = some next)
    (fine : next.ipc_error = false) :
    ∃ o' pending', View (app.sharedAreas shmem) server c { s with calls := next } o' pending' := by
  have begun : s.calls.thread d = none ∧ next = s.calls.put d call .called := by
    simp only [Sdo.State.step] at done
    split at done
    · next rests =>
      cases done
      exact ⟨rests, rfl⟩
    · cases done
  obtain ⟨rests, rfl⟩ := begun
  have others (t : Fin n) (apart : t ≠ d) :
      (s.calls.put d call .called).thread t = s.calls.thread t := Function.update_of_ne apart _ _
  refine view.calls app shmem ?_ done fine rfl ?_ ?_ ?_ ?_
  · rintro t change same
    cases same
    exact inside change rfl
  · intro t left tells
    obtain ⟨change, there⟩ := view.telling t left tells
    refine ⟨change, (others t ?_).trans there⟩
    rintro rfl
    rw [rests] at there
    cases there
  · intro client' at_c
    have fits := view.fits client' at_c
    by_cases same : c = d
    · subst same
      rw [here] at at_c
      cases at_c
      refine ⟨fits.impolite, fun busy => ?_, fits.apart⟩
      rcases busy with writes | holds
      · exact absurd idle writes
      · exact absurd free holds
    · rw [others c same]
      exact fits
  · intro gone
    rw [others c (by rintro rfl; rw [here] at gone; cases gone)]
    exact view.offline gone
  · intro t change phase there
    by_cases same : t = d
    · subst same
      simp only [Sdo.State.put, Function.update_self, Option.some.injEq, Prod.mk.injEq] at there
      exact reports change there.1
    · rw [others t same] at there
      exact view.reported t change phase there

/-- A call returns to its command. -/
theorem «return»
    (view : View (app.sharedAreas shmem) server c s o pending) {t : Fin n} {call : Sdo.Call}
    {result : Sdo.Result} (there : s.calls.thread t = some (call, .left result))
    (told : wrote call result = true → s.told t = true) {next : Sdo.State App n}
    (done : s.calls.step (app.sharedAreas shmem) callbacks (.return t) = some next)
    (fine : next.ipc_error = false) :
    ∃ o' pending', View (app.sharedAreas shmem) server c
      { s.put t ((s.client t).map fun client => client.receive call result) with
        calls := next
        telling := Function.update s.telling t none } o' pending' := by
  have mine := view.pending_of_left there
  have ended : next = { s.calls with thread := Function.update s.calls.thread t none } := by
    simp only [Sdo.State.step, there, Option.some.injEq] at done
    exact done.symm
  obtain ⟨o', pending', standing, moves⟩ := view.standing.step (by simp) done fine
  have report : s.calls.report (.return t) = some (t, call, result) := by
    simp only [Sdo.State.report, there]
  have effect : s.calls.effect (app.sharedAreas shmem) callbacks (.return t) = none := rfl
  rw [report, effect] at moves
  subst ended
  cases moves with
  | report u _ reported =>
      generalize made : ({ s.put t ((s.client t).map fun client => client.receive call result) with
        calls := { s.calls with thread := Function.update s.calls.thread t none }
        telling := Function.update s.telling t none } : State App n) = after
      have calls : after.calls =
          { s.calls with thread := Function.update s.calls.thread t none } := by rw [← made]
      have telling : after.telling = Function.update s.telling t none := by rw [← made]
      have clients : ∀ client', after.client c = some client' → ∃ client,
          s.client c = some client ∧ (client' = client ∧ t ≠ c ∨
            client' = client.receive call result ∧ t = c) := by
        intro client' here
        rw [← made] at here
        exact client_of_map here
      have kept : ∀ client : Client, (client.receive call result).push = client.push ∧
          (client.receive call result).output = client.output := by
        intro client
        unfold Client.receive
        split <;> exact ⟨rfl, rfl⟩
      refine ⟨o, Function.update pending t none, by rw [calls]; exact standing, ?_, ?_, ?_, ?_, ?_⟩
      · apply view.coherent.move
        · rintro q bytes ⟨client', here, knows⟩
          obtain ⟨client, before, ⟨rfl, apart⟩ | ⟨rfl, rfl⟩⟩ := clients client' here
          · rw [Function.update_of_ne (Ne.symm apart)] at knows
            exact ⟨client', before, knows⟩
          · refine ⟨client, before, ?_⟩
            rcases knows with told | ⟨p, buf, found, read, held | ⟨time, none⟩⟩
            · exact .inl ((kept client).2 ▸ told)
            · refine .inr ⟨p, buf, found, read, ?_⟩
              unfold Client.receive at held
              split at held
              · next var value time =>
                -- the buffer is the one `getValue` has filled
                cases held
                exact .inr ⟨time, mine⟩
              · exact .inl held
            · simp at none
        · rintro q bytes (⟨before', here', owes⟩ | ⟨u, change, waits, reaches, tells⟩)
            ⟨client', here, -⟩
          · obtain ⟨client, before, change⟩ := clients client' here
            rw [before] at here'
            cases here'
            refine .inl ⟨client', here, ?_⟩
            rcases change with ⟨rfl, -⟩ | ⟨rfl, -⟩
            · exact owes
            · simpa only [Client.Owes, (kept before').1] using owes
          · have apart : u ≠ t := by
              -- a write returns when all were told
              rintro rfl
              rw [mine] at waits
              cases waits
              have all := told rfl
              unfold State.told at all
              cases left : s.telling u with
              | none => simp [left] at all
              | some notices =>
                  have member := tells notices left
                  rw [left, Option.any_some, List.isEmpty_iff] at all
                  rw [all] at member
                  cases member
            refine .inr ⟨u, change, by rw [Function.update_of_ne apart]; exact waits, reaches, ?_⟩
            rw [telling, Function.update_of_ne apart]
            exact tells
      · intro u left tells
        rw [telling] at tells
        rw [calls]
        by_cases same : u = t
        · subst same
          simp at tells
        · rw [Function.update_of_ne same] at tells
          dsimp only
          rw [Function.update_of_ne same]
          exact view.telling u left tells
      · intro client' here
        rw [calls]
        dsimp only
        obtain ⟨client, before, ⟨rfl, apart⟩ | ⟨rfl, rfl⟩⟩ := clients client' here
        · rw [Function.update_of_ne (Ne.symm apart)]
          exact view.fits client' before
        · have fits := view.fits client before
          refine ⟨?_, fun _ => Function.update_self .., ?_⟩
          · rw [(kept client).1]
            exact fits.impolite
          intro writes
          rw [(kept client).1] at writes
          rw [fits.resting (.inl writes)] at there
          cases there
      · intro gone
        rw [calls]
        dsimp only
        by_cases same : c = t
        · subst same
          exact Function.update_self ..
        · rw [Function.update_of_ne same]
          apply view.offline
          rw [← made] at gone
          simpa [State.put, same] using gone
      · intro u change phase at_u
        rw [calls] at at_u
        by_cases same : u = t
        · subst same
          simp at at_u
        · dsimp only at at_u
          rw [Function.update_of_ne same] at at_u
          exact view.reported u change phase at_u

end View

/-! ### Every run -/

/-- The session stays impolite, and writes stay inside their parameter and in the tree that
is told of them. -/
def Allowed (server : Server) (c : Fin n) (_ : State App n) : Action App n → Prop
  | .command _ (.request (.paramChange call)) =>
      ∃ param, app.parameters[call.mainParam]? = some param ∧
        call.offset + call.buf.length ≤ param.memSize ∧
        (0 < call.buf.length →
          server.LastTreeOnly call.mainParam call.offset (call.offset + call.buf.length))
  | .push d action => d = c → action ≠ .remoteHost true
  | _ => True

theorem memSize_eq {var : Nat} {param : MainParameter} (found : app.parameters[var]? = some param) :
    (app.sharedAreas shmem).memSize var = param.memSize := by
  obtain ⟨short, same⟩ := List.getElem?_eq_some_iff.mp found
  have placed : var < (app.parameterAreas (ptr_align shmem)).length := by
    simp [Application.parameterAreas, Application.length_placeParameters, short]
  simp only [Application.sharedAreas, List.getElem?_eq_getElem placed, Option.elim_some]
  simp [Application.parameterAreas, same]

variable {app} {shmem}

/-- Every step keeps it, as long as no pipe fails. -/
theorem View.step {itemize : Bool} {c : Fin n} {s after : State App n} {o : Sdo.Object App}
    {pending : Fin n → Option (Sdo.Call × Sdo.Result)}
    (view : View (app.sharedAreas shmem) (Server.createParameters itemize app.parameters) c s o
      pending)
    {action : Action App n}
    (allowed : Allowed app (Server.createParameters itemize app.parameters) c s action)
    (done : s.step (app.sharedAreas shmem) callbacks
      (Server.createParameters itemize app.parameters) action = some after)
    (fine : after.calls.ipc_error = false) :
    ∃ o' pending', View (app.sharedAreas shmem) (Server.createParameters itemize app.parameters) c
      after o' pending' := by
  cases action with
  | connect d =>
      simp only [State.step] at done
      split at done
      · next free =>
        cases done
        simp only [Bool.and_eq_true, Option.isNone_iff_eq_none] at free
        exact ⟨o, pending, view.connect d free.2⟩
      · cases done
  | close d =>
      simp only [State.step] at done
      split at done
      · next free =>
        cases done
        simp only [Bool.and_eq_true, Option.isNone_iff_eq_none] at free
        exact ⟨o, pending, view.close d free.2⟩
      · cases done
  | command d call =>
      obtain ⟨client, here, done⟩ := Option.bind_eq_some_iff.mp done
      split at done
      · next free =>
        obtain ⟨next, went, rfl⟩ := Option.map_eq_some_iff.mp done
        simp only [Bool.and_eq_true, Option.isNone_iff_eq_none] at free
        refine view.command app shmem here free.1 free.2 ?_ ?_ went fine
        · rintro change rfl
          obtain ⟨param, found, fits, -⟩ := allowed
          rw [memSize_eq app shmem found]
          exact fits
        · rintro change rfl some
          obtain ⟨param, found, fits, last⟩ := allowed
          exact (Server.reportsExactly_iff itemize app.parameters change.mainParam param
            change.offset change.buf.length found some fits).mpr (last some)
      · cases done
  | sdo action =>
      simp only [State.step] at done
      split at done
      · next inner =>
        obtain ⟨next, went, rfl⟩ := Option.map_eq_some_iff.mp done
        exact view.sdo app shmem inner went fine
      · cases done
  | announce t =>
      simp only [State.step] at done
      split at done
      · next call rv there =>
        split at done
        · next free =>
          obtain ⟨root, map, rfl⟩ := Option.map_eq_some_iff.mp done
          rw [free.1] at there
          exact ⟨o, pending, view.announce there map⟩
        · cases done
      · cases done
  | mark t d q =>
      obtain ⟨left, tells, done⟩ := Option.bind_eq_some_iff.mp done
      split at done
      · cases done
        exact ⟨o, pending, view.mark tells⟩
      · cases done
  | «return» t =>
      simp only [State.step] at done
      split at done
      · next call result there =>
        split at done
        · cases done
        · next told =>
          obtain ⟨next, went, rfl⟩ := Option.map_eq_some_iff.mp done
          exact view.return app shmem there (by simpa using told) went fine
      · cases done
  | reply d q =>
      obtain ⟨client, here, done⟩ := Option.bind_eq_some_iff.mp done
      obtain ⟨p, found, done⟩ := Option.bind_eq_some_iff.mp done
      obtain ⟨client', replied, rfl⟩ := Option.map_eq_some_iff.mp done
      exact ⟨o, pending, view.reply here found replied⟩
  | drop d =>
      obtain ⟨client, here, rfl⟩ := Option.map_eq_some_iff.mp done
      exact ⟨o, pending, view.drop here⟩
  | push d action =>
      obtain ⟨client, here, done⟩ := Option.bind_eq_some_iff.mp done
      split at done
      · cases done
      · next free =>
        obtain ⟨next, went, rfl⟩ := Option.map_eq_some_iff.mp done
        refine ⟨o, pending, view.push here allowed ?_ went⟩
        intro mine
        simpa [mine] using free

theorem ipc_error_of_step {server : Server} {areas : SharedAreas} {s after : State App n}
    {action : Action App n} (done : s.step areas callbacks server action = some after)
    (fine : after.calls.ipc_error = false) : s.calls.ipc_error = false := by
  cases action with
  | command d call =>
      obtain ⟨client, here, done⟩ := Option.bind_eq_some_iff.mp done
      split at done
      · obtain ⟨next, went, rfl⟩ := Option.map_eq_some_iff.mp done
        exact Sdo.ipc_error_of_step went fine
      · cases done
  | sdo action =>
      simp only [State.step] at done
      split at done
      · obtain ⟨next, went, rfl⟩ := Option.map_eq_some_iff.mp done
        exact Sdo.ipc_error_of_step went fine
      · cases done
  | «return» t =>
      simp only [State.step] at done
      split at done
      · split at done
        · cases done
        · obtain ⟨next, went, rfl⟩ := Option.map_eq_some_iff.mp done
          exact Sdo.ipc_error_of_step went fine
      · cases done
  | _ => grind [State.step, State.put, Option.bind_eq_some_iff, Option.map_eq_some_iff]

theorem View.start (areas : SharedAreas) (server : Server) (c : Fin n) (main : MainState)
    (application : App) :
    ∃ o pending, View areas server c (State.start main application) o pending := by
  obtain ⟨o, pending, standing, -⟩ :=
    Sdo.SdoRun.holds_start (n := n) areas ⟨fun app _ _ => ((0, 0, 0), app),
      fun app _ => (([], 0, 0), app)⟩ main application rfl
  refine ⟨o, pending, standing, ?_, ?_, ?_, fun _ => rfl, ?_⟩
  · apply Coherent.start
    rintro q bytes ⟨client, here, -⟩
    cases here
  · rintro t left ⟨⟩
  · rintro client ⟨⟩
  · rintro t call phase ⟨⟩

/-- Who has changed a parameter holds its lock. -/
theorem writes_of_pending {areas : SharedAreas} {s : Sdo.State App n} {o : Sdo.Object App}
    {pending : Fin n → Option (Sdo.Call × Sdo.Result)} (standing : Sdo.Standing areas s o pending)
    {t : Fin n} {call : Parameter.Call} {result : Sdo.Result}
    (mine : pending t = some (.request (.paramChange call), result)) :
    (s.thread t).writes call.mainParam = true := by
  by_cases exclusive : (s.thread t).exclusive = true
  · cases standing.stands with
    | free alone => simp [alone t] at exclusive
    | entered u request there alone requests answers supervisor same first =>
        rw [alone t exclusive, first] at mine
        cases mine
    | asked u request backup there alone message answers app copied first =>
        rw [alone t exclusive, first] at mine
        cases mine
    | served u request backup answer result' there alone requests message app length finish done =>
        rw [alone t exclusive] at mine ⊢
        rw [done] at mine
        cases mine
        simp [there, Sdo.Thread.writes]
  · rw [standing.left t (by simpa using exclusive)] at mine
    unfold Sdo.Thread.result at mine
    split at mine
    · next there =>
      cases mine
      simp [there, Sdo.Thread.writes]
    · cases mine

def Viewed (areas : SharedAreas) (server : Server) (c : Fin n) (s : State App n) : Prop :=
  s.calls.ipc_error = false → ∃ o pending, View areas server c s o pending

/-- What a client was told last of a parameter is what the parameter is now, or word of a
change is on its way: the parameter is being written, or a `<pu>` waits to be written. -/
theorem told_is_current (app : Application) (shmem : Nat) (callbacks : Callbacks App)
    (itemize : Bool) (main : MainState) (application : App) (c : Fin n) (s : State App n)
    (run : Transition.Reaches
      (State.step (app.sharedAreas shmem) callbacks
        (Server.createParameters itemize app.parameters))
      (Allowed app (Server.createParameters itemize app.parameters) c)
      (State.start main application) s)
    (fine : s.calls.ipc_error = false) (client : Client) (connected : s.client c = some client)
    (q : Nat) (p : Parameter)
    (found : (Server.createParameters itemize app.parameters).parameters[q]? = some p)
    (bytes : List Byte) (told : remembered q client.output = some bytes) :
    (∃ t, (s.calls.thread t).writes p.mainParam = true) ∨
      q ∈ client.push.session.changedParameter ∨ q ∈ client.push.writes ∨
      bytes = p.part (value (app.sharedAreas shmem) s.calls.toObject p.mainParam) := by
  have holds : Viewed (app.sharedAreas shmem)
      (Server.createParameters itemize app.parameters) c s := by
    refine run.invariant (fun _ => View.start _ _ c main application) ?_
    intro before action after holds allowed done fine
    obtain ⟨o, pending, view⟩ := holds (ipc_error_of_step done fine)
    exact view.step allowed done fine
  obtain ⟨o, pending, view⟩ := holds fine
  by_cases written : ∃ t, (s.calls.thread t).writes p.mainParam = true
  · exact .inl written
  · have unwritten : ∀ t, (s.calls.thread t).writes p.mainParam = false := by simpa using written
    rcases view.coherent q bytes ⟨client, connected, .inl told⟩ with
      current | ⟨client', here, waits | writes⟩ | ⟨t, call, mine, ⟨p', found', main', -⟩, -⟩
    · refine .inr (.inr (.inr ?_))
      have seen := view.standing.value callbacks unwritten
      simp only [Sdo.Object.apply, Prod.mk.injEq, Sdo.Result.value.injEq] at seen
      rw [value, seen.1.1, ← current]
      simp [store, found, value]
    · rw [connected] at here
      cases here
      exact .inr (.inl waits)
    · rw [connected] at here
      cases here
      exact .inr (.inr (.inl writes))
    · rw [found] at found'
      cases found'
      have holds := writes_of_pending view.standing mine
      rw [← main', unwritten t] at holds
      cases holds

/-! A client reads a vector, another one writes its second element. -/

def vector : Application where
  parameters := [Server.vectorParameter]
  tasks := []
  events := []

def vectorServer : Server := Server.createParameters false vector.parameters

/-- Takes every value. -/
def takesAll : Callbacks Nat where
  write_cb app _ _ := ((0, (1, 0)), app + 1)
  read_cb app _ := (([], (0, 0)), app)

def secondElement : Parameter.Call := ⟨0, 8, [1, 2, 3, 4, 5, 6, 7, 8]⟩


def readsVector : List (Action Nat 2) :=
  [.command Sdo.firstThread (.getValue 0), .sdo (.lock Sdo.firstThread),
    .sdo (.copyValue Sdo.firstThread), .return Sdo.firstThread, .reply Sdo.firstThread 0,
    .drop Sdo.firstThread]

def writesVector : List (Action Nat 2) :=
  [.command Sdo.secondThread (.request (.paramChange secondElement)),
    .sdo (.lock Sdo.secondThread), .sdo (.enter Sdo.secondThread), .sdo (.ask Sdo.secondThread),
    .sdo .take, .sdo .run, .sdo .answer, .sdo (.finish Sdo.secondThread),
    .announce Sdo.secondThread, .mark Sdo.secondThread Sdo.firstThread 0,
    .mark Sdo.secondThread Sdo.secondThread 0, .return Sdo.secondThread]

def vectorStart : State Nat 2 := State.start ⟨fun _ => 7, fun _ => (0, 0)⟩ 4

def vectorChecks (_ : State Nat 2) : Action Nat 2 → Bool
  | .command _ (.request (.paramChange call)) => call == secondElement
  | .push _ (.remoteHost _) => false
  | _ => true

theorem vector_lastTreeOnly : vectorServer.LastTreeOnly 0 8 16 := by
  have only : ∀ (m : Nat) (q : Parameter), vectorServer.parameters[m]? = some q → m = 0 := by
    intro m q found
    have short := (List.getElem?_eq_some_iff.mp found).1
    have one : vectorServer.parameters.length = 1 := by decide
    omega
  refine ⟨0, _, rfl, rfl, rfl, ?_, ?_, fun none => absurd none (by decide)⟩
  · rintro m ⟨q, found, -⟩
    exact Nat.le_of_eq (only m q found)
  · intro m q found _ apart
    exact absurd (only m q found) apart

theorem vectorChecks_sound (s : State Nat 2) (action : Action Nat 2)
    (checked : vectorChecks s action = true) :
    Allowed vector vectorServer Sdo.firstThread s action := by
  cases action with
  | command d call =>
      cases call with
      | getValue var => trivial
      | request request =>
          cases request with
          | pollSignal signal => trivial
          | paramChange change =>
              obtain rfl : change = secondElement := eq_of_beq checked
              exact ⟨Server.vectorParameter, rfl, by decide, fun _ => vector_lastTreeOnly⟩
  | push d action =>
      cases action with
      | remoteHost polite => cases checked
      | _ => exact fun _ => nofun
  | _ => trivial

/-- The reader is told of the change when its cycle comes to it, and reads again. -/
def vectorActions : List (Action Nat 2) :=
  [.connect Sdo.firstThread, .connect Sdo.secondThread] ++ readsVector ++ writesVector ++
    [.push Sdo.firstThread .collect, .push Sdo.firstThread (.write 0),
      .push Sdo.firstThread .finish] ++ readsVector

def vectorRun : State Nat 2 :=
  (Transition.perform (State.step (vector.sharedAreas 4096) takesAll vectorServer) vectorChecks
    vectorActions vectorStart).getD vectorStart

def vectorReader : Client := (vectorRun.client Sdo.firstThread).getD Client.new

theorem told_is_current_vector :
    vectorReader.output =
      [.value 0 (List.replicate 8 7 ++ [1, 2, 3, 4, 5, 6, 7, 8] ++ List.replicate 8 7),
        .changed 0, .value 0 (List.replicate 24 7)] ∧
    ((∃ t, (vectorRun.calls.thread t).writes 0 = true) ∨
      0 ∈ vectorReader.push.session.changedParameter ∨ 0 ∈ vectorReader.push.writes ∨
      List.replicate 8 7 ++ [1, 2, 3, 4, 5, 6, 7, 8] ++ List.replicate 8 7 =
        Parameter.part ⟨0, .primary .double, ⟨[3], DimType.positive_three⟩, 0, false, false, none⟩
          (value (vector.sharedAreas 4096) vectorRun.calls.toObject 0)) := by
  have possible : (Transition.perform (State.step (vector.sharedAreas 4096) takesAll vectorServer)
      vectorChecks vectorActions vectorStart).isSome = true := by decide +kernel
  have done : Transition.perform (State.step (vector.sharedAreas 4096) takesAll vectorServer)
      vectorChecks vectorActions vectorStart = some vectorRun := by
    obtain ⟨last, reached⟩ := Option.isSome_iff_exists.mp possible
    rw [vectorRun, reached, Option.getD_some]
  have there : (vectorRun.client Sdo.firstThread).isSome = true := by decide +kernel
  have connected : vectorRun.client Sdo.firstThread = some vectorReader := by
    obtain ⟨client, here⟩ := Option.isSome_iff_exists.mp there
    rw [vectorReader, here, Option.getD_some]
  have output : vectorReader.output =
      [.value 0 (List.replicate 8 7 ++ [1, 2, 3, 4, 5, 6, 7, 8] ++ List.replicate 8 7),
        .changed 0, .value 0 (List.replicate 24 7)] := by decide +kernel
  refine ⟨output, ?_⟩
  exact told_is_current vector 4096 takesAll false ⟨fun _ => 7, fun _ => (0, 0)⟩ 4
    Sdo.firstThread vectorRun (.perform vectorChecks_sound .start done) (by decide +kernel)
    vectorReader connected 0
    ⟨0, .primary .double, ⟨[3], DimType.positive_three⟩, 0, false, false, none⟩ rfl _
    (by rw [output]; rfl)

end Coherence

end PdServ
