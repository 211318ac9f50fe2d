import PdServ.CompoundFields
import PdServ.Transition

/-!
Messages from one client to all others: `Server::broadcast`, `sessionClosed` and the
accepting loop of `Server::run`, and of a session `broadcast`, `remoteHost` and the part
of `Session::run` that writes what was collected. A thread of a session takes the messages
over under its own mutex and writes them afterwards, while others may come in; the mutex
of the server is held through the loop over the sessions.
-/

namespace PdServ

/-- `Session::Broadcast`. The strings come from `getString`, which reads C strings. -/
structure Broadcast where
  ts : Timespec
  action : List Byte
  message : List Byte
  plainAction : ∀ c ∈ action, c ≠ Chr.nul
  plainMessage : ∀ c ∈ message, c ≠ Chr.nul
deriving DecidableEq

namespace Broadcast
open XmlElement (TagForm Children Content Document Shown)

def broadcastTag : TagForm := ⟨⟨98, ascii "roadcast", by decide, by decide⟩, by decide⟩

theorem isalpha_a : isalpha 97 = true := by decide

namespace Key
def action : NameForm := ⟨97, ascii "ction", isalpha_a, by decide⟩
end Key

/-- The attributes of the element; strings that are empty are not written. -/
def contents (b : Broadcast) : List Content :=
  XmlElement.timeContent b.ts ::
    ((if b.action = [] then [] else [⟨Key.action, b.action, b.plainAction⟩]) ++
      if b.message = [] then [] else [⟨Variable.Key.text, b.message, b.plainMessage⟩])

def shown (b : Broadcast) : Shown := (broadcastTag, b.contents)

/-- What `Session::run` writes. No command is being answered, so there is no id. -/
def document (b : Broadcast) : Document := ⟨broadcastTag, b.contents, .none, [], nofun⟩

end Broadcast

/-! ### What a session writes -/

/-- A reply or another message to the client, which holds no `<broadcast>`. -/
structure OtherDocument extends XmlElement.Document where
  other : ∀ shown ∈ toDocument.shown, shown.1.bytes ≠ Broadcast.broadcastTag.bytes

inductive SessionMessage where
  | broadcast (b : Broadcast)
  | other (d : OtherDocument)

def SessionMessage.document : SessionMessage → XmlElement.Document
  | .broadcast b => b.document
  | .other d => d.toDocument

def SessionMessage.isBroadcast : SessionMessage → Option Broadcast
  | .broadcast b => some b
  | .other _ => none

/-- Of a session what has to do with broadcasts. `round` is the list of the block behind
the swap, as far as it is not written yet. -/
structure Listener where
  polite : Bool
  broadcastList : List Broadcast
  round : List Broadcast
  output : List SessionMessage

namespace Listener

def new : Listener := ⟨false, [], [], []⟩

/-- `Session::broadcast(s, ts, action, message)` -/
def broadcast (l : Listener) (b : Broadcast) : Listener :=
  if l.polite then l else { l with broadcastList := l.broadcastList ++ [b] }

/-- The block of `remoteHost` under the mutex. -/
def remoteHost (l : Listener) (polite : Bool) : Listener :=
  { l with polite := polite, broadcastList := if polite then [] else l.broadcastList }

/-- What was written, is being written and waits. -/
def got (l : Listener) : List Broadcast :=
  l.output.filterMap SessionMessage.isBroadcast ++ l.round ++ l.broadcastList

end Listener

/-! ### The server -/

inductive BroadcastAction where
  /-- a client connects while there are too many -/
  | reject
  | accept (session : Nat)
  | sessionClosed (session : Nat)
  /-- a thread takes the mutex; `order` is that of the addresses of the sessions -/
  | broadcast (b : Broadcast) (order : List Nat)
  /-- one round of its loop -/
  | deliver
  /-- it is done -/
  | unlock
  | remoteHost (session : Nat) (polite : Bool)
  | swap (session : Nat)
  | write (session : Nat)
  | reply (session : Nat) (d : OtherDocument)

/-- `sending` is the holder of the mutex in `broadcast`, with the sessions its loop has
still to come to; the history begins with the last step. -/
structure Listeners where
  sessions : List Nat
  session : Nat → Listener
  sending : Option (Broadcast × List Nat)
  history : List BroadcastAction

namespace Listeners

variable (maxConnections : Nat)

def start : Listeners := ⟨[], fun _ => .new, none, []⟩

/-- A step of the thread of one session. -/
def turn (s : Listeners) (n : Nat) (l : Option Listener) : Option Listeners :=
  if n ∈ s.sessions then l.map fun l => { s with session := Function.update s.session n l }
  else none

/-- None where the step has to wait. -/
def act (s : Listeners) : BroadcastAction → Option Listeners
  | .reject => if s.sessions.length = maxConnections then some s else none
  | .accept n =>
      if s.sessions.length ≠ maxConnections ∧ s.sending.isNone ∧ n ∉ s.sessions then
        some { s with sessions := n :: s.sessions, session := Function.update s.session n .new }
      else none
  | .sessionClosed n =>
      if n ∈ s.sessions ∧ s.sending.isNone then some { s with sessions := s.sessions.erase n }
      else none
  | .broadcast b order =>
      if s.sending.isNone ∧ order.Perm s.sessions then some { s with sending := some (b, order) }
      else none
  | .deliver =>
      match s.sending with
      | some (b, n :: rest) =>
          some { s with
            session := Function.update s.session n ((s.session n).broadcast b)
            sending := some (b, rest) }
      | _ => none
  | .unlock =>
      match s.sending with
      | some (_, []) => some { s with sending := none }
      | _ => none
  | .remoteHost n polite =>
      s.turn n (if (s.session n).round = [] then some ((s.session n).remoteHost polite) else none)
  | .swap n =>
      let l := s.session n
      s.turn n (if l.round = [] then
        some { l with round := l.broadcastList, broadcastList := [] } else none)
  | .write n =>
      let l := s.session n
      s.turn n (match l.round with
        | b :: rest => some { l with round := rest, output := l.output ++ [.broadcast b] }
        | [] => none)
  | .reply n d =>
      let l := s.session n
      s.turn n (some { l with output := l.output ++ [.other d] })

def step (s : Listeners) (action : BroadcastAction) : Option Listeners :=
  (s.act maxConnections action).map fun after => { after with history := action :: s.history }

abbrev Run : Listeners → Prop := Transition.Reaches (step maxConnections) Transition.anyStep start

/-! ### What there is to hear -/

/-- The messages sent since a session was accepted. -/
def sentSince (n : Nat) : List BroadcastAction → List Broadcast
  | [] => []
  | .accept m :: older => if m = n then [] else sentSince n older
  | .broadcast b _ :: older => sentSince n older ++ [b]
  | _ :: older => sentSince n older

/-- The client has asked for silence since then. -/
def askedForSilence (n : Nat) : List BroadcastAction → Bool
  | [] => false
  | .accept m :: older => if m = n then false else askedForSilence n older
  | .remoteHost m true :: older => m = n || askedForSilence n older
  | _ :: older => askedForSilence n older

/-- The message that is being sent and has not come to the session yet. -/
def pending (s : Listeners) (n : Nat) : List Broadcast :=
  match s.sending with
  | some (b, rest) => if n ∈ rest then [b] else []
  | none => []

end Listeners

/-! ### What one step does -/

open scoped List

namespace Listener

theorem got_broadcast (l : Listener) (b : Broadcast) :
    (l.broadcast b).got = l.got ++ if l.polite then [] else [b] := by
  rw [broadcast]
  split <;> simp [got]

theorem got_remoteHost (l : Listener) (polite : Bool) :
    (l.remoteHost polite).got <+ l.got ∧
      (polite = false → (l.remoteHost polite).got = l.got) := by
  cases polite with
  | true =>
      refine ⟨?_, nofun⟩
      simp only [got, remoteHost, if_true, List.append_nil]
      exact List.sublist_append_left _ _
  | false => exact ⟨List.Sublist.refl _, fun _ => rfl⟩

theorem got_swap {l : Listener} (idle : l.round = []) :
    ({ l with round := l.broadcastList, broadcastList := [] } : Listener).got = l.got := by
  simp [got, idle]

theorem got_write {l : Listener} {b : Broadcast} {rest : List Broadcast}
    (round : l.round = b :: rest) :
    ({ l with round := rest, output := l.output ++ [.broadcast b] } : Listener).got = l.got := by
  simp [got, round, SessionMessage.isBroadcast]

theorem got_reply (l : Listener) (d : OtherDocument) :
    ({ l with output := l.output ++ [.other d] } : Listener).got = l.got := by
  simp [got, SessionMessage.isBroadcast]

end Listener

namespace Listeners

/-- A session has or gets what was sent since it was accepted, in the order in which it was
sent, and all of it where the client has not asked for silence. -/
structure Hears (s : Listeners) (n : Nat) : Prop where
  impolite : askedForSilence n s.history = false → (s.session n).polite = false
  all : askedForSilence n s.history = false →
    (s.session n).got ++ s.pending n = sentSince n s.history
  ordered : (s.session n).got ++ s.pending n <+ sentSince n s.history

structure Heard (maxConnections : Nat) (s : Listeners) : Prop where
  bounded : s.sessions.length ≤ maxConnections
  nodup : s.sessions.Nodup
  remaining : ∀ b rest, s.sending = some (b, rest) → rest.Nodup ∧ ∀ n ∈ rest, n ∈ s.sessions
  hears : ∀ n ∈ s.sessions, s.Hears n

variable {maxConnections : Nat} {s after : Listeners} {action : BroadcastAction}

/-- Nothing is new for a session. -/
theorem Hears.same {n : Nat} (hears : s.Hears n) (session : after.session n = s.session n)
    (pending : after.pending n = s.pending n)
    (sent : sentSince n after.history = sentSince n s.history)
    (asked : askedForSilence n after.history = askedForSilence n s.history) : after.Hears n where
  impolite quiet := by
    rw [session]
    exact hears.impolite (asked ▸ quiet)
  all quiet := by
    rw [session, pending, sent]
    exact hears.all (asked ▸ quiet)
  ordered := by
    rw [session, pending, sent]
    exact hears.ordered

/-- A step of one session, which loses nothing without being asked to. -/
theorem Heard.turn (heard : s.Heard maxConnections) {n : Nat} {l : Option Listener}
    (done : s.turn n l = some after)
    (sent : ∀ m, sentSince m (action :: s.history) = sentSince m s.history)
    (asked : ∀ m, m ≠ n → askedForSilence m (action :: s.history) = askedForSilence m s.history)
    (kept : ∀ l', l = some l' → l'.got <+ (s.session n).got ∧
      (askedForSilence n (action :: s.history) = false → askedForSilence n s.history = false ∧
        l'.got = (s.session n).got ∧ (l'.polite = true → (s.session n).polite = true))) :
    ({ after with history := action :: s.history } : Listeners).Heard maxConnections := by
  rw [Listeners.turn] at done
  split at done
  · obtain ⟨l', rfl, rfl⟩ := Option.map_eq_some_iff.mp done
    obtain ⟨less, same⟩ := kept l' rfl
    refine ⟨heard.bounded, heard.nodup, heard.remaining, fun m inside => ?_⟩
    have before := heard.hears m inside
    by_cases here : m = n
    · subst here
      have self : Function.update s.session m l' m = l' := Function.update_self ..
      constructor
      · intro quiet
        obtain ⟨earlier, -, polite⟩ := same quiet
        have impolite := before.impolite earlier
        dsimp only
        rw [self]
        cases now : l'.polite with
        | false => rfl
        | true => rw [polite now] at impolite; exact impolite
      · intro quiet
        obtain ⟨earlier, got, -⟩ := same quiet
        dsimp only
        rw [self, got, sent]
        exact before.all earlier
      · dsimp only
        rw [self, sent]
        exact (less.append_right _).trans before.ordered
    · exact before.same (Function.update_of_ne here ..) rfl (sent m) (asked m here)
  · cases done

theorem Heard.accept (heard : s.Heard maxConnections) {n : Nat}
    (room : s.sessions.length ≠ maxConnections) (idle : s.sending = none) (fresh : n ∉ s.sessions) :
    ({ s with
      sessions := n :: s.sessions
      session := Function.update s.session n .new
      history := .accept n :: s.history } : Listeners).Heard maxConnections := by
  refine ⟨?_, List.nodup_cons.mpr ⟨fresh, heard.nodup⟩, ?_, fun m inside => ?_⟩
  · have bound := heard.bounded
    rw [List.length_cons]
    omega
  · intro b rest sending
    rw [idle] at sending
    cases sending
  · by_cases here : m = n
    · subst here
      constructor
      · intro _
        dsimp only
        rw [Function.update_self]
        rfl
      · intro _
        simp [pending, idle, sentSince, Listener.new, Listener.got]
      · simp [pending, idle, sentSince, Listener.new, Listener.got]
    · have before := heard.hears m ((List.mem_cons.mp inside).resolve_left here)
      exact before.same (Function.update_of_ne here ..) rfl (if_neg (Ne.symm here))
        (if_neg (Ne.symm here))

theorem Heard.broadcast (heard : s.Heard maxConnections) {b : Broadcast} {order : List Nat}
    (idle : s.sending = none) (perm : order.Perm s.sessions) :
    ({ s with
      sending := some (b, order)
      history := .broadcast b order :: s.history } : Listeners).Heard maxConnections := by
  refine ⟨heard.bounded, heard.nodup, ?_, fun m inside => ?_⟩
  · intro b rest sending
    cases sending
    exact ⟨perm.nodup_iff.mpr heard.nodup, fun m => perm.mem_iff.mp⟩
  · have before := heard.hears m inside
    have none : s.pending m = [] := by rw [pending, idle]
    have waits : ({ s with
        sending := some (b, order)
        history := .broadcast b order :: s.history } : Listeners).pending m = [b] :=
      if_pos (perm.mem_iff.mpr inside)
    refine ⟨before.impolite, fun quiet => ?_, ?_⟩
    · have so_far := before.all quiet
      rw [none, List.append_nil] at so_far
      rw [waits]
      exact congrArg (· ++ [b]) so_far
    · have so_far := before.ordered
      rw [none, List.append_nil] at so_far
      rw [waits]
      exact so_far.append_right [b]

theorem Heard.deliver (heard : s.Heard maxConnections) {b : Broadcast} {n : Nat}
    {rest : List Nat} (sending : s.sending = some (b, n :: rest)) :
    ({ s with
      session := Function.update s.session n ((s.session n).broadcast b)
      sending := some (b, rest)
      history := .deliver :: s.history } : Listeners).Heard maxConnections := by
  obtain ⟨nodup, members⟩ := heard.remaining b (n :: rest) sending
  have once : n ∉ rest := (List.nodup_cons.mp nodup).1
  refine ⟨heard.bounded, heard.nodup, ?_, fun m inside => ?_⟩
  · intro b rest sending
    cases sending
    exact ⟨(List.nodup_cons.mp nodup).2, fun m there => members m (List.mem_cons_of_mem n there)⟩
  · have before := heard.hears m inside
    by_cases here : m = n
    · subst here
      have waited : s.pending m = [b] := by simp [pending, sending]
      have got := (s.session m).got_broadcast b
      have self : Function.update s.session m ((s.session m).broadcast b) m =
          (s.session m).broadcast b := Function.update_self ..
      have sent : sentSince m (.deliver :: s.history) = sentSince m s.history := rfl
      constructor
      · intro quiet
        have impolite := before.impolite quiet
        dsimp only
        rw [self, Listener.broadcast, impolite]
        rfl
      · intro quiet
        have so_far := before.all quiet
        rw [waited] at so_far
        simp only [pending, once, self, got, sent, before.impolite quiet]
        simpa using so_far
      · have so_far := before.ordered
        rw [waited] at so_far
        simp only [pending, once, self, got, sent]
        cases (s.session m).polite with
        | true => simpa using (List.sublist_append_left _ [b]).trans so_far
        | false => simpa using so_far
    · have still : (m ∈ n :: rest) = (m ∈ rest) := by simp [here]
      refine before.same (Function.update_of_ne here ..) ?_ rfl rfl
      simp only [pending, sending, still]

theorem Heard.step (heard : s.Heard maxConnections)
    (done : s.step maxConnections action = some after) : after.Heard maxConnections := by
  obtain ⟨result, acted, rfl⟩ := Option.map_eq_some_iff.mp done
  cases action with
  | reject =>
      simp only [act] at acted
      split at acted
      · cases acted
        exact ⟨heard.bounded, heard.nodup, heard.remaining, fun m inside =>
          (heard.hears m inside).same rfl rfl rfl rfl⟩
      · cases acted
  | accept n =>
      simp only [act] at acted
      split at acted
      · next fine =>
        cases acted
        exact heard.accept fine.1 (by simpa using fine.2.1) fine.2.2
      · cases acted
  | sessionClosed n =>
      simp only [act] at acted
      split at acted
      · next fine =>
        have idle : s.sending = none := by simpa using fine.2
        cases acted
        refine ⟨List.length_erase_le.trans heard.bounded, heard.nodup.erase n, ?_, ?_⟩
        · intro b rest sending
          rw [idle] at sending
          cases sending
        · exact fun m inside => (heard.hears m (List.mem_of_mem_erase inside)).same rfl rfl rfl rfl
      · cases acted
  | broadcast b order =>
      simp only [act] at acted
      split at acted
      · next fine =>
        cases acted
        exact heard.broadcast (by simpa using fine.1) fine.2
      · cases acted
  | deliver =>
      simp only [act] at acted
      split at acted
      · next b n rest sending =>
        cases acted
        exact heard.deliver sending
      · cases acted
  | unlock =>
      simp only [act] at acted
      split at acted
      · next b sending =>
        cases acted
        refine ⟨heard.bounded, heard.nodup, nofun, fun m inside => ?_⟩
        exact (heard.hears m inside).same rfl (by simp [pending, sending]) rfl rfl
      · cases acted
  | remoteHost n polite =>
      refine heard.turn acted (fun _ => rfl) (fun m other => ?_) fun l' here => ?_
      · cases polite with
        | false => rfl
        | true => simp [askedForSilence, Ne.symm other]
      · split at here
        · cases here
          obtain ⟨less, same⟩ := (s.session n).got_remoteHost polite
          refine ⟨less, fun quiet => ?_⟩
          cases polite with
          | false => exact ⟨quiet, same rfl, nofun⟩
          | true => simp [askedForSilence] at quiet
        · cases here
  | swap n =>
      refine heard.turn acted (fun _ => rfl) (fun _ _ => rfl) fun l' here => ?_
      split at here
      · next idle =>
        cases here
        rw [Listener.got_swap idle]
        exact ⟨List.Sublist.refl _, fun quiet => ⟨quiet, rfl, id⟩⟩
      · cases here
  | write n =>
      refine heard.turn acted (fun _ => rfl) (fun _ _ => rfl) fun l' here => ?_
      split at here
      · next b rest round =>
        cases here
        rw [Listener.got_write round]
        exact ⟨List.Sublist.refl _, fun quiet => ⟨quiet, rfl, id⟩⟩
      · cases here
  | reply n d =>
      refine heard.turn acted (fun _ => rfl) (fun _ _ => rfl) fun l' here => ?_
      cases here
      rw [Listener.got_reply]
      exact ⟨List.Sublist.refl _, fun quiet => ⟨quiet, rfl, id⟩⟩

theorem Run.heard (run : Run maxConnections s) : s.Heard maxConnections := by
  refine Transition.Reaches.invariant run ?_ fun before action after heard _ done => heard.step done
  exact ⟨Nat.zero_le _, List.nodup_nil, nofun, nofun⟩

/-! ### What the client reads -/

open XmlParser

def isBroadcast (e : Element) : Bool := e.tag = .text Broadcast.broadcastTag.bytes

theorem broadcast_shown (b : Broadcast) : b.document.shown = [b.shown] := by
  simp [Broadcast.document, Broadcast.shown, XmlElement.Document.shown, XmlElement.contents,
    XmlElement.Children.shown]

theorem filter_other {elements : List Element} {listed : List XmlElement.Shown}
    (reads : List.Forall₂ (fun e shown => Reads True e (XmlElement.raw shown)) elements listed)
    (other : ∀ shown ∈ listed, shown.1.bytes ≠ Broadcast.broadcastTag.bytes) :
    elements.filter isBroadcast = [] := by
  induction reads with
  | nil => rfl
  | @cons e shown elements listed read later ih =>
      have untagged : isBroadcast e ≠ true := by
        intro tagged
        have same : e.tag = .text Broadcast.broadcastTag.bytes := of_decide_eq_true tagged
        rw [(XmlElement.shows_of_reads read).tag] at same
        exact other shown List.mem_cons_self (CString.text.inj same)
      rw [List.filter_cons_of_neg untagged]
      exact ih fun shown member => other shown (List.mem_cons_of_mem _ member)

/-- Among the elements that are read, the broadcasts are those that were written. -/
theorem broadcasts_read {output : List SessionMessage} {elements : List Element}
    (reads : List.Forall₂ (fun e shown => Reads True e (XmlElement.raw shown)) elements
      ((output.map SessionMessage.document).flatMap XmlElement.Document.shown)) :
    List.Forall₂ XmlElement.Shows (elements.filter isBroadcast)
      ((output.filterMap SessionMessage.isBroadcast).map Broadcast.shown) := by
  induction output generalizing elements with
  | nil =>
      cases reads
      exact .nil
  | cons message rest ih =>
      rw [List.map_cons, List.flatMap_cons] at reads
      have here := List.forall₂_take_append _ _ _ reads
      have later := ih (List.forall₂_drop_append _ _ _ reads)
      rw [← List.take_append_drop message.document.shown.length elements, List.filter_append]
      generalize elements.take message.document.shown.length = front at here ⊢
      cases message with
      | broadcast b =>
          rw [SessionMessage.document, broadcast_shown] at here
          obtain ⟨e, _, read, none, rfl⟩ := List.forall₂_cons_right_iff.mp here
          cases List.forall₂_nil_right_iff.mp none
          have shows_ := XmlElement.shows_of_reads read
          have tagged : isBroadcast e = true := by
            rw [isBroadcast, shows_.tag]
            exact decide_eq_true rfl
          rw [List.filter_cons_of_pos tagged]
          exact .cons shows_ later
      | other d =>
          rw [filter_other here d.other]
          exact later

/-- In every run, however the threads take turns, there are at most `maxConnections`
clients, and of what was sent since it was accepted a client reads some, the others being
on their way, all of it in the order in which it was sent. What is missing was sent to a
client that has asked for silence. -/
theorem Run.heard_by_client (run : Run maxConnections s) {n : Nat} (inside : n ∈ s.sessions)
    (bufMax : Nat) (chunks : List (List Byte))
    (complete : chunks.flatten =
      XmlElement.writeAll ((s.session n).output.map SessionMessage.document))
    (taken : EveryRead Taken (XmlParser.new bufMax) [] chunks) :
    s.sessions.length ≤ maxConnections ∧
      ∃ elements received, feed (XmlParser.new bufMax) chunks = some elements ∧
        List.Forall₂ XmlElement.Shows (elements.filter isBroadcast)
          (received.map Broadcast.shown) ∧
        received ++ (s.session n).round ++ (s.session n).broadcastList ++ s.pending n <+
          sentSince n s.history ∧
        (askedForSilence n s.history = false →
          received ++ (s.session n).round ++ (s.session n).broadcastList ++ s.pending n =
            sentSince n s.history) := by
  have heard := run.heard
  have hears := heard.hears n inside
  obtain ⟨elements, fed, reads⟩ := XmlElement.documents_read bufMax _ chunks complete taken
  refine ⟨heard.bounded, elements, (s.session n).output.filterMap SessionMessage.isBroadcast, fed,
    broadcasts_read reads, hears.ordered, hears.all⟩

def sampleMessage : Broadcast := ⟨⟨5, 70000⟩, [], ascii "a<b", XmlElement.noId_plain, by decide⟩

def sampleSteps : List BroadcastAction :=
  [.accept 0, .accept 1, .broadcast sampleMessage [1, 0], .deliver, .swap 1, .write 1]

def sampleState : Listeners :=
  (Transition.perform (step 2) (fun _ _ => true) sampleSteps start).getD start

def sampleOutput : List Byte := XmlElement.writeAll [sampleMessage.document]

/-- The message was written to one of two clients, and waits for the other. -/
theorem Run.heard_by_client_sample :
    sampleState.sessions.length ≤ 2 ∧
      ∃ elements received, feed (XmlParser.new 8192) [sampleOutput.take 30, sampleOutput.drop 30] =
          some elements ∧
        List.Forall₂ XmlElement.Shows (elements.filter isBroadcast)
          (received.map Broadcast.shown) ∧
        received ++ (sampleState.session 1).round ++ (sampleState.session 1).broadcastList ++
          sampleState.pending 1 <+ sentSince 1 sampleState.history ∧
        (askedForSilence 1 sampleState.history = false →
          received ++ (sampleState.session 1).round ++ (sampleState.session 1).broadcastList ++
            sampleState.pending 1 = sentSince 1 sampleState.history) := by
  have done : Transition.perform (step 2) (fun _ _ => true) sampleSteps start =
      some sampleState := rfl
  have run : Run 2 sampleState := .perform (fun _ _ _ => trivial) .start done
  have output : (sampleState.session 1).output.map SessionMessage.document =
      [sampleMessage.document] := rfl
  refine Run.heard_by_client run (n := 1) (by decide) 8192 _ ?_ (by decide +kernel)
  rw [output, List.flatten_cons, List.flatten_cons, List.flatten_nil, List.append_nil]
  exact List.take_append_drop ..

end Listeners
end PdServ
