import PdServ.Broadcast
import PdServ.EventPipeline

/-!
The conversation with a client: `Session::processCommand` with its table of commands, and of
`Session::run` the loop over what was read, with the id of each command and its `<ack>`, and
what is written unasked between. What the functions behind the table do beyond that, and
what other threads do, are parameters.
-/

namespace PdServ
open XmlElement (TagForm Children Content Document Shown raw)

/-! ### A command, as it is seen by the session -/

/-- The strings end at a NUL. -/
structure Request where
  tag : List Byte
  command : Command
  plainTag : ∀ c ∈ tag, c ≠ Chr.nul
  plain : ∀ a ∈ command, ∀ value ∈ a.2, ∀ c ∈ value, c ≠ Chr.nul

/-- The C string, if there is one. -/
def CString.cut (s : CString) : Option (List Byte) :=
  s.text?.map fun bytes => bytes.takeWhile fun c => c != Chr.nul

theorem takeWhile_plain (bytes : List Byte) :
    ∀ c ∈ bytes.takeWhile (fun c => c != Chr.nul), c ≠ Chr.nul := by
  intro c member
  simpa using List.mem_takeWhile_imp member

theorem CString.cut_plain {s : CString} : ∀ bytes ∈ s.cut, ∀ c ∈ bytes, c ≠ Chr.nul := by
  intro bytes member
  obtain ⟨text, -, rfl⟩ := Option.map_eq_some_iff.mp member
  exact takeWhile_plain text

theorem CString.cut_getD_plain (s : CString) : ∀ c ∈ s.cut.getD [], c ≠ Chr.nul := by
  cases found : s.cut with
  | none => nofun
  | some bytes => exact cut_plain bytes found

/-- The first entry is the tag. It has no value, whatever a move has made of its null
pointer: no command is asked for an attribute of its own name. A value whose null pointer
was moved with the buffer is taken for no value here; the pointer is wild in the program. -/
def Element.request (e : Element) : Request where
  tag := e.tag.cut.getD []
  command := (e.tag.cut.getD [], none) ::
    e.attributes.tail.map fun a => (a.1.cut.getD [], a.2.cut)
  plainTag := e.tag.cut_getD_plain
  plain := by
    intro a member value some
    rcases List.mem_cons.mp member with rfl | later
    · cases some
    · obtain ⟨b, -, rfl⟩ := List.mem_map.mp later
      exact CString.cut_plain value some

namespace Request

/-- What `unescape` puts in is no NUL. -/
theorem unescape_plain (left : Nat) (bytes : List Byte) (plain : ∀ c ∈ bytes, c ≠ Chr.nul) :
    ∀ c ∈ Command.unescape left bytes, c ≠ Chr.nul := by
  induction left generalizing bytes with
  | zero => nofun
  | succ left ih =>
      cases bytes with
      | nil => nofun
      | cons first rest =>
          have others := ih rest fun c member => plain c (List.mem_cons_of_mem _ member)
          have here : ∀ c ∈ first :: Command.unescape left rest, c ≠ Chr.nul := by
            intro c member
            rcases List.mem_cons.mp member with rfl | later
            · exact plain c List.mem_cons_self
            · exact others c later
          rw [Command.unescape]
          split
          · split
            · next r found =>
              intro c member
              rcases List.mem_append.mp member with replaced | later
              · have known := List.mem_of_find?_eq_some found
                have all : ∀ r ∈ Command.references, ∀ c ∈ r.2, c ≠ Chr.nul := by decide
                exact all r known c replaced
              · exact ih _ (fun c inside => plain c (List.mem_cons_of_mem _
                  (List.mem_of_mem_drop inside))) c later
            · exact here
          · exact here

/-- `commandId` behind `parser.getString("id", commandId)` -/
def id (r : Request) : List Byte := (r.command.getString (ascii "id")).getD []

theorem find_plain (r : Request) {name value : List Byte}
    (found : r.command.find name = some (some value)) : ∀ c ∈ value, c ≠ Chr.nul := by
  obtain ⟨a, here, same⟩ := Option.map_eq_some_iff.mp found
  exact r.plain a (List.mem_of_find?_eq_some here) value same

theorem id_plain (r : Request) : ∀ c ∈ r.id, c ≠ Chr.nul := by
  unfold id Command.getString
  split
  · next value found => exact unescape_plain _ value (r.find_plain found)
  · nofun

end Request

/-- An element that was written, as a command. -/
def Shown.request (shown : Shown) : Request where
  tag := shown.1.bytes
  command := raw shown
  plainTag := fun c member => (name_ends shown.1.toNameForm c member).2
  plain := by
    intro a member value some
    rcases List.mem_cons.mp member with rfl | later
    · cases some
    · obtain ⟨b, inside, rfl⟩ := List.mem_map.mp later
      obtain ⟨content, -, rfl⟩ := List.mem_map.mp inside
      cases some
      intro c mark none
      exact XmlElement.setEscaped_quiet content.str content.plain c mark (by simp [none])

/-- The C string of a text without NUL. -/
theorem CString.cut_readText {bytes : List Byte} (plain : ∀ c ∈ bytes, c ≠ Chr.nul) :
    (readText bytes).cut = some bytes := by
  have whole := List.takeWhile_eq_self_iff.mpr fun c member =>
    bne_iff_ne.mpr (plain c member)
  rw [readText, cut, text?, Option.map_some, whole, whole]

theorem entries_of_reads {attributes : List Content} {strings : List (CString × CString)}
    (reads : List.Forall₂ (XmlParser.AttributeReads True) strings
      ((attributes.map Content.form).map AttributeForm.raw)) :
    strings.map (fun a => (a.1.cut.getD [], a.2.cut)) =
      (attributes.map Content.form).map AttributeForm.raw := by
  induction attributes generalizing strings with
  | nil =>
      rw [List.forall₂_nil_right_iff.mp reads]
      rfl
  | cons a rest ih =>
      obtain ⟨entry, others, ⟨first, second⟩, later, whole⟩ := List.forall₂_cons_right_iff.mp reads
      have quiet : ∀ c ∈ XmlElement.setEscaped a.str, c ≠ Chr.nul := fun c mark none =>
        XmlElement.setEscaped_quiet a.str a.plain c mark (by simp [none])
      have name : entry.1.cut = some a.name.bytes := by
        rw [first]
        exact CString.cut_readText fun c member => (name_ends a.name c member).2
      have value : entry.2.cut = some (XmlElement.setEscaped a.str) := by
        rcases second with same | ⟨-, none⟩
        · rw [same]
          exact CString.cut_readText quiet
        · cases none
      rw [whole, List.map_cons, ih later, name, value]
      rfl

/-- An element that is read is the command that was written. -/
theorem request_of_reads {e : Element} {shown : Shown}
    (reads : XmlParser.Reads True e (raw shown)) : e.request = Shown.request shown := by
  have tag : e.tag.cut.getD [] = shown.1.bytes := by
    have here : e.tag = readText shown.1.bytes := reads.tag
    rw [here, CString.cut_readText fun c member => (name_ends shown.1.toNameForm c member).2]
    rfl
  obtain ⟨first, rest, -, others, whole⟩ := List.forall₂_cons_right_iff.mp reads.attributes
  have entries := entries_of_reads others
  simp only [Element.request, Shown.request, raw, tag, whole, List.tail_cons, entries]

theorem requests_of_reads {elements : List Element} {documents : List Document}
    (reads : List.Forall₂ (fun e shown => XmlParser.Reads True e (raw shown)) elements
      (documents.flatMap Document.shown)) :
    elements.map Element.request = (documents.flatMap Document.shown).map Shown.request := by
  have same := reads.imp fun _ _ => request_of_reads
  rw [← List.forall₂_eq_eq_eq, List.forall₂_map_left_iff, List.forall₂_map_right_iff]
  exact same

/-! ### What the session writes -/

/-- `find("id")` finds nothing here. -/
def Anonymous (shown : Shown) : Prop :=
  strcasecmp (ascii "id") shown.1.bytes = false ∧
    ∀ a ∈ shown.2, strcasecmp (ascii "id") a.name.bytes = false

instance (shown : Shown) : Decidable (Anonymous shown) := inferInstanceAs (Decidable (_ ∧ _))

/-- An element that a command writes, apart from the id. -/
structure Answer where
  tag : TagForm
  attributes : List Content
  children : Children
  anonymous : ∀ shown ∈ (tag, attributes) :: children.shown, Anonymous shown

/-- `createElement`, with what `commandId` is when the element is finished. -/
def Answer.document (a : Answer) (commandId : List Byte) (plain : ∀ c ∈ commandId, c ≠ Chr.nul) :
    Document :=
  ⟨a.tag, a.attributes, a.children, commandId, plain⟩

namespace Conversation

theorem isalpha_p : isalpha 112 = true := by decide

def pingTag : TagForm := ⟨⟨112, ascii "ing", isalpha_p, by decide⟩, by decide⟩
def tlsTag : TagForm := ⟨⟨116, ascii "ls", XmlElement.isalpha_t, by decide⟩, by decide⟩
def ackTag : TagForm := ⟨⟨97, ascii "ck", Broadcast.isalpha_a, by decide⟩, by decide⟩

theorem arn_name :
    ∀ c ∈ ascii "arn", c ∉ [Chr.equals, Chr.space, Chr.slash, Chr.greaterThan, Chr.nul] := by
  decide

theorem arn_unopened : ∀ c ∈ ascii "arn", c ≠ Chr.lessThan := by decide

def warnTag : TagForm := ⟨⟨119, ascii "arn", Event.isalpha_w, arn_name⟩, arn_unopened⟩

def num : NameForm := ⟨110, ascii "um", Variable.isalpha_n, by decide⟩
def commandName : NameForm := ⟨99, ascii "ommand", Event.isalpha_c, by decide⟩

/-- An element without children, none of whose names is `id`. -/
def bare (tag : TagForm) (attributes : List Content) (anonymous : Anonymous (tag, attributes)) :
    Answer where
  tag := tag
  attributes := attributes
  children := .none
  anonymous := by
    intro shown member
    rw [List.mem_singleton.mp member]
    exact anonymous

theorem ping_anonymous : Anonymous (pingTag, []) := ⟨by decide, nofun⟩
theorem ack_anonymous : Anonymous (ackTag, []) := ⟨by decide, nofun⟩
theorem tls_anonymous : Anonymous (tlsTag, []) := ⟨by decide, nofun⟩

def refused : List Content := [⟨Variable.Key.text, ascii "No write access", by decide⟩]

theorem refused_anonymous : Anonymous (warnTag, refused) := by decide

/-- The warning about a command that is not in the table. -/
def unknown (r : Request) : List Content :=
  [⟨num, ascii "1000", by decide⟩, ⟨Variable.Key.text, ascii "unknown command", by decide⟩,
    ⟨commandName, r.tag, r.plainTag⟩]

theorem unknown_anonymous (r : Request) : Anonymous (warnTag, unknown r) := by
  refine ⟨refused_anonymous.1, fun a member => ?_⟩
  have names : a.name ∈ [num, Variable.Key.text, commandName] := by
    have inside : a.name ∈ (unknown r).map Content.name := List.mem_map_of_mem member
    exact inside
  have apart : ∀ name ∈ [num, Variable.Key.text, commandName],
      strcasecmp (ascii "id") name.bytes = false := by
    simp only [List.forall_mem_cons]
    decide
  exact apart a.name names

/-- The `<ack>`. It is closed when `commandId` is empty again: the id is written once, as an
attribute of its own. -/
def ack (id : List Byte) (plain : ∀ c ∈ id, c ≠ Chr.nul) : Document :=
  ⟨ackTag, [⟨XmlElement.idName, id, plain⟩], .none, [], XmlElement.noId_plain⟩

/-! ### The table of commands -/

inductive Func where
  | ping
  | readStatistics
  | writeParameter
  | readParameter
  | xsad
  | xsod
  | echo
  | readChannel
  | readParamValues
  | listDirectory
  | startTLS
  | broadcast
  | remoteHost
  | messageHistory
deriving DecidableEq

def cmds : List (Nat × List Byte × Func) :=
  [(4, ascii "ping", .ping),
    (2, ascii "rs", .readStatistics),
    (2, ascii "wp", .writeParameter),
    (2, ascii "rp", .readParameter),
    (4, ascii "xsad", .xsad),
    (4, ascii "xsod", .xsod),
    (4, ascii "echo", .echo),
    (2, ascii "rc", .readChannel),
    (2, ascii "rk", .readChannel),
    (3, ascii "rpv", .readParamValues),
    (4, ascii "list", .listDirectory),
    (8, ascii "starttls", .startTLS),
    (9, ascii "broadcast", .broadcast),
    (11, ascii "remote_host", .remoteHost),
    (12, ascii "read_kanaele", .readChannel),
    (12, ascii "read_statics", .readStatistics),
    (14, ascii "read_parameter", .readParameter),
    (15, ascii "read_statistics", .readStatistics),
    (15, ascii "message_history", .messageHistory),
    (15, ascii "write_parameter", .writeParameter),
    (17, ascii "read_param_values", .readParamValues)]

/-- The loop over the table, for the command `name`. -/
def func? (name : List Byte) : Option Func :=
  (cmds.find? fun cmd => name.length == cmd.1 && cmd.2.1 == name).map fun cmd => cmd.2.2

/-- Every name of the table is found: its length is right, and it stands there once. -/
theorem func?_cmds : ∀ cmd ∈ cmds, func? cmd.2.1 = some cmd.2.2 := by
  decide

/-- What `remote_host` and `echo` set. -/
structure Login where
  writeAccess : Bool := false
  echoOn : Bool := false
  remoteHostName : List Byte := []
  client : List Byte := []
deriving DecidableEq

/-- `parser->isEqual("access", "allow") or parser->isTrue("access")` -/
def allows (command : Command) : Bool :=
  command.isEqual (ascii "access") (ascii "allow") || command.isTrue (ascii "access")

def Login.remoteHost (login : Login) (command : Command) : Login where
  writeAccess := if (command.find (ascii "access")).isSome then allows command
    else login.writeAccess
  echoOn := login.echoOn
  -- `getString` clears the string first
  remoteHostName := (command.getString (ascii "name")).getD []
  client := (command.getString (ascii "applicationname")).getD []

/-- What a function does to the server and the rest of the session, and the elements it
writes. -/
abbrev Handle (World : Type) := Func → World → Command → World × List Answer

/-- A command that was processed: what it wrote, and whether `writeParameter` got past its
check of the access. -/
structure Exchange where
  request : Request
  answers : List Answer
  wrote : Bool

section
variable {World : Type} (handle : Handle World)

/-- `Session::processCommand`. Some of the functions write nothing, or one element of their
own. -/
def processCommand (login : Login) (world : World) (r : Request) : Login × World × Exchange :=
  match func? r.tag with
  | some .ping => (login, world, ⟨r, [bare pingTag [] ping_anonymous], false⟩)
  | some .echo =>
      ({ login with echoOn := r.command.isTrue (ascii "value") }, world, ⟨r, [], false⟩)
  | some .startTLS =>
      (login, (handle .startTLS world r.command).1, ⟨r, [bare tlsTag [] tls_anonymous], false⟩)
  | some .remoteHost =>
      (login.remoteHost r.command, (handle .remoteHost world r.command).1, ⟨r, [], false⟩)
  | some .writeParameter =>
      if login.writeAccess then
        (login, (handle .writeParameter world r.command).1, ⟨r, [], true⟩)
      else (login, world, ⟨r, [bare warnTag refused refused_anonymous], false⟩)
  | some .xsod => (login, (handle .xsod world r.command).1, ⟨r, [], false⟩)
  | some .broadcast => (login, (handle .broadcast world r.command).1, ⟨r, [], false⟩)
  | some func =>
      let (world, answers) := handle func world r.command
      (login, world, ⟨r, answers, false⟩)
  | none => (login, world, ⟨r, [bare warnTag (unknown r) (unknown_anonymous r)], false⟩)

/-- The elements of a command, and its `<ack>` if it has an id. -/
def Exchange.documents (x : Exchange) : List Document :=
  x.answers.map (fun a => a.document x.request.id x.request.id_plain) ++
    if x.request.id = [] then [] else [ack x.request.id x.request.id_plain]

/-- `output` is what was written, and `exchanges` the commands that were processed. -/
structure Talk (World : Type) where
  login : Login
  world : World
  output : List Document
  exchanges : List Exchange

/-- Behind `initial()`, which has greeted the client. -/
def Talk.start (greeting : Answer) (world : World) : Talk World :=
  ⟨{}, world, [greeting.document [] XmlElement.noId_plain], []⟩

/-- One turn of `while (parser)`. -/
def Talk.serve (t : Talk World) (r : Request) : Talk World :=
  let (login, world, exchange) := processCommand handle t.login t.world r
  { login := login
    world := world
    output := t.output ++ exchange.documents
    exchanges := t.exchanges ++ [exchange] }

/-- One turn of the loop of `Session::run`: what `read()` got if there was input, what other
threads did meanwhile, and what is written unasked. -/
structure Turn (World : Type) where
  input : Option (List Byte)
  others : World → World
  pushed : List Answer

/-- What other threads did. -/
def Talk.meanwhile (t : Talk World) (others : World → World) : Talk World :=
  { t with world := others t.world }

/-- No command is being answered, so there is no id. -/
def Talk.push (t : Talk World) (pushed : List Answer) : Talk World :=
  { t with output := t.output ++ pushed.map fun a => a.document [] XmlElement.noId_plain }

/-- The turn; no command looks at the parser behind its own element, so that all of them can
be recognised first. Where the buffer of the parser overflows `run` returns; here the session
goes on with what was taken. -/
def turn (s : XmlParser × Talk World) (now : Turn World) : Option (XmlParser × Talk World) :=
  let t := s.2.meanwhile now.others
  match now.input with
  | none => some (s.1, t.push now.pushed)
  | some chunk => (s.1.read chunk).2.drain.map fun (elements, parser) =>
      (parser, ((elements.map Element.request).foldl (Talk.serve handle) t).push now.pushed)

def converse : XmlParser × Talk World → List (Turn World) → Option (XmlParser × Talk World)
  | s, [] => some s
  | s, now :: rest => (turn handle s now).bind fun s => converse s rest

end

/-! ### Ids -/

/-- The id that a command or an element has, with its tag. -/
def identified (r : Request) : Option (List Byte × List Byte) :=
  if r.id = [] then none else some (r.id, r.tag)

/-- What has an id among the elements of these documents. -/
def replies (documents : List Document) : List (List Byte × List Byte) :=
  ((documents.flatMap Document.shown).map Shown.request).filterMap identified

theorem replies_append (front back : List Document) :
    replies (front ++ back) = replies front ++ replies back := by
  simp only [replies, List.flatMap_append, List.map_append, List.filterMap_append]

/-- The elements of a command with an id have this id, and its `<ack>` comes last. -/
def Exchange.replies (x : Exchange) : List (List Byte × List Byte) :=
  if x.request.id = [] then []
  else x.answers.map (fun a => (x.request.id, a.tag.bytes)) ++ [(x.request.id, ascii "ack")]

theorem find_anonymous {shown : Shown} (anonymous : Anonymous shown) (behind : Command) :
    Command.find (raw shown ++ behind) (ascii "id") = behind.find (ascii "id") := by
  have skip : ∀ a ∈ raw shown, ¬ (strcasecmp (ascii "id") a.1 = true) := by
    intro a member
    rcases List.mem_cons.mp member with rfl | later
    · rw [anonymous.1]
      decide
    · obtain ⟨b, inside, rfl⟩ := List.mem_map.mp later
      obtain ⟨content, here, rfl⟩ := List.mem_map.mp inside
      have apart := anonymous.2 content here
      have name : content.form.raw.1 = content.name.bytes := rfl
      rw [name, apart]
      decide
  rw [Command.find, List.find?_append, List.find?_eq_none.mpr skip]
  rfl

theorem id_anonymous {shown : Shown} (anonymous : Anonymous shown) :
    (Shown.request shown).id = [] := by
  have none := find_anonymous anonymous []
  rw [List.append_nil] at none
  have missing : Command.find (Shown.request shown).command (ascii "id") = .none := none
  rw [Request.id, Command.getString, missing]
  rfl

/-- An id behind attributes that are none is read back. -/
theorem id_written {tag : TagForm} {attributes : List Content} {id : List Byte}
    (plain : ∀ c ∈ id, c ≠ Chr.nul) (anonymous : Anonymous (tag, attributes)) :
    (Shown.request (tag, attributes ++ [⟨XmlElement.idName, id, plain⟩])).id = id := by
  have entries : raw (tag, attributes ++ [⟨XmlElement.idName, id, plain⟩]) =
      raw (tag, attributes) ++ [(ascii "id", some (XmlElement.setEscaped id))] := by
    simp only [raw, List.map_append, List.cons_append]
    rfl
  have found : Command.find (Shown.request
      (tag, attributes ++ [⟨XmlElement.idName, id, plain⟩])).command (ascii "id") =
        some (some (XmlElement.setEscaped id)) := by
    change Command.find (raw _) _ = _
    rw [entries, find_anonymous anonymous]
    rfl
  rw [Request.id, Command.getString, found]
  simp [XmlElement.unescape_setEscaped]

theorem replies_document (a : Answer) {id : List Byte} (plain : ∀ c ∈ id, c ≠ Chr.nul) :
    replies [a.document id plain] = if id = [] then [] else [(id, a.tag.bytes)] := by
  have outer := a.anonymous (a.tag, a.attributes) List.mem_cons_self
  have inner : (a.children.shown.map Shown.request).filterMap identified = [] := by
    refine List.filterMap_eq_nil_iff.mpr fun r member => ?_
    obtain ⟨shown, inside, rfl⟩ := List.mem_map.mp member
    exact if_pos (id_anonymous (a.anonymous shown (List.mem_cons_of_mem _ inside)))
  have whole : replies [a.document id plain] =
      ([Shown.request (a.tag, XmlElement.contents a.attributes id plain)].filterMap identified) := by
    simp only [replies, List.flatMap_cons, List.flatMap_nil, List.append_nil, Document.shown,
      Answer.document, List.map_cons, List.filterMap_cons, inner, List.filterMap_nil]
  rw [whole]
  by_cases empty : id = []
  · have same : XmlElement.contents a.attributes id plain = a.attributes := if_pos empty
    rw [same, if_pos empty]
    exact List.filterMap_cons_none (if_pos (id_anonymous outer))
  · have same : XmlElement.contents a.attributes id plain =
        a.attributes ++ [⟨XmlElement.idName, id, plain⟩] := if_neg empty
    have here := id_written plain outer
    have named : identified (Shown.request
        (a.tag, a.attributes ++ [⟨XmlElement.idName, id, plain⟩])) = some (id, a.tag.bytes) := by
      rw [identified, here, if_neg empty]
      rfl
    rw [same, if_neg empty, List.filterMap_cons_some named, List.filterMap_nil]

theorem replies_ack {id : List Byte} (plain : ∀ c ∈ id, c ≠ Chr.nul) (some : id ≠ []) :
    replies [ack id plain] = [(id, ascii "ack")] := by
  have here : (Shown.request (ackTag, [⟨XmlElement.idName, id, plain⟩])).id = id :=
    id_written plain ack_anonymous
  have named : identified (Shown.request (ackTag, [⟨XmlElement.idName, id, plain⟩])) =
      .some (id, ascii "ack") := by
    rw [identified, here, if_neg some]
    rfl
  have whole : replies [ack id plain] =
      [Shown.request (ackTag, [⟨XmlElement.idName, id, plain⟩])].filterMap identified := by
    simp [replies, ack, Document.shown, XmlElement.contents, Children.shown]
  rw [whole, List.filterMap_cons_some named, List.filterMap_nil]

theorem replies_answers (answers : List Answer) {id : List Byte} (plain : ∀ c ∈ id, c ≠ Chr.nul) :
    replies (answers.map fun a => a.document id plain) =
      if id = [] then [] else answers.map fun a => (id, a.tag.bytes) := by
  induction answers with
  | nil => split <;> rfl
  | cons a rest ih =>
      have split : replies ((a :: rest).map fun a => a.document id plain) =
          replies [a.document id plain] ++ replies (rest.map fun a => a.document id plain) :=
        replies_append [_] _
      rw [split, ih, replies_document]
      by_cases empty : id = []
      · simp only [if_pos empty, List.append_nil]
      · simp only [if_neg empty, List.map_cons, List.singleton_append]

theorem replies_documents (x : Exchange) : replies x.documents = x.replies := by
  rw [Exchange.documents, replies_append, replies_answers, Exchange.replies]
  by_cases empty : x.request.id = []
  · simp only [if_pos empty, List.nil_append]
    rfl
  · simp only [if_neg empty]
    rw [replies_ack _ empty]

/-! ### Commands one after the other -/

section
variable {World : Type} (handle : Handle World)

theorem processCommand_request (login : Login) (world : World) (r : Request) :
    (processCommand handle login world r).2.2.request = r := by
  unfold processCommand
  split
  case h_5 => split <;> rfl
  all_goals rfl

/-- What is written with an id are the replies to the commands so far. -/
def Answers (t : Talk World) : Prop := replies t.output = t.exchanges.flatMap Exchange.replies

theorem serve_answers {t : Talk World} (r : Request) (answers : Answers t) :
    Answers (t.serve handle r) := by
  have here : replies (t.serve handle r).output =
      replies t.output ++ replies (processCommand handle t.login t.world r).2.2.documents :=
    replies_append ..
  have there : (t.serve handle r).exchanges =
      t.exchanges ++ [(processCommand handle t.login t.world r).2.2] := rfl
  rw [Answers, here, there, replies_documents, answers, List.flatMap_append, List.flatMap_singleton]

theorem serve_requests (t : Talk World) (r : Request) :
    (t.serve handle r).exchanges.map Exchange.request = t.exchanges.map Exchange.request ++ [r] := by
  have there : (t.serve handle r).exchanges =
      t.exchanges ++ [(processCommand handle t.login t.world r).2.2] := rfl
  rw [there, List.map_append, List.map_singleton, processCommand_request handle]

theorem serveAll_kept (requests : List Request) {t : Talk World} (answers : Answers t) :
    Answers (requests.foldl (Talk.serve handle) t) ∧
      (requests.foldl (Talk.serve handle) t).exchanges.map Exchange.request =
        t.exchanges.map Exchange.request ++ requests := by
  induction requests generalizing t with
  | nil => exact ⟨answers, (List.append_nil _).symm⟩
  | cons r rest ih =>
      obtain ⟨kept, asked⟩ := ih (serve_answers handle r answers)
      refine ⟨kept, ?_⟩
      rw [List.foldl_cons, asked, serve_requests handle, List.append_assoc]
      rfl

/-- Everything but the output. -/
structure Agrees (t u : Talk World) : Prop where
  login : t.login = u.login
  world : t.world = u.world
  exchanges : t.exchanges = u.exchanges

theorem Agrees.trans {t u v : Talk World} (first : Agrees t u) (second : Agrees u v) :
    Agrees t v where
  login := first.login.trans second.login
  world := first.world.trans second.world
  exchanges := first.exchanges.trans second.exchanges

theorem push_agrees (t : Talk World) (pushed : List Answer) : Agrees (t.push pushed) t :=
  ⟨rfl, rfl, rfl⟩

theorem serveAll_agrees (requests : List Request) {t u : Talk World} (agrees : Agrees t u) :
    Agrees (requests.foldl (Talk.serve handle) t) (requests.foldl (Talk.serve handle) u) := by
  induction requests generalizing t u with
  | nil => exact agrees
  | cons r rest ih =>
      obtain ⟨login, world, exchanges⟩ := agrees
      refine ih ⟨?_, ?_, ?_⟩
      · simp only [Talk.serve, login, world]
      · simp only [Talk.serve, login, world]
      · simp only [Talk.serve, login, world, exchanges]

theorem replies_pushed (pushed : List Answer) :
    replies (pushed.map fun a => a.document [] XmlElement.noId_plain) = [] := by
  rw [replies_answers, if_pos rfl]

/-! ### Turns of the session -/

theorem push_answers {t : Talk World} (pushed : List Answer) (answers : Answers t) :
    Answers (t.push pushed) := by
  have here : replies (t.push pushed).output = replies t.output ++ replies
      (pushed.map fun a => a.document [] XmlElement.noId_plain) := replies_append ..
  rw [Answers, here, replies_pushed, List.append_nil]
  exact answers

theorem feed_input {s : XmlParser} {chunk : List Byte} {rest : List (List Byte)}
    {elements : List Element} (fed : XmlParser.feed s (chunk :: rest) = some elements) :
    ∃ here parser later, (s.read chunk).2.drain = some (here, parser) ∧
      XmlParser.feed parser rest = some later ∧ elements = here ++ later := by
  rw [XmlParser.feed] at fed
  cases drained : (s.read chunk).2.drain with
  | none =>
      rw [drained] at fed
      cases fed
  | some found =>
      rw [drained] at fed
      obtain ⟨later, others, same⟩ := Option.map_eq_some_iff.mp fed
      exact ⟨found.1, found.2, later, rfl, others, same.symm⟩

/-- These commands were processed on the way, in their order, and where no other thread did
anything it is as if they came one after the other. -/
structure Served (turns : List (Turn World)) (requests : List Request) (t reached : Talk World) :
    Prop where
  answers : Answers reached
  asked : reached.exchanges.map Exchange.request = t.exchanges.map Exchange.request ++ requests
  alone : (∀ each ∈ turns, each.others = id) →
    Agrees reached (requests.foldl (Talk.serve handle) t)

theorem Served.cons {now : Turn World} {rest : List (Turn World)} (found : List Request)
    {later : List Request}
    {t reached : Talk World} (answers : Answers t)
    (served : Served handle rest later
      ((found.foldl (Talk.serve handle) (t.meanwhile now.others)).push now.pushed) reached) :
    Served handle (now :: rest) (found ++ later) t reached where
  answers := served.answers
  asked := by
    have meanwhile : Answers (t.meanwhile now.others) := answers
    have asked := (serveAll_kept handle found meanwhile).2
    rw [served.asked, ← List.append_assoc]
    exact congrArg (· ++ later) asked
  alone quiet := by
    have here : t.meanwhile now.others = t := by
      rw [quiet now List.mem_cons_self]
      rfl
    have behind := served.alone fun each member => quiet each (List.mem_cons_of_mem _ member)
    rw [here] at behind
    rw [List.foldl_append]
    exact behind.trans (serveAll_agrees handle _ (push_agrees _ now.pushed))

/-- The commands of the chunks, in whatever turns they come. -/
theorem converse_feed (turns : List (Turn World)) {s : XmlParser} {t : Talk World}
    {elements : List Element}
    (fed : XmlParser.feed s (turns.filterMap Turn.input) = some elements) (answers : Answers t) :
    ∃ last reached, converse handle (s, t) turns = some (last, reached) ∧
      Served handle turns (elements.map Element.request) t reached := by
  induction turns generalizing s t elements with
  | nil =>
      cases fed
      exact ⟨s, t, rfl, answers, (List.append_nil _).symm, fun _ => ⟨rfl, rfl, rfl⟩⟩
  | cons now rest ih =>
      have meanwhile : Answers (t.meanwhile now.others) := answers
      cases input : now.input with
      | none =>
          rw [List.filterMap_cons_none input] at fed
          obtain ⟨last, reached, done, served⟩ := ih fed (push_answers now.pushed meanwhile)
          refine ⟨last, reached, ?_, .cons handle [] answers served⟩
          rw [converse, turn, input]
          exact done
      | some chunk =>
          rw [List.filterMap_cons_some input] at fed
          obtain ⟨found, parser, later, drained, others, whole⟩ := feed_input fed
          have here := (serveAll_kept handle (found.map Element.request) meanwhile).1
          obtain ⟨last, reached, done, served⟩ := ih others (push_answers now.pushed here)
          refine ⟨last, reached, ?_, ?_⟩
          · rw [converse, turn, input]
            dsimp only
            rw [drained]
            exact done
          · rw [whole, List.map_append]
            exact .cons handle _ answers served

def puTag : TagForm := ⟨⟨112, ascii "u", isalpha_p, by decide⟩, by decide⟩

theorem isalpha_r : isalpha 114 = true := by decide

theorem p_name :
    ∀ c ∈ ascii "p", c ∉ [Chr.equals, Chr.space, Chr.slash, Chr.greaterThan, Chr.nul] := by
  decide

theorem p_unopened : ∀ c ∈ ascii "p", c ≠ Chr.lessThan := by decide

def wpTag : TagForm := ⟨⟨119, ascii "p", Event.isalpha_w, p_name⟩, p_unopened⟩
def remoteHostTag : TagForm := ⟨⟨114, ascii "emote_host", isalpha_r, by decide⟩, by decide⟩
def accessName : NameForm := ⟨97, ascii "ccess", Broadcast.isalpha_a, by decide⟩

theorem allow_plain : ∀ c ∈ ascii "allow", c ≠ Chr.nul := by decide
theorem two_plain : ∀ c ∈ ascii "2", c ≠ Chr.nul := by decide

/-- A write without access, the login, and a write with it. -/
def login : List Document :=
  [⟨wpTag, [], .none, [], XmlElement.noId_plain⟩,
    ⟨remoteHostTag, [⟨accessName, ascii "allow", allow_plain⟩], .none, [], XmlElement.noId_plain⟩,
    ⟨wpTag, [], .none, ascii "2", two_plain⟩]

theorem pu_anonymous : Anonymous (puTag, []) := by decide

/-- The commands in two pieces, with a `<pu>` between. -/
def loginTurns : List (Turn Unit) :=
  [⟨some ((XmlElement.writeAll login).take 20), id, [bare puTag [] pu_anonymous]⟩,
    ⟨none, id, []⟩, ⟨some ((XmlElement.writeAll login).drop 20), id, []⟩]

def idle : Handle Unit := fun _ world _ => (world, [])

/-- A `remote_host` that says something about the access. -/
def decides (r : Request) : Bool :=
  func? r.tag == some .remoteHost && (r.command.find (ascii "access")).isSome

/-- The last of these commands that says something about the access has allowed it. -/
def granted (requests : List Request) : Bool := (requests.reverse.find? decides).any fun r =>
  allows r.command

theorem granted_append (requests : List Request) (r : Request) :
    granted (requests ++ [r]) = if decides r then allows r.command else granted requests := by
  unfold granted
  rw [List.reverse_append, List.reverse_singleton, List.singleton_append, List.find?_cons]
  split <;> next decided => rw [decided]; rfl

/-- What a command does to the access, and what the access does to it. -/
structure Checks (login : Login) (r : Request) (after : Login) (x : Exchange) : Prop where
  access : after.writeAccess = if decides r then allows r.command else login.writeAccess
  wrote : x.wrote = true ↔ func? r.tag = some .writeParameter ∧ login.writeAccess = true
  refuses : func? r.tag = some .writeParameter → login.writeAccess = false →
    x.answers = [bare warnTag refused refused_anonymous]

theorem decides_false {r : Request} (other : func? r.tag ≠ some .remoteHost) :
    decides r = false := by
  rw [decides, beq_eq_false_iff_ne.mpr other]
  rfl

/-- A command that is neither `remote_host` nor `write_parameter`. -/
theorem checks_other {login after : Login} {r : Request} {x : Exchange}
    (notHost : func? r.tag ≠ some .remoteHost) (notWrite : func? r.tag ≠ some .writeParameter)
    (same : after.writeAccess = login.writeAccess) (kept : x.wrote = false) :
    Checks login r after x where
  access := by rw [decides_false notHost, same]; rfl
  wrote := by
    rw [kept]
    exact ⟨nofun, fun writes => absurd writes.1 notWrite⟩
  refuses writes := absurd writes notWrite

theorem processCommand_checks (login : Login) (world : World) (r : Request) :
    Checks login r (processCommand handle login world r).1
      (processCommand handle login world r).2.2 := by
  unfold processCommand
  split
  case h_4 here =>
    refine ⟨?_, ⟨nofun, fun writes => ?_⟩, fun writes => ?_⟩
    · simp only [Login.remoteHost, decides, here, beq_self_eq_true, Bool.true_and]
    · rw [here] at writes
      cases writes.1
    · rw [here] at writes
      cases writes
  case h_5 here =>
    have notHost : func? r.tag ≠ some .remoteHost := by
      rw [here]
      decide
    by_cases access : login.writeAccess = true
    · rw [if_pos access]
      refine ⟨?_, ⟨fun _ => ⟨here, access⟩, fun _ => rfl⟩, fun _ none => ?_⟩
      · rw [decides_false notHost]
        rfl
      · rw [access] at none
        cases none
    · rw [if_neg access]
      refine ⟨?_, ⟨nofun, fun writes => absurd writes.2 access⟩, fun _ _ => rfl⟩
      rw [decides_false notHost]
      rfl
  case h_8 func _ _ _ notHost notWrite _ _ here =>
    refine checks_other (fun same => ?_) (fun same => ?_) rfl rfl
    · exact notHost (Option.some.inj (here.symm.trans same))
    · exact notWrite (Option.some.inj (here.symm.trans same))
  all_goals
    next here =>
    refine checks_other ?_ ?_ rfl rfl <;> rw [here] <;> decide

/-- Of each command, it got past the check if and only if the commands before it granted the
access, and otherwise the warning was written. -/
structure Guarded (t : Talk World) : Prop where
  access : t.login.writeAccess = granted (t.exchanges.map Exchange.request)
  each : ∀ front x back, t.exchanges = front ++ x :: back →
    (x.wrote = true ↔ func? x.request.tag = some .writeParameter ∧
      granted (front.map Exchange.request) = true) ∧
    (func? x.request.tag = some .writeParameter →
      granted (front.map Exchange.request) = false →
      x.answers = [bare warnTag refused refused_anonymous])

theorem serve_guarded {t : Talk World} (r : Request) (guarded : Guarded t) :
    Guarded (t.serve handle r) := by
  have checks := processCommand_checks handle t.login t.world r
  have request := processCommand_request handle t.login t.world r
  have exchanges : (t.serve handle r).exchanges =
      t.exchanges ++ [(processCommand handle t.login t.world r).2.2] := rfl
  constructor
  · rw [serve_requests handle, granted_append, ← guarded.access]
    exact checks.access
  · intro front x back split
    rw [exchanges] at split
    rcases List.eq_nil_or_concat' back with rfl | ⟨rest, last, rfl⟩
    · -- the command itself
      obtain ⟨before, same⟩ := List.append_inj' split rfl
      rw [← List.singleton_inj.mp same, request, ← before, ← guarded.access]
      exact ⟨checks.wrote, checks.refuses⟩
    · -- one before it
      have earlier : t.exchanges ++ [(processCommand handle t.login t.world r).2.2] =
          (front ++ x :: rest) ++ [last] := by
        rw [split, List.append_assoc]
        rfl
      exact guarded.each front x rest (List.append_inj' earlier rfl).1

theorem serveAll_guarded (requests : List Request) {t : Talk World} (guarded : Guarded t) :
    Guarded (requests.foldl (Talk.serve handle) t) := by
  induction requests generalizing t with
  | nil => exact guarded
  | cons r rest ih => exact ih (serve_guarded handle r guarded)

theorem turn_guarded {s after : XmlParser × Talk World} {now : Turn World}
    (guarded : Guarded s.2) (done : turn handle s now = some after) : Guarded after.2 := by
  unfold turn at done
  dsimp only at done
  split at done
  · cases done
    exact ⟨guarded.access, guarded.each⟩
  · obtain ⟨⟨elements, parser⟩, -, same⟩ := Option.map_eq_some_iff.mp done
    have meanwhile : Guarded (s.2.meanwhile now.others) := ⟨guarded.access, guarded.each⟩
    have served := serveAll_guarded handle (elements.map Element.request) meanwhile
    cases same
    exact ⟨served.access, served.each⟩

/-- Whatever bytes a client sends, cut in any way, `writeParameter` gets past its check for
exactly those of its commands before which the last `remote_host` that says something about
the access has allowed it; all others are answered with the warning. -/
theorem writes_granted (handle : Handle World) (greeting : Answer) (world : World) (bufMax : Nat)
    (turns : List (Turn World)) {last : XmlParser} {reached : Talk World}
    (done : converse handle (XmlParser.new bufMax, .start greeting world) turns =
      some (last, reached))
    (front back : List Exchange) (x : Exchange) (split : reached.exchanges = front ++ x :: back) :
    (x.wrote = true ↔ func? x.request.tag = some .writeParameter ∧
      granted (front.map Exchange.request) = true) ∧
    (func? x.request.tag = some .writeParameter →
      granted (front.map Exchange.request) = false →
      x.answers = [bare warnTag refused refused_anonymous]) := by
  have run (turns : List (Turn World)) (s : XmlParser × Talk World) (guarded : Guarded s.2)
      (done : converse handle s turns = some (last, reached)) : Guarded reached := by
    induction turns generalizing s with
    | nil =>
        cases done
        exact guarded
    | cons now rest ih =>
        obtain ⟨after, here, later⟩ := Option.bind_eq_some_iff.mp done
        exact ih after (turn_guarded handle guarded here) later
  have start : Guarded (.start greeting world) :=
    ⟨rfl, fun front x back nothing => nomatch List.append_eq_nil_iff.mp nothing.symm⟩
  exact (run turns _ start done).each front x back split

/-- The first write is refused, the other one is not. -/
theorem writes_granted_login :
    ∃ last reached,
      converse idle (XmlParser.new 8192, .start (bare pingTag [] ping_anonymous) ()) loginTurns =
        some (last, reached) ∧
      reached.exchanges.map Exchange.wrote = [false, false, true] ∧
      ∀ front back x, reached.exchanges = front ++ x :: back →
        (x.wrote = true ↔ func? x.request.tag = some .writeParameter ∧
          granted (front.map Exchange.request) = true) ∧
        (func? x.request.tag = some .writeParameter →
          granted (front.map Exchange.request) = false →
          x.answers = [bare warnTag refused refused_anonymous]) := by
  obtain ⟨elements, fed, reads⟩ := XmlElement.documents_read 8192 login
    (loginTurns.filterMap Turn.input) (by decide) (by decide)
  obtain ⟨last, reached, done, served⟩ := converse_feed idle loginTurns
    (t := .start (bare pingTag [] ping_anonymous) ()) fed rfl
  rw [requests_of_reads reads] at served
  have alone := served.alone (by simp [loginTurns])
  refine ⟨last, reached, done, ?_, fun front back x => writes_granted idle _ () 8192 loginTurns
    done front back x⟩
  rw [alone.exchanges]
  rfl

end

end Conversation

end PdServ
