import PdServ.Base64Value
import PdServ.Conversation
import PdServ.SubscriptionRuns

/-!
The `<data>` elements of a session on their way to the client: what `rxPdo` and
`Subscription::print` write of them, and what the client reads of it. Values that are not
sent in base64 are left to a parameter.
-/

namespace PdServ
open XmlElement (TagForm Children Content Document Shown)

/-! ### Text that needs no escape -/

def Quiet (str : List Byte) : Prop :=
  ∀ c ∈ str, c ∉ XmlElement.escapes.map Prod.fst ∧ c ≠ Chr.nul

theorem Quiet.escaped {str : List Byte} (quiet : Quiet str) : XmlElement.setEscaped str = str := by
  have alone (c : Byte) (member : c ∈ str) : XmlElement.escape c = [c] :=
    XmlElement.escape_other c (quiet c member).1
  rw [XmlElement.setEscaped, List.flatMap_congr alone, List.flatMap_singleton']

theorem Quiet.append {front back : List Byte} (first : Quiet front) (second : Quiet back) :
    Quiet (front ++ back) := by
  intro c member
  rcases List.mem_append.mp member with early | late
  · exact first c early
  · exact second c late

theorem quiet_digits (n : Nat) : Quiet (digits n) := by
  intro c member
  have digit := isdigit_digits n c member
  refine ⟨fun special => ?_, fun none => ?_⟩
  · simp only [XmlElement.escapes, List.map_cons, List.map_nil, List.mem_cons, List.not_mem_nil,
      or_false] at special
    rcases special with rfl | rfl | rfl | rfl | rfl <;> revert digit <;> decide
  · subst none
    revert digit
    decide

theorem alphabet_quiet : Quiet Base64.alphabet := by
  unfold Quiet
  decide

theorem quiet_base64 (data : List Byte) : Quiet (base64 data) := by
  have short : data.length % 3 < 3 := Nat.mod_lt _ (by decide)
  obtain ⟨text, padding, listed, -⟩ := tail_shape (fun i => data.getD i 0)
    (data.length - data.length % 3) (data.length % 3) short
  have equals : Quiet [Chr.equals] := by
    unfold Quiet
    decide
  rw [base64, padding]
  refine .append (fun c member => ?_) (.append (fun c member => ?_) fun c member => ?_)
  · exact alphabet_quiet c ((chunks_shape _ _ _).2 c member)
  · exact alphabet_quiet c (listed c member)
  · exact equals c (List.mem_singleton.mpr (List.eq_of_mem_replicate member))

/-- A reader that follows RFC 4648 gets the bytes back. -/
theorem decode_base64 (data : List Byte) : Base64.decode (base64 data) = some data := by
  have short : data.length % 3 < 3 := Nat.mod_lt _ (by decide)
  have rounds : 3 * ((data.length - data.length % 3) / 3) = data.length - data.length % 3 := by
    omega
  have total : data.length - data.length % 3 + data.length % 3 = data.length :=
    Nat.sub_add_cancel (Nat.mod_le _ _)
  have joined := slice_append (fun i => data.getD i 0) 0 (data.length - data.length % 3)
    (data.length % 3)
  rw [Nat.zero_add, total, slice_data] at joined
  rw [base64, decode_chunks, decode_tail _ _ _ short, rounds, Option.map_some, joined]

/-! ### What is written -/

/-- `csv(channel, data_bptr, nblocks, precision)`: numbers with commas and semicolons between
them. -/
structure Csv where
  text : Datum → List Byte
  quiet : ∀ datum, Quiet (text datum)

namespace Datum

variable (csv : Csv) (datum : Datum)

def value : List Byte := if datum.base64 then PdServ.base64 datum.d else csv.text datum

def tag : List Byte :=
  match datum.name with
  | .F => ascii "F"
  | .E => ascii "E"

/-- `Subscription::print`, where it prints. -/
def print (parent : XmlElement) : XmlElement :=
  let (parent, element) := parent.createChild datum.tag
  let element := element.insertAttribute (ascii "c") (digits datum.c)
  let element := element.insertAttribute (ascii "d") (datum.value csv)
  { parent with os := element.close }

theorem value_quiet : Quiet (datum.value csv) := by
  unfold value
  split
  · exact quiet_base64 datum.d
  · exact csv.quiet datum

end Datum

namespace DataElement

variable (csv : Csv) (unwritten : Nat) (e : DataElement)

def taskTime : Timespec := ⟨UInt64.ofNat e.tv_sec, UInt64.ofNat e.tv_nsec⟩

/-- The bytes of `bit->second.time`; a word that was never written is anything. -/
def timeBytes : List Byte :=
  (e.time.map fun word => word.getD unwritten).flatMap (Memory.encode 8)

/-- What `rxPdo` writes of one chain `printQ`. -/
def write (os : List Byte) : List Byte :=
  let dataTag := XmlElement.new (ascii "data") os 0 []
  let dataTag :=
    if e.group ≠ 0 then dataTag.insertAttribute (ascii "group") (digits e.group) else dataTag
  let dataTag := dataTag.insertAttribute (ascii "level") (ascii "0")
  let dataTag := dataTag.insertAttribute (ascii "time") (XmlElement.timeText e.taskTime)
  let (dataTag, time) := dataTag.createChild (ascii "time")
  let time := time.insertAttribute (ascii "d") (base64 (e.timeBytes unwritten))
  let dataTag := { dataTag with os := time.close }
  (e.datums.foldl (fun parent datum => datum.print csv parent) dataTag).close

end DataElement

/-! ### The same as a document -/

namespace DataElement

theorem isalpha_d : isalpha 100 = true := by decide
theorem isalpha_g : isalpha 103 = true := by decide
theorem isalpha_l : isalpha 108 = true := by decide
theorem isalpha_E : isalpha 69 = true := by decide
theorem isalpha_F : isalpha 70 = true := by decide

theorem alone :
    ∀ c ∈ ([] : List Byte), c ∉ [Chr.equals, Chr.space, Chr.slash, Chr.greaterThan, Chr.nul] :=
  nofun

theorem alone_unopened : ∀ c ∈ ([] : List Byte), c ≠ Chr.lessThan := nofun

theorem ime_unopened : ∀ c ∈ ascii "ime", c ≠ Chr.lessThan := by decide

namespace Key
def group : NameForm := ⟨103, ascii "roup", isalpha_g, by decide⟩
def level : NameForm := ⟨108, ascii "evel", isalpha_l, by decide⟩
def c : NameForm := ⟨99, [], Event.isalpha_c, alone⟩
def d : NameForm := ⟨100, [], isalpha_d, alone⟩
end Key

def dataTag : TagForm := ⟨⟨100, ascii "ata", isalpha_d, by decide⟩, by decide⟩
def timeTag : TagForm := ⟨XmlElement.timeName, ime_unopened⟩

/-- An attribute that is written as it is. -/
def quietContent (name : NameForm) (str : List Byte) (quiet : Quiet str) : Content :=
  ⟨name, str, fun c member => (quiet c member).2⟩

theorem zero_quiet : Quiet (ascii "0") := by
  unfold Quiet
  decide

def attributes (e : DataElement) : List Content :=
  (if e.group ≠ 0 then [quietContent Key.group (digits e.group) (quiet_digits e.group)] else []) ++
    [quietContent Key.level (ascii "0") zero_quiet, XmlElement.timeContent e.taskTime]

end DataElement

open DataElement (quietContent dataTag timeTag)

namespace Datum

variable (csv : Csv)

def tagForm (datum : Datum) : TagForm :=
  match datum.name with
  | .F => ⟨⟨70, [], DataElement.isalpha_F, DataElement.alone⟩, DataElement.alone_unopened⟩
  | .E => ⟨⟨69, [], DataElement.isalpha_E, DataElement.alone⟩, DataElement.alone_unopened⟩

theorem tagForm_bytes (datum : Datum) : datum.tagForm.bytes = datum.tag := by
  unfold tag tagForm
  split <;> rfl

def attributes (datum : Datum) : List Content :=
  [quietContent DataElement.Key.c (digits datum.c) (quiet_digits datum.c),
    quietContent DataElement.Key.d (datum.value csv) (datum.value_quiet csv)]

def children : List Datum → Children
  | [] => .none
  | datum :: rest => .element datum.tagForm (datum.attributes csv) .none (children rest)

theorem insertAttribute_quiet (e : XmlElement) (name : NameForm) {str : List Byte}
    (quiet : Quiet str) :
    e.insertAttribute name.bytes str = e.writeAttribute name.bytes str := by
  rw [XmlElement.insertAttribute, XmlElement.writeAttribute, quiet.escaped]

theorem print_children (datums : List Datum) (parent : XmlElement) :
    datums.foldl (fun parent datum => datum.print csv parent) parent =
      parent.writeChildren (children csv datums) := by
  induction datums generalizing parent with
  | nil => rfl
  | cons datum rest ih =>
      have written (element : XmlElement) :
          (element.insertAttribute (ascii "c") (digits datum.c)).insertAttribute (ascii "d")
            (datum.value csv) = element.writeAttributes (datum.attributes csv) := by
        have c := insertAttribute_quiet element DataElement.Key.c (quiet_digits datum.c)
        have d := insertAttribute_quiet (element.insertAttribute (ascii "c") (digits datum.c))
          DataElement.Key.d (datum.value_quiet csv)
        exact d.trans (congrArg (fun e => e.writeAttribute (ascii "d") (datum.value csv)) c)
      rw [List.foldl_cons, ih, children, XmlElement.writeChildren, print,
        ← tagForm_bytes]
      dsimp only
      rw [written]
      rfl

/-- What the client is to read of a datum. -/
structure Received (datum : Datum) (element : Element) : Prop where
  tag : element.tag = .text datum.tag
  c : element.getString (ascii "c") = some (some (digits datum.c))
  d : datum.base64 = true → ∃ text, element.getString (ascii "d") = some (some text) ∧
    Base64.decode text = some datum.d

theorem shown_children (datums : List Datum) :
    (children csv datums).shown = datums.map fun datum => (datum.tagForm, datum.attributes csv) := by
  induction datums with
  | nil => rfl
  | cons datum rest ih =>
      rw [children, Children.shown, ih]
      rfl

theorem distinct (datum : Datum) : XmlElement.Distinct (datum.tagForm, datum.attributes csv) := by
  rw [XmlElement.Distinct, tagForm_bytes]
  cases name : datum.name <;> simp only [tag, name, attributes, quietContent, List.map_cons,
    List.map_nil] <;> decide

theorem received_of_reads {datum : Datum} {element : Element}
    (reads : XmlParser.Reads True element
      (XmlElement.raw (datum.tagForm, datum.attributes csv))) : datum.Received element where
  tag := by
    rw [(XmlElement.shows_of_reads reads).tag, tagForm_bytes]
  c := (XmlElement.shows_of_reads reads).strings (distinct csv datum) _ List.mem_cons_self
  d coded := by
    refine ⟨datum.value csv, (XmlElement.shows_of_reads reads).strings (distinct csv datum) _
      (List.mem_cons_of_mem _ List.mem_cons_self), ?_⟩
    rw [value, if_pos coded]
    exact decode_base64 datum.d

end Datum

namespace DataElement

variable (csv : Csv) (unwritten : Nat) (e : DataElement)

def document : Document where
  tag := dataTag
  attributes := e.attributes
  children := .element timeTag
    [quietContent Key.d (base64 (e.timeBytes unwritten)) (quiet_base64 _)] .none
    (Datum.children csv e.datums)
  id := []
  plain := XmlElement.noId_plain

theorem insert_attributes (element : XmlElement) :
    ((if e.group ≠ 0 then element.insertAttribute (ascii "group") (digits e.group) else element
      ).insertAttribute (ascii "level") (ascii "0")).insertAttribute (ascii "time")
        (XmlElement.timeText e.taskTime) = element.writeAttributes e.attributes := by
  have behind (element : XmlElement) :
      (element.insertAttribute (ascii "level") (ascii "0")).insertAttribute (ascii "time")
        (XmlElement.timeText e.taskTime) = element.writeAttributes
          [quietContent Key.level (ascii "0") zero_quiet, XmlElement.timeContent e.taskTime] := by
    have level := Datum.insertAttribute_quiet element Key.level zero_quiet
    have time (element : XmlElement) : element.insertAttribute (ascii "time")
        (XmlElement.timeText e.taskTime) =
          element.writeAttribute (ascii "time") (XmlElement.timeText e.taskTime) := by
      rw [Variable.writeAttribute_escaped, XmlElement.timeText_escaped]
    rw [time]
    exact congrArg (fun element =>
      element.writeAttribute (ascii "time") (XmlElement.timeText e.taskTime)) level
  rw [behind, attributes, XmlElement.writeAttributes, XmlElement.writeAttributes, List.foldl_append]
  by_cases grouped : e.group ≠ 0
  · rw [if_pos grouped, if_pos grouped]
    have group := Datum.insertAttribute_quiet element Key.group (quiet_digits e.group)
    exact congrArg (fun element => [quietContent Key.level (ascii "0") zero_quiet,
      XmlElement.timeContent e.taskTime].foldl
        (fun e a => e.writeAttribute a.name.bytes a.str) element) group
  · rw [if_neg grouped, if_neg grouped]
    rfl

/-- What is written is the document. -/
theorem write_document (os : List Byte) :
    e.write csv unwritten os = (e.document csv unwritten).write os := by
  have d (time : XmlElement) : time.insertAttribute (ascii "d") (base64 (e.timeBytes unwritten)) =
      time.writeAttribute (ascii "d") (base64 (e.timeBytes unwritten)) :=
    Datum.insertAttribute_quiet time Key.d (quiet_base64 _)
  rw [write, insert_attributes]
  dsimp only
  rw [d, Datum.print_children]
  rfl

/-! ### What is read -/

/-- What the client is to read of a `<data>` element: the time of the tick, the words of the
time channel, and the values. -/
structure Received (e : DataElement) (elements : List Element) : Prop where
  shape : ∃ data time values, elements = data :: time :: values ∧
    data.tag = .text (ascii "data") ∧
    data.getString (ascii "time") = some (some (XmlElement.timeText e.taskTime)) ∧
    (e.group ≠ 0 → data.getString (ascii "group") = some (some (digits e.group))) ∧
    time.tag = .text (ascii "time") ∧
    (∃ text, time.getString (ascii "d") = some (some text) ∧
      Base64.decode text = some (e.timeBytes unwritten)) ∧
    List.Forall₂ Datum.Received e.datums values

theorem distinct : XmlElement.Distinct (dataTag, e.attributes) := by
  rw [XmlElement.Distinct, attributes]
  by_cases grouped : e.group ≠ 0
  · rw [if_pos grouped]
    simp only [quietContent, XmlElement.timeContent, List.singleton_append, List.map_cons,
      List.map_nil]
    decide
  · rw [if_neg grouped]
    simp only [quietContent, XmlElement.timeContent, List.nil_append, List.map_cons, List.map_nil]
    decide

theorem received_of_reads {elements : List Element}
    (reads : List.Forall₂ (fun element shown =>
      XmlParser.Reads True element (XmlElement.raw shown)) elements
        (e.document csv unwritten).shown) : e.Received unwritten elements := by
  have outer : (e.document csv unwritten).shown = (dataTag, e.attributes) ::
      (timeTag, [quietContent Key.d (base64 (e.timeBytes unwritten)) (quiet_base64 _)]) ::
        e.datums.map fun datum => (datum.tagForm, datum.attributes csv) := by
    rw [Document.shown, document, ← Datum.shown_children]
    rfl
  rw [outer] at reads
  obtain ⟨data, rest, first, behind, rfl⟩ := List.forall₂_cons_right_iff.mp reads
  obtain ⟨time, values, second, datums, rfl⟩ := List.forall₂_cons_right_iff.mp behind
  have dataShows := XmlElement.shows_of_reads first
  have timeShows := XmlElement.shows_of_reads second
  have grouped (some : e.group ≠ 0) :
      quietContent Key.group (digits e.group) (quiet_digits e.group) ∈ e.attributes := by
    rw [attributes, if_pos some]
    exact List.mem_cons_self
  have stamped : XmlElement.timeContent e.taskTime ∈ e.attributes :=
    List.mem_append_right _ (List.mem_cons_of_mem _ List.mem_cons_self)
  refine ⟨data, time, values, rfl, dataShows.tag, dataShows.strings e.distinct _ stamped,
    fun some => dataShows.strings e.distinct _ (grouped some), timeShows.tag,
    ⟨base64 (e.timeBytes unwritten), timeShows.strings ?_ _ List.mem_cons_self, decode_base64 _⟩,
    ?_⟩
  · rw [XmlElement.Distinct]
    simp only [quietContent, List.map_cons, List.map_nil]
    decide
  · rw [List.forall₂_map_right_iff] at datums
    exact List.Forall₂.flip (datums.imp fun _ _ here => Datum.received_of_reads csv here)

/-- The elements of a stream of documents, document by document. -/
theorem split_reads {documents : List Document} {elements : List Element}
    (reads : List.Forall₂ (fun element shown =>
      XmlParser.Reads True element (XmlElement.raw shown)) elements
        (documents.flatMap Document.shown)) :
    ∃ groups : List (List Element), elements = groups.flatten ∧
      List.Forall₂ (fun group document => List.Forall₂ (fun element shown =>
        XmlParser.Reads True element (XmlElement.raw shown)) group document.shown)
        groups documents := by
  induction documents generalizing elements with
  | nil => exact ⟨[], List.forall₂_nil_right_iff.mp reads, .nil⟩
  | cons document rest ih =>
      rw [List.flatMap_cons] at reads
      obtain ⟨groups, whole, each⟩ := ih (List.forall₂_drop_append _ _ _ reads)
      refine ⟨elements.take document.shown.length :: groups, ?_,
        .cons (List.forall₂_take_append _ _ _ reads) each⟩
      rw [List.flatten_cons, ← whole, List.take_append_drop]

end DataElement

/-- However the output of a manager is cut on its way, the client reads each of its `<data>`
elements with its time, its time channel and its values; where values are sent in base64 it
gets, for each channel of a block group, the bytes of the channel in those ticks, one after
the other, whose time stamps it gets from the time channel. -/
theorem ManagerRun.data_decodes {channels : Nat → Channel}
    {actions : List SubscriptionManager.Action} {m : SubscriptionManager}
    {out : List DataElement} (run : ManagerRun channels actions m out) (csv : Csv)
    (unwritten bufMax : Nat) (chunks : List (List Byte))
    (complete : chunks.flatten = out.foldl (fun os e => e.write csv unwritten os) [])
    (taken : XmlParser.EveryRead XmlParser.Taken (XmlParser.new bufMax) [] chunks) :
    ∃ groups : List (List Element), XmlParser.feed (XmlParser.new bufMax) chunks =
        some groups.flatten ∧
      List.Forall₂ (fun e elements =>
        (e.blocksize ≠ 0 → ∃ ticks : List Tick, ticks.Sublist (processed actions) ∧
          ticks.length = e.blocksize ∧
          e.timeBytes unwritten =
            ticks.flatMap (fun tick => Memory.encode 8 tick.nanoseconds) ∧
          ∀ datum ∈ e.datums, datum.name = .F ∧
            datum.d = ticks.flatMap fun tick => tick.sample (channels datum.c)) ∧
        e.Received unwritten elements) out groups := by
  have written : chunks.flatten =
      XmlElement.writeAll (out.map fun e => e.document csv unwritten) := by
    rw [complete, XmlElement.writeAll, List.foldl_map]
    simp only [DataElement.write_document]
  obtain ⟨elements, fed, reads⟩ := XmlElement.documents_read bufMax _ chunks written taken
  obtain ⟨groups, rfl, each⟩ := DataElement.split_reads reads
  rw [List.forall₂_map_right_iff] at each
  refine ⟨groups, fed, (List.forall₂_and_left out groups).mpr ⟨fun e member block => ?_, ?_⟩⟩
  · have coherent := run.blocks.2 e member
    rw [DataElement.Coherent, if_neg block] at coherent
    obtain ⟨ticks, sub, length, time, datums⟩ := coherent
    refine ⟨ticks, sub, length, ?_, fun datum inside => ?_⟩
    · rw [DataElement.timeBytes, time, List.map_map, List.flatMap_map]
      rfl
    · obtain ⟨name, holds⟩ := datums datum inside
      exact ⟨name, holds.2⟩
  · exact List.Forall₂.flip (each.imp fun _ e here => e.received_of_reads csv unwritten here)

def sampleChannels (_ : Nat) : Channel := ⟨0, 0, 1⟩

/-- A block group of two entries, in base64, and two ticks. -/
def sampleTicks : List SubscriptionManager.Action :=
  [.subscribe 0 1 1 2 true 16 0 true, .rxPdo false ⟨1, 2, fun _ _ => 7⟩,
    .rxPdo false ⟨1, 5, fun _ _ => 8⟩]

def sampleData : DataElement where
  group := 1
  decimation := 1
  blocksize := 2
  tv_sec := 1
  tv_nsec := 5
  time := [some 1000000002, some 1000000005]
  datums := [⟨.F, 0, true, 16, 2, [7, 8]⟩]

def noCsv : Csv := ⟨fun _ => [], nofun⟩

def sampleWritten : List Byte := sampleData.write noCsv 0 []

theorem ManagerRun.data_decodes_twoTicks :
    ∃ m, ManagerRun sampleChannels sampleTicks m [sampleData] ∧
      ∃ groups : List (List Element), XmlParser.feed (XmlParser.new 8192)
          [sampleWritten.take 40, sampleWritten.drop 40] = some groups.flatten ∧
        List.Forall₂ (fun e elements =>
          (e.blocksize ≠ 0 → ∃ ticks : List Tick, ticks.Sublist (processed sampleTicks) ∧
            ticks.length = e.blocksize ∧
            e.timeBytes 0 = ticks.flatMap (fun tick => Memory.encode 8 tick.nanoseconds) ∧
            ∀ datum ∈ e.datums, datum.name = .F ∧
              datum.d = ticks.flatMap fun tick => tick.sample (sampleChannels datum.c)) ∧
          e.Received 0 elements) [sampleData] groups := by
  have run : ∃ m out, ManagerRun sampleChannels sampleTicks m out ∧ out = [sampleData] :=
    ⟨_, _, .step (.rxPdo false ⟨1, 5, fun _ _ => 8⟩)
      (.step (.rxPdo false ⟨1, 2, fun _ _ => 7⟩)
        (.step (.subscribe 0 1 1 2 true 16 0 true) .start rfl rfl) trivial rfl)
      trivial rfl, rfl⟩
  obtain ⟨m, out, run, rfl⟩ := run
  refine ⟨m, run, run.data_decodes noCsv 0 8192 _ ?_ (by decide +kernel)⟩
  rw [List.flatten_cons, List.flatten_cons, List.flatten_nil, List.append_nil,
    List.take_append_drop]
  rfl

end PdServ
