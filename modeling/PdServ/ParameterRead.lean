import PdServ.ParameterWrite
import PdServ.Task
import PdServ.WalkInvariant

/-!
`Session::readParameter`: one parameter, or the list of all of them. A parameter that is
shown reads its bytes in a copy of the application's parameter, which is taken once for
all that share it.
-/

namespace PdServ

/-- A `<parameter>` element: what it is about and the bytes its value is printed from. -/
structure ParameterElement where
  index : Nat
  value : List Byte
  mtime : Timespec
  shortReply : Bool
  hex : Bool
deriving DecidableEq

/-- What the client is sent for a `read_parameter`. -/
inductive ReadReply where
  | nothing
  | parameter (element : ParameterElement)
  | parameters (elements : List ParameterElement)
deriving DecidableEq

/-- How a `read_parameter` wants its values. -/
structure ReadStyle where
  shortReply : Bool
  hex : Bool

/-- `setXmlAttributes(xml, buf, ts, shortReply, hex, 16)` -/
def Parameter.setXmlAttributes (p : Parameter) (index : Nat) (style : ReadStyle)
    (value : List Byte × Timespec) : ParameterElement :=
  { index := index
    value := (value.1.drop p.offset).take p.memSize
    mtime := value.2
    shortReply := style.shortReply
    hex := style.hex }

/-- `mainParam->getValue(this, buf, &ts)` for every parameter of the application. -/
abbrev GetValue := Nat → List Byte × Timespec

namespace Session

variable (getValue : GetValue) (style : ReadStyle)

/-- The two loops over the parameters. In the inner one, `printing` is the `mainParam` whose
group is printed, and `buf`; where it ends the outer one looks at the same parameter. -/
def listParameters : (printing : Option (Nat × (List Byte × Timespec))) →
    List (Parameter × Nat) → List ParameterElement
  | _, [] => []
  | none, (p, index) :: rest =>
      if p.hidden then listParameters none rest
      else
        let buf := getValue p.mainParam
        p.setXmlAttributes index style buf :: listParameters (some (p.mainParam, buf)) rest
  | some (mainParam, buf), (p, index) :: rest =>
      if mainParam = p.mainParam then
        p.setXmlAttributes index style buf :: listParameters (some (mainParam, buf)) rest
      else if p.hidden then listParameters none rest
      else
        let buf := getValue p.mainParam
        p.setXmlAttributes index style buf :: listParameters (some (p.mainParam, buf)) rest

/-- The reply about one parameter, if there is one. -/
def readOne (server : Server) (index : Option Nat) : ReadReply :=
  match index with
  | none => .nothing
  | some index =>
      match server.parameters[index]? with
      | none => .nothing
      | some p => .parameter (p.setXmlAttributes index style (getValue p.mainParam))

/-- `find` is the lookup in the directory. -/
def readParameter (server : Server) (find : List Byte → Option Nat) (command : Command) :
    ReadReply :=
  let style := ⟨command.isTrue (ascii "short"), command.isTrue (ascii "hex")⟩
  match command.getString (ascii "name") with
  | some name => readOne getValue style server (find name)
  | none =>
      match command.getUnsigned (ascii "index") with
      | some index =>
          -- `getParameter(index)`
          readOne getValue style server (if index < server.parameters.length then some index else none)
      | none => .parameters (listParameters getValue style none server.parameters.zipIdx)

/-! ### What the list shows -/

/-- Every parameter that is not hidden, from its own application parameter. -/
def visibleParameters (parameters : List (Parameter × Nat)) : List ParameterElement :=
  (parameters.filter fun p => !p.1.hidden).map fun p =>
    p.1.setXmlAttributes p.2 style (getValue p.1.mainParam)

/-- Behind a parameter that is shown, no hidden one has the same application parameter. -/
def HiddenFirst (parameters : List Parameter) : Prop :=
  parameters.Pairwise fun p q => p.mainParam = q.mainParam → q.hidden = true → p.hidden = true

instance (parameters : List Parameter) : Decidable (HiddenFirst parameters) :=
  inferInstanceAs (Decidable (parameters.Pairwise _))

/-- The parameters of an application parameter stand together. -/
def Grouped (parameters : List Parameter) : Prop :=
  parameters.Pairwise fun p q => p.mainParam ≤ q.mainParam

variable {getValue style}

theorem visibleParameters_cons_hidden {p : Parameter} {index : Nat}
    {rest : List (Parameter × Nat)} (hidden : p.hidden = true) :
    visibleParameters getValue style ((p, index) :: rest) = visibleParameters getValue style rest := by
  simp [visibleParameters, hidden]

theorem visibleParameters_cons {p : Parameter} {index : Nat} {rest : List (Parameter × Nat)}
    (visible : p.hidden = false) :
    visibleParameters getValue style ((p, index) :: rest) =
      p.setXmlAttributes index style (getValue p.mainParam) ::
        visibleParameters getValue style rest := by
  simp [visibleParameters, visible]

theorem index_of_visible {parameters : List (Parameter × Nat)} {element : ParameterElement}
    (member : element ∈ visibleParameters getValue style parameters) :
    element.index ∈ parameters.map Prod.snd := by
  obtain ⟨p, listed, rfl⟩ := List.mem_map.mp member
  exact List.mem_map_of_mem (List.mem_filter.mp listed).1

theorem hiddenFirst_cons_hidden {p : Parameter} {rest : List Parameter} (hidden : p.hidden = true) :
    HiddenFirst (p :: rest) ↔ HiddenFirst rest := by
  rw [HiddenFirst, List.pairwise_cons]
  exact and_iff_right fun _ _ _ _ => hidden

theorem hiddenFirst_cons {p : Parameter} {rest : List Parameter} (visible : p.hidden = false) :
    HiddenFirst (p :: rest) ↔
      (∀ q ∈ rest, q.mainParam = p.mainParam → q.hidden = false) ∧ HiddenFirst rest := by
  rw [HiddenFirst, List.pairwise_cons]
  apply and_congr_left'
  apply forall₂_congr
  intro q _
  rw [visible, eq_comm]
  cases q.hidden <;> simp

variable (getValue style) in
/-- The loops show what they should from here on, if nothing hidden belongs to the group
that is being printed, and hidden parameters come first in every group behind. -/
theorem listParameters_iff (printing : Option Nat) (parameters : List (Parameter × Nat))
    (grouped : Grouped (parameters.map Prod.fst)) (indexes : (parameters.map Prod.snd).Nodup)
    (below : ∀ m ∈ printing, ∀ p ∈ parameters, m ≤ p.1.mainParam) :
    listParameters getValue style (printing.map fun m => (m, getValue m)) parameters =
        visibleParameters getValue style parameters ↔
      (∀ m ∈ printing, ∀ p ∈ parameters, p.1.mainParam = m → p.1.hidden = false) ∧
        HiddenFirst (parameters.map Prod.fst) := by
  induction parameters generalizing printing with
  | nil => simp [listParameters, visibleParameters, HiddenFirst]
  | cons first rest ih =>
      obtain ⟨p, index⟩ := first
      obtain ⟨ahead, grouped⟩ := List.pairwise_cons.mp grouped
      obtain ⟨fresh, indexes⟩ := List.nodup_cons.mp indexes
      have above : ∀ q ∈ rest, p.mainParam ≤ q.1.mainParam := fun q member =>
        ahead q.1 (List.mem_map_of_mem member)
      -- the outer loop comes to `p`
      have outer : (if p.hidden then listParameters getValue style none rest
          else p.setXmlAttributes index style (getValue p.mainParam) ::
            listParameters getValue style (some (p.mainParam, getValue p.mainParam)) rest) =
            visibleParameters getValue style ((p, index) :: rest) ↔
          HiddenFirst (p :: rest.map Prod.fst) := by
        cases hidden : p.hidden with
        | true =>
            rw [if_pos rfl, visibleParameters_cons_hidden hidden, hiddenFirst_cons_hidden hidden]
            simpa using ih none grouped indexes (by simp)
        | false =>
            rw [if_neg Bool.false_ne_true, visibleParameters_cons hidden, hiddenFirst_cons hidden,
              List.cons_inj_right]
            simpa using ih (some p.mainParam) grouped indexes (by simpa using above)
      cases printing with
      | none => simpa [listParameters] using outer
      | some m =>
          by_cases same : m = p.mainParam
          · subst same
            -- the inner loop goes on, whether `p` is hidden or not
            have inner := ih (some p.mainParam) grouped indexes (by simpa using above)
            cases hidden : p.hidden with
            | true =>
                rw [visibleParameters_cons_hidden hidden]
                apply iff_of_false
                · intro shown
                  have member : p.setXmlAttributes index style (getValue p.mainParam) ∈
                      visibleParameters getValue style rest := by
                    rw [← shown, Option.map_some, listParameters, if_pos rfl]
                    exact List.mem_cons_self
                  exact fresh (index_of_visible member)
                · rintro ⟨none, -⟩
                  have visible := none p.mainParam rfl (p, index) List.mem_cons_self rfl
                  rw [hidden] at visible
                  cases visible
            | false =>
                rw [visibleParameters_cons hidden, Option.map_some, listParameters, if_pos rfl,
                  List.cons_inj_right, List.map_cons, hiddenFirst_cons hidden]
                rw [Option.map_some] at inner
                rw [inner]
                simp [hidden]
          · -- it ends: no parameter behind has this application parameter
            have gone : ∀ q ∈ (p, index) :: rest, q.1.mainParam ≠ m := by
              intro q member equal
              have start := below m rfl (p, index) List.mem_cons_self
              rcases List.mem_cons.mp member with rfl | later
              · exact same equal.symm
              · have order := above q later
                simp only at start
                omega
            rw [Option.map_some, listParameters, if_neg same, outer, List.map_cons]
            refine (and_iff_right ?_).symm
            intro other known q member equal
            cases Option.mem_some_iff.mp known
            exact absurd equal (gone q member)

end Session

/-! ### The parameters of a server -/

namespace Server

open DataType CreateParameter

/-- So far as parameters were added, they are made for `var`. -/
def AddedFor (before : List Parameter) (var : Nat) (s : Server) : Prop :=
  ∃ added, s.parameters = before ++ added ∧ ∀ p ∈ added, p.mainParam = var

theorem parameter_mainParam (dtype : DataType) (dim : DimType) (offset : Nat) (c : CreateParameter)
    (s : Server) : (parameter dtype dim offset c s).mainParam = c.var := by
  unfold parameter
  split <;> rfl

theorem createVariable_added {before : List Parameter} {var : Nat} (dtype : DataType)
    (dim : DimType) (offset : Nat) {c : CreateParameter} {s : Server} (own : c.var = var)
    (added : AddedFor before var s) :
    (createVariable dtype dim offset c s).2.1.var = var ∧
      AddedFor before var (createVariable dtype dim offset c s).2.2 := by
  obtain ⟨more, shape, made⟩ := added
  refine ⟨own, more ++ [parameter dtype dim offset c s], ?_, ?_⟩
  · rw [createVariable, shape, List.append_assoc]
  · intro p member
    rcases List.mem_append.mp member with earlier | last
    · exact made p earlier
    · rw [List.mem_singleton.mp last, parameter_mainParam]
      exact own

theorem visitor_added (before : List Parameter) (var : Nat) :
    Iterator.Keeps visitor (fun c => c.var = var) (AddedFor before var) where
  newVariable := by
    intro dtype dim dimIdx elemIdx offset c s own added
    simp only [visitor, newVariable]
    split
    · split
      · exact createVariable_added _ _ _ own added
      · split
        · exact createVariable_added _ _ _ own added
        · exact ⟨own, added⟩
    · exact ⟨own, added⟩
  newDimension := fun _ _ _ _ _ _ _ own added => ⟨own, added⟩
  newField := fun _ _ _ _ own added => ⟨own, added⟩
  copy := fun _ own => own

theorem createParameter_added (s : Server) (var : Nat) (param : MainParameter) :
    AddedFor s.parameters var (s.createParameter var param) :=
  (visitor_added s.parameters var).iterate param.dtype param.dim rfl ⟨[], by simp, by simp⟩

theorem createParameters_grouped (itemize : Bool) (mainParams : List MainParameter) :
    Session.Grouped (createParameters itemize mainParams).parameters := by
  have steps : ∀ (built : List MainParameter) (first : Nat) (s : Server),
      Session.Grouped s.parameters → (∀ p ∈ s.parameters, p.mainParam < first) →
      Session.Grouped
        ((built.zipIdx first).foldl (fun s p => s.createParameter p.2 p.1) s).parameters := by
    intro built
    induction built with
    | nil => exact fun _ _ grouped _ => grouped
    | cons param rest ih =>
        intro first s grouped below
        obtain ⟨added, shape, made⟩ := s.createParameter_added first param
        -- the parameters of the next main parameter come behind all others
        apply ih (first + 1) (s.createParameter first param)
        · rw [shape, Session.Grouped, List.pairwise_append]
          refine ⟨grouped, ?_, ?_⟩
          · apply List.pairwise_of_forall_mem_list
            intro p inside q later
            rw [made p inside, made q later]
          · intro p earlier q later
            rw [made q later]
            exact Nat.le_of_lt (below p earlier)
        · intro p member
          rw [shape] at member
          rcases List.mem_append.mp member with earlier | last
          · exact Nat.lt_succ_of_lt (below p earlier)
          · rw [made p last]
            exact Nat.lt_succ_self first
  exact steps mainParams 0 _ List.Pairwise.nil (by simp)

end Server

/-! ### The reply -/

/-- The list shows exactly what is not hidden, if and only if in the group of each
application parameter the hidden parameters come first. -/
theorem Session.readParameter_shows_iff (getValue : GetValue) (itemize : Bool)
    (mainParams : List MainParameter) (find : List Byte → Option Nat) (command : Command)
    (unnamed : command.getString (ascii "name") = none)
    (unnumbered : command.getUnsigned (ascii "index") = none) :
    readParameter getValue (Server.createParameters itemize mainParams) find command =
        .parameters (visibleParameters getValue
          ⟨command.isTrue (ascii "short"), command.isTrue (ascii "hex")⟩
          (Server.createParameters itemize mainParams).parameters.zipIdx) ↔
      HiddenFirst (Server.createParameters itemize mainParams).parameters := by
  have grouped := Server.createParameters_grouped itemize mainParams
  have shows := listParameters_iff getValue
    ⟨command.isTrue (ascii "short"), command.isTrue (ascii "hex")⟩ none
    (Server.createParameters itemize mainParams).parameters.zipIdx
  rw [List.zipIdx_map_fst, List.zipIdx_map_snd] at shows
  simp only [readParameter, unnamed, unnumbered, ReadReply.parameters.injEq]
  rw [← Option.map_none (fun m => (m, getValue m)), shows grouped List.nodup_range' (by simp)]
  exact and_iff_right (by simp)

/-- A structure of two bytes at `/s`, its second field under this name. -/
def twoBytes (second : List Byte) : MainParameter :=
  ⟨ascii "/s", .compound 2 (.cons (ascii "a") (.primary .uint8) 0 .single
    (.cons second (.primary .uint8) 1 .single .nil)), .single⟩

/-- Two bytes, the first 7 and the second 9. -/
def twoValues : GetValue := fun _ => ([7, 9], ⟨0, 0⟩)

theorem Session.readParameter_shows_both :
    readParameter twoValues (Server.createParameters true [twoBytes (ascii "b")])
        (fun _ => none) [] =
      .parameters (visibleParameters twoValues ⟨false, false⟩
        (Server.createParameters true [twoBytes (ascii "b")]).parameters.zipIdx) :=
  (readParameter_shows_iff twoValues true [twoBytes (ascii "b")] (fun _ => none) [] rfl rfl).mpr
    (by decide)

/-- The field `b` is hidden, and the list shows it behind `a`. -/
theorem Session.readParameter_shows_hidden :
    ¬ ∀ (getValue : GetValue) (itemize : Bool) (mainParams : List MainParameter)
      (find : List Byte → Option Nat) (command : Command),
      command.getString (ascii "name") = none → command.getUnsigned (ascii "index") = none →
      readParameter getValue (Server.createParameters itemize mainParams) find command =
        .parameters (visibleParameters getValue
          ⟨command.isTrue (ascii "short"), command.isTrue (ascii "hex")⟩
          (Server.createParameters itemize mainParams).parameters.zipIdx) := by
  intro shows
  have hidden := shows twoValues true [twoBytes (ascii "b<hide>")] (fun _ => none) [] rfl rfl
  revert hidden
  decide

end PdServ
