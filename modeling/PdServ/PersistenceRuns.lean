import PdServ.Persistence

/-!
What becomes of persistent parameters over the runs of `Persistence`: a value that is set
is there again after a restart, also after a crash, a saved signal comes back in its
parameter, and the database has no other records than those of persistent parameters.
-/

namespace PdServ

/-! ### What a file has for a parameter -/

/-- The content of a record that is accepted for `p`. -/
def Records.stored (records : Records) (p : MainParameter) : Option (List Byte × Timespec) :=
  ((Database.mk (some records)).read p).map fun got => (got.1.take p.memSize, got.2)

/-- What of a parameter a record has to fit. -/
structure SameShape (p q : MainParameter) : Prop where
  path : p.path = q.path
  primary : p.dtype.primaryId = q.dtype.primaryId
  nelem : p.dim.nelem = q.dim.nelem
  memSize : p.memSize = q.memSize

theorem SameShape.refl (p : MainParameter) : SameShape p p := ⟨rfl, rfl, rfl, rfl⟩

/-- Only the record under its path matters for a parameter, and its shape. -/
theorem stored_congr {records other : Records} {p q : MainParameter} (shape : SameShape p q)
    (same : records (dbt p.path) = other (dbt p.path)) : records.stored p = other.stored q := by
  have read : (Database.mk (some records)).read p = (Database.mk (some other)).read q := by
    simp only [Database.read]
    rw [← shape.path, ← same, shape.primary, shape.nelem, shape.memSize]
  rw [Records.stored, Records.stored, read, shape.memSize]

theorem copied_toList {memSize : Nat} {bytes : List Byte} (enough : memSize ≤ bytes.length) :
    (copied memSize bytes).toList = bytes.take memSize := by
  apply List.ext_getElem
  · rw [Vector.length_toList, List.length_take, Nat.min_eq_left enough]
  · intro i short long
    rw [Vector.length_toList] at short
    simp only [copied, Vector.getElem_toList, Vector.getElem_ofFn, List.getElem_take]
    rw [List.getD_eq_getElem?_getD, List.getElem?_eq_getElem (Nat.lt_of_lt_of_le short enough),
      Option.getD_some]

/-- What `initializeParameter` leaves is what the record holds. -/
theorem stored_read {records : Records} {p : MainParameter} {value : List Byte}
    {mtime : Timespec} (read : (Database.mk (some records)).read p = some (value, mtime)) :
    records.stored p = some ((copied p.memSize value).toList, mtime) := by
  obtain ⟨data, -, -, -, -, enough, rfl, -⟩ := (read_iff records p value mtime).mp read
  have long : p.memSize ≤ (Pdata.value data).length := by
    rw [Pdata.value, List.length_drop]
    omega
  rw [Records.stored, read, Option.map_some, copied_toList long]

namespace Persistence

variable {files : List Byte → Records} {database : List Byte} {p : MainParameter}
  {padding : Vector Byte 6} {value : Vector Byte p.memSize} {mtime : Timespec}

theorem save_self (small : Pdata.size + p.memSize < 2 ^ 32) :
    (save files database p padding value mtime database).stored p =
      some (value.toList, mtime) := by
  have read := (restores_iff (files database) p).mpr small padding value mtime
  have whole : value.toList.take p.memSize = value.toList := by
    rw [List.take_of_length_le (Nat.le_of_eq value.length_toList)]
  have saved : save files database p padding value mtime database =
      Function.update (files database) (dbt p.path) (some (dbt (pdata p padding value mtime))) := by
    simp [save, Database.save]
  rw [saved, Records.stored]
  rw [Database.save, Option.map_some] at read
  rw [read, Option.map_some, whole]

/-- Another record is left alone. -/
theorem save_other {other key : List Byte} (apart : other = database → key ≠ dbt p.path) :
    save files database p padding value mtime other key = files other key := by
  simp only [save, Database.save, Option.map_some]
  by_cases here : other = database
  · subst here
    rw [Function.update_self, Function.update_of_ne (apart rfl)]
  · rw [Function.update_of_ne here]

end Persistence

/-! ### One process and its database -/

namespace Registered

variable {vars : Registered}

theorem findParameter_path {path : List Byte} {p : vars.Param}
    (found : vars.findParameter path = some p) : (vars.param p).path = path := by
  simpa using List.find?_some found

theorem dbt_path (p : vars.Param) : dbt (vars.param p).path = (vars.param p).path :=
  dbt_small (vars.short _ (List.getElem_mem _))

theorem record_small (p : vars.Param) : Pdata.size + (vars.param p).memSize < 2 ^ 32 :=
  vars.small _ (List.getElem_mem _)

end Registered

namespace Process

variable {vars : Registered}

def current (process : Process vars) (p : vars.Param) : List Byte × Timespec :=
  ((process.value p).toList, process.mtime p)

/-- What a start gives a persistent parameter. -/
def restored (records : Records) (p : vars.Param) : List Byte × Timespec :=
  (records.stored (vars.param p)).getD (untouched vars p)

/-- Each persistent parameter was looked up by its path, and a pair has one data type and
one dimension. -/
structure Paired (process : Process vars) : Prop where
  found : ∀ p, (process.persistentMap p).isSome →
    vars.findParameter (vars.param p).path = some p
  alike : ∀ p s, process.persistentMap p = some (some s) →
    (vars.signal s).dtype = (vars.param p).dtype ∧ (vars.signal s).dim = (vars.param p).dim

theorem Paired.apart {process : Process vars} (paired : process.Paired) {p q : vars.Param}
    (here : (process.persistentMap p).isSome) (there : (process.persistentMap q).isSome)
    (same : (vars.param p).path = (vars.param q).path) : p = q := by
  have first := paired.found p here
  rw [same, paired.found q there] at first
  exact (Option.some.inj first).symm

theorem Paired.memSize {process : Process vars} (paired : process.Paired) {p : vars.Param}
    {s : vars.Sig} (pair : process.persistentMap p = some (some s)) :
    (vars.signal s).memSize = (vars.param p).memSize := by
  obtain ⟨dtype, dim⟩ := paired.alike p s pair
  rw [MainParameter.memSize, MainParameter.memSize, dtype, dim]

theorem pairSignal_alike {item : Config} {p : vars.Param} {s : vars.Sig}
    (pair : pairSignal item p = some (some s)) :
    (vars.signal s).dtype = (vars.param p).dtype ∧ (vars.signal s).dim = (vars.param p).dim := by
  simp only [pairSignal] at pair
  split at pair
  · split at pair
    · cases pair
    · split at pair
      · cases pair
      · split at pair
        · cases pair
        · next address =>
          split at pair
          · cases pair
          · next dim =>
            cases pair
            have type := vars.same_type _ (List.getElem_mem p.isLt) _ (List.getElem_mem s.isLt)
              (not_not.mp address).symm
            exact ⟨type.symm, not_not.mp dim⟩
  · cases pair

/-! ### `setupPersistent` -/

/-- How far the loop over `variables` is: what is mapped has what a start gives. -/
structure Setup.Restores (records : Records) (setup : Setup vars) : Prop where
  paired : setup.process.Paired
  mapped : ∀ p, (setup.process.persistentMap p).isSome →
    setup.process.current p = restored records p ∧ (vars.param p).path ∈ setup.keys
  unmapped : ∀ p, setup.process.persistentMap p = none →
    setup.process.current p = untouched vars p
  keys : ∀ key ∈ setup.keys, ∃ p, (setup.process.persistentMap p).isSome ∧
    (vars.param p).path = key

section

variable {records : Records} {process : Process vars} {p : vars.Param}
  {signal : Option vars.Sig}

theorem insert_map : (process.insert records p signal).persistentMap =
    Function.update process.persistentMap p (some signal) := by
  rw [insert]
  split <;> rfl

theorem insert_database : (process.insert records p signal).database = process.database := by
  rw [insert]
  split <;> rfl

theorem insert_other {q : vars.Param} (other : q ≠ p) :
    (process.insert records p signal).current q = process.current q := by
  rw [insert]
  split
  · simp [initializeParameter, current, Function.update_of_ne other]
  · rfl

theorem insert_self (fresh : process.current p = untouched vars p) :
    (process.insert records p signal).current p = restored records p := by
  rw [insert, restored]
  split
  · next value mtime read =>
    rw [stored_read read]
    simp [initializeParameter, current]
  · next unread =>
    rw [Records.stored, unread]
    exact fresh

end

theorem setupItem_restores {records : Records} {setup : Setup vars}
    (restores : setup.Restores records) (node : Node) :
    (setupItem records setup node).Restores records := by
  simp only [setupItem]
  split
  · exact restores
  · next p found =>
    split
    · exact restores
    · next fresh =>
      split
      · exact restores
      · next signal pair =>
        have absent : setup.process.persistentMap p = none := by simpa using fresh
        refine ⟨⟨?_, ?_⟩, ?_, ?_, ?_⟩
        · intro q mapped
          rw [insert_map] at mapped
          by_cases same : q = p
          · subst same
            rw [Registered.findParameter_path found]
            exact found
          · rw [Function.update_of_ne same] at mapped
            exact restores.paired.found q mapped
        · intro q s paired
          rw [insert_map] at paired
          by_cases same : q = p
          · subst same
            rw [Function.update_self] at paired
            rw [Option.some.inj paired] at pair
            exact pairSignal_alike pair
          · rw [Function.update_of_ne same] at paired
            exact restores.paired.alike q s paired
        · intro q mapped
          rw [insert_map] at mapped
          by_cases same : q = p
          · subst same
            exact ⟨insert_self (restores.unmapped q absent), List.mem_cons_self⟩
          · rw [Function.update_of_ne same] at mapped
            obtain ⟨value, key⟩ := restores.mapped q mapped
            exact ⟨(insert_other same).trans value, List.mem_cons_of_mem _ key⟩
        · intro q unmapped
          rw [insert_map] at unmapped
          by_cases same : q = p
          · subst same
            rw [Function.update_self] at unmapped
            cases unmapped
          · rw [Function.update_of_ne same] at unmapped
            exact (insert_other same).trans (restores.unmapped q unmapped)
        · intro key member
          rw [insert_map]
          rcases List.mem_cons.mp member with rfl | member
          · exact ⟨p, by rw [Function.update_self]; rfl, rfl⟩
          · obtain ⟨q, mapped, path⟩ := restores.keys key member
            have other : q ≠ p := by
              rintro rfl
              rw [absent] at mapped
              cases mapped
            exact ⟨q, by rwa [Function.update_of_ne other], path⟩

theorem setupItems_restores {records : Records} (items : List Node) {setup : Setup vars}
    (restores : setup.Restores records) :
    (items.foldl (setupItem records) setup).Restores records := by
  induction items generalizing setup with
  | nil => exact restores
  | cons node rest ih => exact ih (setupItem_restores restores node)

theorem setupItems_database (records : Records) (items : List Node) (setup : Setup vars) :
    (items.foldl (setupItem records) setup).process.database = setup.process.database := by
  induction items generalizing setup with
  | nil => rfl
  | cons node rest ih =>
      rw [List.foldl_cons, ih]
      simp only [setupItem]
      split
      · rfl
      · split
        · rfl
        · split
          · rfl
          · exact insert_database

theorem init_restores (records : Records) (database : List Byte) :
    Setup.Restores records (⟨init database, []⟩ : Setup vars) where
  paired := ⟨fun _ mapped => (nomatch mapped), fun _ _ pair => (nomatch pair)⟩
  mapped _ mapped := nomatch mapped
  unmapped _ _ := rfl
  keys _ member := nomatch member

/-! ### `setValue` -/

section

variable {process : Process vars} {p : vars.Param} {offset : Nat} {buf : List Byte}
  {time : Timespec}

theorem setValue_mapped (q : vars.Param) :
    ((process.setValue p offset buf time).persistentMap q).isSome =
      (process.persistentMap q).isSome := by
  simp only [setValue]
  split
  · next mapped =>
    by_cases same : q = p
    · subst same
      rw [Function.update_self, mapped]
      rfl
    · rw [Function.update_of_ne same]
  · rfl

/-- Only the pair of the parameter itself is taken apart. -/
theorem setValue_map {q : vars.Param} (other : q ≠ p) :
    (process.setValue p offset buf time).persistentMap q = process.persistentMap q := by
  simp only [setValue]
  split
  · rw [Function.update_of_ne other]
  · rfl

theorem setValue_uncoupled (s : vars.Sig) :
    (process.setValue p offset buf time).persistentMap p ≠ some (some s) := by
  simp only [setValue]
  split
  · rw [Function.update_self]
    exact nofun
  · next unmapped =>
    intro pair
    rw [pair] at unmapped
    exact unmapped rfl

theorem setValue_other {q : vars.Param} (other : q ≠ p) :
    (process.setValue p offset buf time).current q = process.current q := by
  simp [setValue, current, Function.update_of_ne other]

theorem Paired.setValue (paired : process.Paired) :
    (process.setValue p offset buf time).Paired where
  found q mapped := paired.found q (by rwa [setValue_mapped] at mapped)
  alike q s pair := by
    by_cases same : q = p
    · subst same
      exact absurd pair (setValue_uncoupled s)
    · rw [setValue_map same] at pair
      exact paired.alike q s pair

end

end Process

namespace Persistence

/-- A parameter that is not coupled has what the next start would give it. -/
structure Restorable (state : Persistence) : Prop where
  paired : state.process.Paired
  uncoupled : ∀ p, state.process.persistentMap p = some none →
    state.process.current p = Process.restored (state.files state.process.database) p

/-! ### What a step does to a record -/

/-- What `setupPersistent` has done, one of two things. -/
theorem setupPersistent_cases {config : Config} {vars : Registered}
    {files : List Byte → Records} {next : Persistence}
    (started : setupPersistent config vars files = some next) :
    next = ⟨files, vars, .init []⟩ ∨
      ∃ (database : List Byte) (items : List Node),
        let setup : Process.Setup vars :=
          items.foldl (Process.setupItem (files database)) ⟨.init database, []⟩
        next =
          { vars := vars
            process := setup.process
            files :=
              if ((config.at_ (ascii "persistent")).at_ (ascii "cleanup")).toUInt 1 ≠ 0 then
                Function.update files database ((files database).checkKeys setup.keys)
              else files } := by
  simp only [setupPersistent] at started
  split at started
  · exact .inl (Option.some.inj started).symm
  · split at started
    · cases started
    · next items _ =>
      split at started
      · exact .inl (Option.some.inj started).symm
      · exact .inr ⟨_, items, (Option.some.inj started).symm⟩

variable {config : Config} {vars : Registered} {files : List Byte → Records}
  {next : Persistence}

/-- A start leaves the records alone that it does not clean up. -/
theorem setupPersistent_files (started : setupPersistent config vars files = some next)
    {database key : List Byte}
    (spared : next.process.database = database →
      ((config.at_ (ascii "persistent")).at_ (ascii "cleanup")).toUInt 1 = 0 ∨
        ∃ p, (next.process.persistentMap p).isSome ∧ (next.vars.param p).path = key) :
    next.files database key = files database key := by
  rcases setupPersistent_cases started with rfl | ⟨own, items, rfl⟩
  · rfl
  · have fresh : Process.Setup.Restores (files own) (⟨.init own, []⟩ : Process.Setup vars) :=
      Process.init_restores (files own) own
    have restores := Process.setupItems_restores items fresh
    have named := Process.setupItems_database (files own) items
      (⟨.init own, []⟩ : Process.Setup vars)
    dsimp only at spared ⊢
    split
    · next cleanup =>
      by_cases here : database = own
      · subst here
        rcases spared named with off | ⟨p, mapped, path⟩
        · exact absurd off cleanup
        · have member := (restores.mapped p mapped).2
          rw [path] at member
          rw [Function.update_self, Records.checkKeys, if_pos member]
      · rw [Function.update_of_ne here]
    · rfl

theorem setupPersistent_restores (started : setupPersistent config vars files = some next) :
    next.process.Paired ∧ ∀ p, (next.process.persistentMap p).isSome →
      next.process.current p = Process.restored (files next.process.database) p := by
  rcases setupPersistent_cases started with rfl | ⟨own, items, rfl⟩
  · exact ⟨(Process.init_restores (files []) []).paired, fun _ mapped => nomatch mapped⟩
  · have fresh : Process.Setup.Restores (files own) (⟨.init own, []⟩ : Process.Setup vars) :=
      Process.init_restores (files own) own
    have restores := Process.setupItems_restores items fresh
    have named := Process.setupItems_database (files own) items
      (⟨.init own, []⟩ : Process.Setup vars)
    refine ⟨restores.paired, fun p mapped => ?_⟩
    dsimp only at mapped ⊢
    rw [named]
    exact (restores.mapped p mapped).1

theorem restored_congr {records other : Records} {p : vars.Param}
    (same : records (vars.param p).path = other (vars.param p).path) :
    Process.restored records p = Process.restored other p := by
  have stored : records.stored (vars.param p) = other.stored (vars.param p) := by
    apply stored_congr (SameShape.refl _)
    rwa [Registered.dbt_path]
  rw [Process.restored, Process.restored, stored]

theorem setupPersistent_restorable (started : setupPersistent config vars files = some next) :
    next.Restorable := by
  obtain ⟨paired, mapped⟩ := setupPersistent_restores started
  refine ⟨paired, fun p uncoupled => ?_⟩
  have here : (next.process.persistentMap p).isSome := by rw [uncoupled]; rfl
  have spared : next.files next.process.database (next.vars.param p).path =
      files next.process.database (next.vars.param p).path :=
    setupPersistent_files started fun _ => .inr ⟨p, here, rfl⟩
  rw [mapped p here]
  exact (restored_congr spared).symm

/-! ### `savePersistent` -/

section

variable {process : Process vars} {sample : Nat → Option (List Byte × Timespec)}
  {padding : Vector Byte 6}

theorem savePair_other {p : vars.Param} {database key : List Byte}
    (apart : process.database = database → ∀ s, process.persistentMap p = some (some s) →
      (sample s).isSome → (vars.param p).path ≠ key) :
    savePair process sample padding files p database key = files database key := by
  match pair : process.persistentMap p with
  | none => simp [savePair, pair]
  | some none => simp [savePair, pair]
  | some (some s) =>
      match got : sample s with
      | none => simp [savePair, pair, got]
      | some (buf, time) =>
          have there : (sample s).isSome := by rw [got]; rfl
          simp only [savePair, pair, got]
          apply save_other
          intro same
          rw [Registered.dbt_path]
          exact (apart same.symm s pair there).symm

theorem savePairs_other (params : List vars.Param) {database key : List Byte}
    (apart : process.database = database → ∀ p ∈ params, ∀ s,
      process.persistentMap p = some (some s) → (sample s).isSome → (vars.param p).path ≠ key) :
    params.foldl (savePair process sample padding) files database key = files database key := by
  induction params generalizing files with
  | nil => rfl
  | cons p rest ih =>
      rw [List.foldl_cons, ih fun same q member => apart same q (List.mem_cons_of_mem _ member)]
      exact savePair_other fun same => apart same p List.mem_cons_self

end

/-! ### Runs -/

/-- Some files, and no server yet. -/
def before (files : List Byte → Records) : Persistence where
  files := files
  vars :=
    { parameters := [], signals := [], initial := nofun, same_type := nofun, short := nofun,
      small := nofun }
  process := .init []

/-- Servers that are started one after the other on these files. -/
abbrev Run (files : List Byte → Records) : Persistence → Prop :=
  Transition.Reaches step Transition.anyStep (before files)

/-- The step neither saves under this key of the database nor removes it. -/
def KeepsRecord (database key : List Byte) (state : Persistence) : PersistenceAction → Prop
  | .start config vars =>
      ∀ next, setupPersistent config vars state.files = some next →
        next.process.database = database →
        ((config.at_ (ascii "persistent")).at_ (ascii "cleanup")).toUInt 1 = 0 ∨
          ∃ p, (next.process.persistentMap p).isSome ∧ (next.vars.param p).path = key
  | .setValue p _ _ _ _ =>
      state.process.database = database → ∀ q : state.vars.Param, q = p →
        (state.process.persistentMap q).isSome → (state.vars.param q).path ≠ key
  | .savePersistent sample _ =>
      state.process.database = database → ∀ q s, state.process.persistentMap q = some (some s) →
        (sample s).isSome → (state.vars.param q).path ≠ key

variable {state after : Persistence} {action : PersistenceAction}

theorem setValue_files {p : state.vars.Param} {offset : Nat} {buf : List Byte} {time : Timespec}
    {padding : Vector Byte 6} {database key : List Byte}
    (apart : state.process.database = database → (state.process.persistentMap p).isSome →
      (state.vars.param p).path ≠ key) :
    (state.setValue p offset buf time padding).files database key = state.files database key := by
  simp only [setValue]
  split
  · next mapped =>
    apply save_other
    intro same
    rw [Registered.dbt_path]
    exact (apart same.symm mapped).symm
  · rfl

theorem step_keeps {database key : List Byte} (keeps : KeepsRecord database key state action)
    (done : state.step action = some after) :
    after.files database key = state.files database key := by
  cases action with
  | start config vars => exact setupPersistent_files done (keeps after done)
  | setValue p offset buf time padding =>
      simp only [step] at done
      split at done
      · split at done
        · cases done
          exact setValue_files fun same => keeps same _ rfl
        · cases done
      · cases done
  | savePersistent sample padding =>
      simp only [step] at done
      split at done
      · cases done
        exact savePairs_other _ fun same q _ => keeps same q
      · cases done

theorem run_keeps {database key : List Byte}
    (run : Transition.Reaches step (KeepsRecord database key) state after) :
    after.files database key = state.files database key := by
  induction run with
  | start => rfl
  | step action _ keeps done ih => exact (step_keeps keeps done).trans ih

theorem Restorable.setValue (restorable : state.Restorable) {p : state.vars.Param}
    {offset : Nat} {buf : List Byte} {time : Timespec} {padding : Vector Byte 6} :
    (state.setValue p offset buf time padding).Restorable := by
  refine ⟨restorable.paired.setValue, ?_⟩
  intro (q : state.vars.Param)
    (uncoupled : (state.process.setValue p offset buf time).persistentMap q = some none)
  by_cases same : q = p
  · -- the value was saved as it is now
    subst same
    have mapped : (state.process.persistentMap q).isSome :=
      (Process.setValue_mapped q).symm.trans (Option.isSome_of_eq_some uncoupled)
    have small := Registered.record_small q
    simp only [Persistence.setValue, mapped, if_true, Process.restored]
    rw [save_self small]
    rfl
  · have before : state.process.persistentMap q = some none := by
      rw [← Process.setValue_map same]
      exact uncoupled
    have files : (state.setValue p offset buf time padding).files state.process.database
        (state.vars.param q).path = state.files state.process.database (state.vars.param q).path :=
      setValue_files fun _ mapped path =>
        same (restorable.paired.apart (Option.isSome_of_eq_some before) mapped path.symm)
    have value : (state.setValue p offset buf time padding).process.current q =
        state.process.current q := Process.setValue_other same
    rw [value, restorable.uncoupled q before]
    exact (restored_congr files).symm

theorem Restorable.savePersistent (restorable : state.Restorable)
    {sample : Nat → Option (List Byte × Timespec)} {padding : Vector Byte 6} :
    (state.savePersistent sample padding).Restorable := by
  refine ⟨restorable.paired, ?_⟩
  intro (q : state.vars.Param) (uncoupled : state.process.persistentMap q = some none)
  have files : (state.savePersistent sample padding).files state.process.database
      (state.vars.param q).path = state.files state.process.database (state.vars.param q).path := by
    refine savePairs_other _ fun _ p _ s pair _ path => ?_
    -- only pairs are saved, and no pair has this path
    have same := restorable.paired.apart (Option.isSome_of_eq_some pair)
      (Option.isSome_of_eq_some uncoupled) path
    rw [same, uncoupled] at pair
    cases pair
  exact (restorable.uncoupled q uncoupled).trans (restored_congr files).symm

theorem Restorable.step (restorable : state.Restorable) (done : state.step action = some after) :
    after.Restorable := by
  cases action with
  | start config vars => exact setupPersistent_restorable done
  | setValue p offset buf time padding =>
      simp only [Persistence.step] at done
      split at done
      · split at done
        · cases done
          exact restorable.setValue
        · cases done
      · cases done
  | savePersistent sample padding =>
      simp only [Persistence.step] at done
      split at done
      · cases done
        exact restorable.savePersistent
      · cases done

theorem Run.restorable {files : List Byte → Records} (run : Run files state) :
    state.Restorable := by
  refine Transition.Reaches.invariant run ⟨⟨nofun, nofun⟩, nofun⟩ ?_
  intro before action after restorable _ done
  exact restorable.step done

/-- No server is started in this step. -/
def Serves (_ : Persistence) : PersistenceAction → Prop
  | .start .. => False
  | _ => True

/-- The database has no records but those of persistent parameters. -/
structure Clean (state : Persistence) : Prop where
  paired : state.process.Paired
  own : ∀ key, (state.files state.process.database key).isSome →
    ∃ p, (state.process.persistentMap p).isSome ∧ (state.vars.param p).path = key

theorem setupPersistent_clean {config : Config} {vars : Registered}
    {files : List Byte → Records} {next : Persistence}
    (started : setupPersistent config vars files = some next)
    (cleanup : ((config.at_ (ascii "persistent")).at_ (ascii "cleanup")).toUInt 1 ≠ 0)
    (opened : next.process.database ≠ []) :
    next.Clean ∧ ∀ other ≠ next.process.database, next.files other = files other := by
  have paired := (setupPersistent_restores started).1
  rcases setupPersistent_cases started with rfl | ⟨own, items, rfl⟩
  · exact absurd rfl opened
  · have fresh : Process.Setup.Restores (files own) (⟨.init own, []⟩ : Process.Setup vars) :=
      Process.init_restores (files own) own
    have restores := Process.setupItems_restores items fresh
    have named : (items.foldl (Process.setupItem (files own))
        (⟨.init own, []⟩ : Process.Setup vars)).process.database = own :=
      Process.setupItems_database (files own) items _
    refine ⟨⟨paired, fun key there => ?_⟩, fun other apart => ?_⟩
    · dsimp only at there
      rw [if_pos cleanup, named, Function.update_self, Records.checkKeys] at there
      split at there
      · next listed => exact restores.keys key listed
      · cases there
    · dsimp only at apart ⊢
      rw [named] at apart
      rw [if_pos cleanup, Function.update_of_ne apart]

/-- Saving pairs leaves records of pairs, and other databases as they were. -/
theorem savePairs_own {vars : Registered} {process : Process vars}
    {sample : Nat → Option (List Byte × Timespec)} {padding : Vector Byte 6}
    (params : List vars.Param) {files : List Byte → Records} {key : List Byte}
    (there : (params.foldl (savePair process sample padding) files process.database key).isSome) :
    (files process.database key).isSome ∨
      ∃ p, (process.persistentMap p).isSome ∧ (vars.param p).path = key := by
  by_cases own : ∃ p, (process.persistentMap p).isSome ∧ (vars.param p).path = key
  · exact .inr own
  · rw [savePairs_other params fun _ q _ s pair _ path =>
      own ⟨q, Option.isSome_of_eq_some pair, path⟩] at there
    exact .inl there

theorem Clean.step {state after : Persistence} {action : PersistenceAction} (clean : state.Clean)
    (serves : Serves state action) (done : state.step action = some after) :
    after.Clean ∧ after.process.database = state.process.database ∧
      ∀ other ≠ state.process.database, after.files other = state.files other := by
  cases action with
  | start config vars => exact serves.elim
  | setValue p offset buf time padding =>
      simp only [Persistence.step] at done
      split at done
      · next inside =>
        split at done
        · cases done
          refine ⟨⟨clean.paired.setValue, fun key there => ?_⟩, rfl, fun other apart => ?_⟩
          · have mapped : ∃ q, (state.process.persistentMap q).isSome ∧
                (state.vars.param q).path = key := by
              by_contra absent
              have kept : (state.setValue ⟨p, inside⟩ offset buf time padding).files
                  state.process.database key = state.files state.process.database key :=
                setValue_files fun _ mapped path => absent ⟨_, mapped, path⟩
              exact absent (clean.own key (kept ▸ there))
            obtain ⟨q, mapped, path⟩ := mapped
            exact ⟨q, (Process.setValue_mapped q).trans mapped, path⟩
          · funext key
            exact setValue_files fun same => absurd same.symm apart
        · cases done
      · cases done
  | savePersistent sample padding =>
      simp only [Persistence.step] at done
      split at done
      · cases done
        refine ⟨⟨clean.paired, fun key there => ?_⟩, rfl, fun other apart => ?_⟩
        · exact (savePairs_own _ there).elim (clean.own key) id
        · funext key
          exact savePairs_other _ fun same => absurd same.symm apart
      · cases done

/-- From a start that cleans up to the next one the database has records of persistent
parameters only, and no other database is touched. -/
theorem start_cleans {state first after : Persistence} {config : Config} {vars : Registered}
    (started : state.step (.start config vars) = some first)
    (cleanup : ((config.at_ (ascii "persistent")).at_ (ascii "cleanup")).toUInt 1 ≠ 0)
    (opened : first.process.database ≠ [])
    (run : Transition.Reaches step Serves first after) :
    (∀ key, (after.files first.process.database key).isSome →
      ∃ p, (after.process.persistentMap p).isSome ∧ (after.vars.param p).path = key) ∧
      ∀ other ≠ first.process.database, after.files other = state.files other := by
  obtain ⟨clean, others⟩ := setupPersistent_clean started cleanup opened
  have reached : after.Clean ∧ after.process.database = first.process.database ∧
      ∀ other ≠ first.process.database, after.files other = state.files other := by
    induction run with
    | start => exact ⟨clean, rfl, others⟩
    | step action _ serves done ih =>
        obtain ⟨clean, database, others⟩ := ih
        obtain ⟨still, same, kept⟩ := clean.step serves done
        refine ⟨still, same.trans database, fun other apart => ?_⟩
        rw [kept other (database ▸ apart)]
        exact others other apart
  obtain ⟨clean, database, others⟩ := reached
  have own := clean.own
  rw [database] at own
  exact ⟨own, others⟩

/-! ### A sample -/

/-- A variable of one byte; all have the same type. -/
def sampleVariable (path : List Byte) : MainVariable where
  path := path
  dtype := .primary .uint8
  dim := .single
  address := 1

def sampleVars : Registered where
  parameters := [sampleVariable (ascii "/a"), sampleVariable (ascii "/b")]
  signals := [sampleVariable (ascii "/s")]
  initial _ := Vector.replicate _ 3
  same_type := by simp [sampleVariable]
  short := by decide
  small := by decide

def sampleConfig (varList : List Node) : Config :=
  some (.mapping [(.scalar (ascii "persistent"), .mapping [
    (.scalar (ascii "database"), .scalar (ascii "db")),
    (.scalar (ascii "variables"), .sequence varList)])])

/-- The pair of `/b` and `/s`. -/
def samplePair : Node :=
  .mapping [(.scalar (ascii "parameter"), .scalar (ascii "/b")),
    (.scalar (ascii "signal"), .scalar (ascii "/s"))]

def sampleStart : PersistenceAction :=
  .start (sampleConfig [.scalar (ascii "/a"), samplePair]) sampleVars
def sampleWithout : PersistenceAction := .start (sampleConfig [samplePair]) sampleVars
def sampleSet (p : Nat) (byte : Byte) : PersistenceAction :=
  .setValue p 0 [byte] ⟨7, 0⟩ (Vector.replicate 6 0)
/-- After these steps, when no file had a record. -/
def sampleAfter (actions : List PersistenceAction) : Persistence :=
  (Transition.perform step (fun _ _ => true) actions (before fun _ _ => none)).getD
    (before fun _ _ => none)

/-- The record of the first parameter is gone when it is not persistent any more. -/
theorem start_cleans_sample :
    ((sampleAfter [sampleStart, sampleSet 0 5]).files (ascii "db") (ascii "/a")).isSome ∧
      ∀ key, ((sampleAfter [sampleStart, sampleSet 0 5, sampleWithout]).files
        (ascii "db") key).isSome →
        ∃ p, ((sampleAfter [sampleStart, sampleSet 0 5, sampleWithout]).process.persistentMap
          p).isSome ∧
          ((sampleAfter [sampleStart, sampleSet 0 5, sampleWithout]).vars.param p).path = key := by
  have started : (sampleAfter [sampleStart, sampleSet 0 5]).step sampleWithout =
      some (sampleAfter [sampleStart, sampleSet 0 5, sampleWithout]) := rfl
  have cleanup : (((sampleConfig [samplePair]).at_ (ascii "persistent")).at_
      (ascii "cleanup")).toUInt 1 ≠ 0 := by decide
  have opened :
      (sampleAfter [sampleStart, sampleSet 0 5, sampleWithout]).process.database ≠ [] := by decide
  exact ⟨rfl, (start_cleans started cleanup opened .start).1⟩

end Persistence

end PdServ
