import PdServ.NumberedRing
import PdServ.Ring
import PdServ.Task
import PdServ.Transition

/-!
The photo album of the etherlab buddy: `Main::serve` marks the photos of the realtime
process as ready, and a `SessionTaskData` of `src/src/buddy/SessionTaskData.cpp` follows
the marks. Pointers into `photoReady` are indexes; a call of `rxPdo` is one step, as it
looks at one mark that can change under it.
-/

namespace PdServ.Buddy

/-- `struct app_properties`, as far as the album goes, with the size of a
`struct task_stats` and the address at which the album is mapped. -/
structure Album where
  photoAlbum : Nat
  rtB_count : Nat
  rtB_size : Nat
  num_tasks : Nat
  task_stats_size : Nat

/-- What `updateStatistics` makes of the `task_stats` at an address. -/
abbrev TaskStats := Nat → Timespec × TaskStatistics

structure Main where
  photoReady : Nat → Nat
  photoCount : Nat
  photoPtr : Nat

/-- `postfork_nrt_setup()`, and `photoPtr` as the kernel has it. -/
def Main.setup (readPointer : Nat) : Main := ⟨fun _ => 0, 0, readPointer⟩

/-- `photoReady[i] = photoCount++` -/
def Main.publish (album : Album) (main : Main) : Main where
  photoReady := Function.update main.photoReady main.photoPtr main.photoCount
  photoCount := (main.photoCount + 1) % 2 ^ 32
  photoPtr := Ring.next album.rtB_count main.photoPtr

structure SessionTaskData where
  current : Nat
  next : Nat
  photo : Nat
  time : Timespec
  stat : TaskStatistics

namespace SessionTaskData

def statsOffset (album : Album) : Nat :=
  album.rtB_size - album.num_tasks * album.task_stats_size

def updateStatistics (album : Album) (taskStats : TaskStats) (data : SessionTaskData) :
    SessionTaskData :=
  { data with
    time := (taskStats (data.photo + statsOffset album)).1
    stat := (taskStats (data.photo + statsOffset album)).2 }

def rxPdo (album : Album) (photoReady : Nat → Nat) (taskStats : TaskStats)
    (data : SessionTaskData) : Bool × SessionTaskData :=
  if (photoReady data.next + (2 ^ 32 - photoReady data.current)) % 2 ^ 32 ≠ 1 then (false, data)
  else
    let current := data.next
    let next := Ring.next album.rtB_count data.next
    -- the address begins anew together with the ring
    let photo := if current = 0 then album.photoAlbum else data.photo + album.rtB_size
    (true, updateStatistics album taskStats { data with current, next, photo })

/-- The constructor up to its loop. `time` and `stat` are not initialised. -/
def initial (album : Album) (time : Timespec) (stat : TaskStatistics) : SessionTaskData :=
  ⟨0, 1, album.photoAlbum, time, stat⟩

end SessionTaskData

/-! ### A session beside the server -/

inductive Session where
  | absent
  /-- In the loop of the constructor. -/
  | constructing (data : SessionTaskData)
  /-- The object as it was constructed and as it is now, the number of photos that were
  ready when the constructor ended, and the object after each successful `rxPdo`. -/
  | ready (built data : SessionTaskData) (known : Nat) (returned : List SessionTaskData)

/-- `published` counts the photos without end. -/
structure State where
  main : Main
  published : Nat
  session : Session

inductive Action where
  | publish
  | construct (time : Timespec) (stat : TaskStatistics)
  | rxPdo (taskStats : TaskStats)

variable (album : Album)

def step (s : State) : Action → Option State
  | .publish => some { s with main := s.main.publish album, published := s.published + 1 }
  | .construct time stat =>
      match s.session with
      | .absent => some { s with session := .constructing (.initial album time stat) }
      | _ => none
  | .rxPdo taskStats =>
      match s.session with
      | .absent => none
      | .constructing data =>
          match data.rxPdo album s.main.photoReady taskStats with
          | (true, data) => some { s with session := .constructing data }
          | (false, data) => some { s with session := .ready data data s.published [] }
      | .ready built data known returned =>
          match data.rxPdo album s.main.photoReady taskStats with
          | (true, data) => some { s with session := .ready built data known (returned ++ [data]) }
          | (false, data) => some { s with session := .ready built data known returned }

def start (readPointer : Nat) : State := ⟨Main.setup readPointer, 0, .absent⟩

/-- Fewer than `2 ^ 32` photos in all, and none goes over the mark that the session
stands on. -/
def Allowed (s : State) : Action → Prop
  | .publish =>
      s.published + 1 < 2 ^ 32 ∧
        match s.session with
        | .absent => True
        | .constructing data => s.main.photoPtr ≠ data.current
        | .ready _ _ known returned => s.published + 1 < known + returned.length + album.rtB_count
  | _ => True

/-- Where the photo of an index lies. -/
def photoAt (index : Nat) : Nat := album.photoAlbum + index * album.rtB_size

/-- The index of each photo, from the first one. -/
abbrev indexOf (readPointer number : Nat) : Nat :=
  NumberedRing.place album.rtB_count readPointer number

/-- What a session is there for. -/
def Delivers (readPointer : Nat) (s : State) : Prop :=
  match s.session with
  | .ready built data known returned =>
      (0 < known → built.current = indexOf album readPointer (known - 1) ∧
        built.photo = photoAt album (indexOf album readPointer (known - 1))) ∧
      (∀ (count : Nat) (here : count < returned.length),
        returned[count].current = indexOf album readPointer (known + count) ∧
        returned[count].photo = photoAt album (indexOf album readPointer (known + count))) ∧
      known + returned.length ≤ s.published ∧
      ∀ taskStats, (data.rxPdo album s.main.photoReady taskStats).1 = true ↔
        known + returned.length < s.published
  | _ => True

/-- The photo of index 0, where every session begins, is ready. -/
def BeginReady (readPointer : Nat) (s : State) : Prop :=
  NumberedRing.Written album.rtB_count readPointer s.published 0

/-! ### The marks -/

variable {album} {readPointer : Nat}

theorem next_mod {i : Nat} (inside : i < album.rtB_count) :
    Ring.next album.rtB_count i = (i + 1) % album.rtB_count := by
  unfold Ring.next
  split
  · next last => rw [last, Nat.mod_self]
  · rw [Nat.mod_eq_of_lt (by omega)]

/-- The marks and the counters of the server, after so many photos. -/
structure Marks (album : Album) (readPointer : Nat) (s : State) : Prop where
  holds : NumberedRing.Holds album.rtB_count readPointer s.published s.main.photoReady
  count : s.main.photoCount = s.published
  place : s.main.photoPtr = indexOf album readPointer s.published
  few : s.published < 2 ^ 32

theorem Marks.start (inside : readPointer < album.rtB_count) :
    Marks album readPointer (start readPointer) where
  holds := NumberedRing.Holds.start album.rtB_count readPointer
  count := rfl
  place := by
    rw [indexOf, NumberedRing.place]
    exact (Nat.mod_eq_of_lt inside).symm
  few := Nat.two_pow_pos 32

theorem Marks.publish {s : State} (marks : Marks album readPointer s)
    (positive : 0 < album.rtB_count) (few : s.published + 1 < 2 ^ 32) (session : Session) :
    Marks album readPointer ⟨s.main.publish album, s.published + 1, session⟩ where
  holds := by
    have written := marks.holds.write
    simp only [Main.publish, marks.place, marks.count]
    exact written
  count := by
    simp only [Main.publish, marks.count]
    exact Nat.mod_eq_of_lt few
  place := by
    simp only [Main.publish, marks.place]
    rw [next_mod (NumberedRing.place_lt _ positive _), ← NumberedRing.place_succ]
  few := few

theorem Marks.step {s after : State} (marks : Marks album readPointer s)
    (positive : 0 < album.rtB_count) {action : Action} (allowed : Allowed album s action)
    (done : step album s action = some after) : Marks album readPointer after := by
  have keep : ∀ session, Marks album readPointer { s with session } := fun _ =>
    ⟨marks.holds, marks.count, marks.place, marks.few⟩
  cases action with
  | publish =>
      cases done
      exact marks.publish positive allowed.1 s.session
  | construct time stat =>
      simp only [Buddy.step] at done
      split at done
      · cases done
        exact keep _
      · cases done
  | rxPdo taskStats =>
      simp only [Buddy.step] at done
      split at done
      · cases done
      · split at done <;> cases done <;> exact keep _
      · split at done <;> cases done <;> exact keep _

/-! ### The session -/

/-- The session stands on a photo that is not overwritten. -/
structure Follows (album : Album) (readPointer published number : Nat) (data : SessionTaskData) :
    Prop where
  early : number < published
  near : published ≤ number + album.rtB_count
  current : data.current = indexOf album readPointer number
  next : data.next = indexOf album readPointer (number + 1)
  photo : data.photo = photoAt album data.current

variable {s : State} {data : SessionTaskData} {number : Nat}

theorem Follows.announces (follows : Follows album readPointer s.published number data)
    (marks : Marks album readPointer s) (several : 2 ≤ album.rtB_count) (taskStats : TaskStats) :
    (data.rxPdo album s.main.photoReady taskStats).1 = true ↔ number + 1 < s.published := by
  rw [← marks.holds.announces several marks.few follows.early follows.near,
    SessionTaskData.rxPdo, follows.current, follows.next]
  split
  · next differs => exact iff_of_false Bool.false_ne_true differs
  · next one => exact iff_of_true rfl (not_not.mp one)

/-- `photo` and the index go on together, also past the end of the ring. -/
theorem photo_next (album : Album) (index : Nat) :
    (if Ring.next album.rtB_count index = 0 then album.photoAlbum
      else photoAt album index + album.rtB_size) =
    photoAt album (Ring.next album.rtB_count index) := by
  unfold Ring.next photoAt
  split
  · rw [if_pos rfl, Nat.zero_mul, Nat.add_zero]
  · rw [if_neg (Nat.succ_ne_zero index), Nat.add_mul, Nat.one_mul, Nat.add_assoc]

theorem Follows.rxPdo (follows : Follows album readPointer s.published number data)
    (positive : 0 < album.rtB_count) {taskStats : TaskStats} {after : SessionTaskData}
    (more : number + 1 < s.published)
    (done : data.rxPdo album s.main.photoReady taskStats = (true, after)) :
    Follows album readPointer s.published (number + 1) after := by
  have here := NumberedRing.place_lt readPointer positive number
  have there := NumberedRing.place_lt readPointer positive (number + 1)
  have next : data.next = Ring.next album.rtB_count data.current := by
    rw [follows.next, follows.current, next_mod here]
    exact NumberedRing.place_succ _ _ _
  rw [SessionTaskData.rxPdo] at done
  split at done
  · cases done
  · cases done
    refine ⟨more, ?_, follows.next, ?_, ?_⟩
    · have near := follows.near
      omega
    · simp only [SessionTaskData.updateStatistics]
      rw [follows.next, next_mod there, ← NumberedRing.place_succ]
    · simp only [SessionTaskData.updateStatistics]
      rw [follows.photo, next]
      exact photo_next album data.current

/-- A call without another photo changes nothing. -/
theorem rxPdo_false {photoReady : Nat → Nat} {taskStats : TaskStats} {after : SessionTaskData}
    (done : data.rxPdo album photoReady taskStats = (false, after)) : after = data := by
  rw [SessionTaskData.rxPdo] at done
  split at done
  · cases done
    rfl
  · cases done

theorem Follows.publish {published : Nat} (follows : Follows album readPointer published number data)
    (room : published < number + album.rtB_count) :
    Follows album readPointer (published + 1) number data :=
  ⟨Nat.lt_succ_of_lt follows.early, room, follows.current, follows.next, follows.photo⟩

/-- Where the photo of index 0 is ready, a session begins on the latest one there. -/
theorem BeginReady.initial (ready : BeginReady album readPointer s)
    (several : 2 ≤ album.rtB_count) (time : Timespec) (stat : TaskStatistics) :
    ∃ number, Follows album readPointer s.published number (.initial album time stat) := by
  obtain ⟨number, early, near, here⟩ := NumberedRing.Written.latest (by omega) ready
  refine ⟨number, early, near, here.symm, ?_, ?_⟩
  · rw [indexOf, NumberedRing.place_succ, here, Nat.mod_eq_of_lt (by omega)]
    rfl
  · rw [photoAt, SessionTaskData.initial, Nat.zero_mul, Nat.add_zero]

/-! ### Whole runs -/

/-- A session that began on a photo: what it returned so far, and where it stands. -/
structure Returns (album : Album) (readPointer published : Nat) (built data : SessionTaskData)
    (known : Nat) (returned : List SessionTaskData) : Prop where
  some : 0 < known
  current : built.current = indexOf album readPointer (known - 1)
  photo : built.photo = photoAt album (indexOf album readPointer (known - 1))
  each : ∀ (count : Nat) (here : count < returned.length),
    returned[count].current = indexOf album readPointer (known + count) ∧
    returned[count].photo = photoAt album (indexOf album readPointer (known + count))
  follows : Follows album readPointer published (known + returned.length - 1) data

def Keeps (album : Album) (readPointer : Nat) (s : State) : Prop :=
  match s.session with
  | .absent => False
  | .constructing data => ∃ number, Follows album readPointer s.published number data
  | .ready built data known returned =>
      Returns album readPointer s.published built data known returned

theorem Returns.returns {built after : SessionTaskData} {known : Nat}
    {returned : List SessionTaskData}
    (before : Returns album readPointer s.published built data known returned)
    (follows : Follows album readPointer s.published (known + returned.length) after) :
    Returns album readPointer s.published built after known (returned ++ [after]) where
  some := before.some
  current := before.current
  photo := before.photo
  each := by
    intro count here
    rw [List.length_append, List.length_singleton] at here
    by_cases earlier : count < returned.length
    · rw [List.getElem_append_left earlier]
      exact before.each count earlier
    · -- the photo that is returned now
      have last : count = returned.length := by omega
      subst last
      rw [List.getElem_concat_length rfl]
      refine ⟨follows.current, ?_⟩
      rw [follows.photo, follows.current]
  follows := by
    rw [List.length_append, List.length_singleton, ← Nat.add_assoc, Nat.add_sub_cancel]
    exact follows

/-- The call that ends the constructor finds no other photo: the session has caught up. -/
theorem Follows.ready (follows : Follows album readPointer s.published number data)
    (last : ¬ number + 1 < s.published) :
    Returns album readPointer s.published data data s.published [] := by
  have early := follows.early
  have here : s.published - 1 = number := by omega
  refine ⟨by omega, ?_, ?_, by simp, ?_⟩
  · rw [here]
    exact follows.current
  · rw [here, ← follows.current]
    exact follows.photo
  · rw [List.length_nil, Nat.add_zero, here]
    exact follows

theorem Keeps.publish (keeps : Keeps album readPointer s) (marks : Marks album readPointer s)
    (allowed : Allowed album s .publish) :
    Keeps album readPointer ⟨s.main.publish album, s.published + 1, s.session⟩ := by
  obtain ⟨few, room⟩ := allowed
  revert keeps room
  unfold Keeps
  cases s.session with
  | absent => exact fun never => never.elim
  | constructing data =>
      rintro ⟨number, follows⟩ apart
      refine ⟨number, follows.publish ?_⟩
      by_contra full
      have lap : s.published = number + album.rtB_count := by
        have near := follows.near
        omega
      -- the writer would be on the photo of the session
      apply apart
      rw [marks.place, follows.current, lap]
      exact NumberedRing.place_lap _ _ _
  | ready built data known returned =>
      intro returns room
      have positive := returns.some
      exact { returns with follows := returns.follows.publish (by omega) }

theorem Keeps.rxPdo {after : State} (keeps : Keeps album readPointer s)
    (marks : Marks album readPointer s) (several : 2 ≤ album.rtB_count) {taskStats : TaskStats}
    (done : step album s (.rxPdo taskStats) = some after) : Keeps album readPointer after := by
  have positive : 0 < album.rtB_count := by omega
  unfold Keeps at keeps
  simp only [step] at done
  split at done
  · cases done
  · next data constructing =>
    rw [constructing] at keeps
    obtain ⟨number, follows⟩ := keeps
    have announces := follows.announces marks several taskStats
    split at done
    · next next result =>
      cases done
      rw [result] at announces
      exact ⟨number + 1, follows.rxPdo positive (announces.mp rfl) result⟩
    · next next result =>
      cases done
      rw [result] at announces
      rw [rxPdo_false result]
      -- the constructor has caught up
      exact follows.ready fun more => Bool.false_ne_true (announces.mpr more)
  · next built data known returned ready =>
    rw [ready] at keeps
    have announces := keeps.follows.announces marks several taskStats
    have begun := keeps.some
    split at done
    · next next result =>
      cases done
      rw [result] at announces
      have follows := keeps.follows.rxPdo positive (announces.mp rfl) result
      rw [Nat.sub_add_cancel (by omega)] at follows
      exact keeps.returns follows
    · next next result =>
      cases done
      rw [rxPdo_false result]
      exact keeps

theorem Keeps.step {action : Action} {after : State} (keeps : Keeps album readPointer s)
    (marks : Marks album readPointer s) (several : 2 ≤ album.rtB_count)
    (allowed : Allowed album s action) (done : step album s action = some after) :
    Keeps album readPointer after := by
  cases action with
  | publish =>
      cases done
      exact keeps.publish marks allowed
  | construct time stat =>
      -- the session is there already
      unfold Keeps at keeps
      simp only [Buddy.step] at done
      split at done
      · next absent =>
        rw [absent] at keeps
        exact keeps.elim
      · cases done
  | rxPdo taskStats => exact keeps.rxPdo marks several done

theorem Keeps.delivers (keeps : Keeps album readPointer s) (marks : Marks album readPointer s)
    (several : 2 ≤ album.rtB_count) : Delivers album readPointer s := by
  unfold Keeps at keeps
  unfold Delivers
  split at keeps
  · exact keeps.elim
  · next constructing => simp [constructing]
  · next built data known returned ready =>
    rw [ready]
    have early := keeps.follows.early
    have begun := keeps.some
    refine ⟨fun _ => ⟨keeps.current, keeps.photo⟩, keeps.each, by omega, ?_⟩
    intro taskStats
    rw [keeps.follows.announces marks several taskStats, Nat.sub_add_cancel (by omega)]

/-! ### A session that begins too early -/

/-- Before the photo of index 0 is ready, the two marks at the begin say nothing. -/
theorem initial_waits (marks : Marks album readPointer s) (several : 2 ≤ album.rtB_count)
    (inside : readPointer < album.rtB_count) (early : ¬ BeginReady album readPointer s)
    (time : Timespec) (stat : TaskStatistics) (taskStats : TaskStats) :
    SessionTaskData.rxPdo album s.main.photoReady taskStats (.initial album time stat) =
      (false, .initial album time stat) := by
  have silent := marks.holds.silent (2 ^ 32) several inside (by omega) early
  rw [Nat.zero_add, Nat.mod_eq_of_lt several] at silent
  exact if_pos silent

/-- Also the first photo of all is not announced to a session that was there before it. -/
theorem first_waits (marks : Marks album readPointer s) (several : 2 ≤ album.rtB_count)
    (inside : readPointer < album.rtB_count) (only : s.published = 1)
    (time : Timespec) (stat : TaskStatistics) (taskStats : TaskStats) :
    (SessionTaskData.rxPdo album s.main.photoReady taskStats (.initial album time stat)).1 =
      false := by
  by_cases ready : BeginReady album readPointer s
  · obtain ⟨number, follows⟩ := ready.initial several time stat
    have early := follows.early
    have announces := follows.announces marks several taskStats
    rw [Bool.eq_false_iff, ne_eq, announces]
    omega
  · rw [initial_waits marks several inside ready]

variable (album) in
/-- A session that begins where nothing is ready yet, and its first call of `rxPdo`. -/
def begun (s : State) (time : Timespec) (stat : TaskStatistics) : State :=
  { s with session := .ready (.initial album time stat) (.initial album time stat) s.published [] }

theorem begun_fails (marks : Marks album readPointer s) (several : 2 ≤ album.rtB_count)
    (inside : readPointer < album.rtB_count) (early : ¬ BeginReady album readPointer s)
    (time : Timespec) (stat : TaskStatistics)
    (delivers : ∀ after, Transition.Reaches (step album) (Allowed album)
      (begun album s time stat) after → Delivers album readPointer after) : False := by
  rcases Nat.eq_zero_or_pos s.published with none | some
  · -- the first photo is never returned
    have allowed : Allowed album (begun album s time stat) .publish := by
      refine ⟨?_, ?_⟩ <;> simp only [begun, none, List.length_nil] <;> omega
    obtain ⟨-, -, -, next⟩ := delivers _ (.step .publish .start allowed rfl)
    have marks' := marks.publish (by omega) allowed.1 (begun album s time stat).session
    have waits := first_waits marks' several inside (by simp [none]) time stat
      (fun _ => (time, stat))
    have returned := (next fun _ => (time, stat)).mpr (by simp [begun, none])
    exact Bool.false_ne_true (waits.symm.trans returned)
  · -- the session has not caught up with the last photo
    obtain ⟨caught, -⟩ := delivers _ .start
    exact early ⟨s.published - 1, Nat.sub_lt some Nat.one_pos, (caught some).1.symm⟩

/-- A session delivers whatever happens, exactly when the photo of index 0 was ready as
it began. -/
theorem delivers_iff (album : Album) (several : 2 ≤ album.rtB_count) {readPointer : Nat}
    (inside : readPointer < album.rtB_count) {before : State}
    (run : Transition.Reaches (step album) (Allowed album) (start readPointer) before)
    (absent : before.session = .absent) (time : Timespec) (stat : TaskStatistics) :
    (∀ constructed, step album before (.construct time stat) = some constructed →
      ∀ after, Transition.Reaches (step album) (Allowed album) constructed after →
        Delivers album readPointer after) ↔ BeginReady album readPointer before := by
  have positive : 0 < album.rtB_count := by omega
  have marks : Marks album readPointer before := run.invariant (Marks.start inside)
    fun _ _ _ marks allowed done => marks.step positive allowed done
  have constructs : step album before (.construct time stat) =
      some { before with session := .constructing (.initial album time stat) } := by
    simp only [step, absent]
  constructor
  · intro delivers
    by_contra early
    apply begun_fails marks several inside early time stat
    intro after later
    apply delivers _ constructs
    -- the loop of the constructor ends at once
    apply Transition.Reaches.trans (.step (.rxPdo fun _ => (time, stat)) .start trivial ?_) later
    simp only [step, initial_waits marks several inside early, begun]
  · intro ready constructed built after later
    rw [constructs] at built
    cases built
    have both : Marks album readPointer after ∧ Keeps album readPointer after := by
      apply later.invariant
      · exact ⟨⟨marks.holds, marks.count, marks.place, marks.few⟩, ready.initial several time stat⟩
      · rintro s action next ⟨marks, keeps⟩ allowed done
        exact ⟨marks.step positive allowed done, keeps.step marks several allowed done⟩
    exact both.2.delivers both.1 several

/-- Ten photos of 64 bytes. -/
def tenPhotos : Album := ⟨4096, 10, 64, 1, 48⟩

/-- The first photo has index 9, the second one index 0. -/
def twoPublished : State :=
  ⟨((Main.setup 9).publish tenPhotos).publish tenPhotos, 2, .absent⟩

/-- Index 0 is ready: a session may begin. -/
theorem delivers_after_two :
    BeginReady tenPhotos 9 twoPublished ∧
      ∀ constructed, step tenPhotos twoPublished (.construct ⟨0, 0⟩ ⟨0, 0, 0⟩) = some constructed →
        ∀ after, Transition.Reaches (step tenPhotos) (Allowed tenPhotos) constructed after →
          Delivers tenPhotos 9 after := by
  have ready : BeginReady tenPhotos 9 twoPublished := ⟨1, by decide, rfl⟩
  have run : Transition.Reaches (step tenPhotos) (Allowed tenPhotos) (start 9) twoPublished :=
    .step .publish (.step .publish .start ⟨by decide, trivial⟩ rfl) ⟨by decide, trivial⟩ rfl
  exact ⟨ready, (delivers_iff tenPhotos (by decide) (by decide) run rfl _ _).mpr ready⟩

/-- The first photo has index 5. A session that begins behind it stays on index 0. -/
theorem begins_behind :
    ¬ ∀ (album : Album), 2 ≤ album.rtB_count → ∀ readPointer < album.rtB_count, ∀ after,
      Transition.Reaches (step album) (Allowed album) (start readPointer) after →
        Delivers album readPointer after := by
  intro always
  obtain ⟨caught, -⟩ := always tenPhotos (by decide) 5 (by decide) _
    (.step (.rxPdo fun _ => (⟨0, 0⟩, ⟨0, 0, 0⟩))
      (.step (.construct ⟨0, 0⟩ ⟨0, 0, 0⟩)
        (.step .publish .start ⟨by decide, trivial⟩ rfl) trivial rfl) trivial rfl)
  exact absurd (caught (by decide)).1 (by decide)

end PdServ.Buddy
