import Lsmkv.Engine.Interval

/-!
# Directory entries

The bytes of a file are durable once the file is synced, its name only once the directory is.
`Device` adds that to a running store: the names the directory had when it was last synced, and the
syncs of the directory the two background tasks make, a flush once it has renamed its table, a
compaction once it has written all of its own, and each of them once it has renamed the manifest.

Neither `Engine::open` nor a rotation syncs the directory after it has created a log, so that a
mutation can be acknowledged and synced into a file without a durable name
(`first_log_without_entry`).  From a sync of the directory on, every log with an acknowledged
mutation has a durable entry for as long as no mutation is acknowledged into a log created since
(`entriesDurable_of_intoNamed`).
-/

namespace Lsmkv

open Wal

/-! ### The device -/

/-- Whether a task syncs the directory before it goes on: a flush that has renamed its table, a
compaction that has written all of its own, and either once it has renamed the manifest. -/
def JobPc.syncsDir : JobPc → Bool
  | .writing ⟨.flush _, _, some ⟨_, _, .renamed⟩, _⟩ => true
  | .writing ⟨.compact _ _, [], none, _⟩ => true
  | .committing _ _ .renamed => true
  | _ => false

/-- A store, and what its device has of the directory. -/
structure Device where
  world : World
  /-- The logs the directory named when it was last synced. -/
  entries : List ℕ
  /-- The logs whose files appeared since. -/
  created : List ℕ
  /-- The logs whose table a manifest has named. -/
  replaced : List ℕ
  /-- Those of them whose table the manifest on the device names. -/
  settled : List ℕ
  /-- The mutations that were acknowledged, with their logs.  A file that is removed takes its
  mutations along. -/
  acknowledged : List (ℕ × Entry)
  /-- Whether a task has synced the directory where it stands. -/
  synced : Slot → Bool

namespace Device

/-- What can happen next: an action of the store, or a task syncs the directory. -/
inductive Event where
  | act (action : Action)
  | syncDir (slot : Slot)

/-- A store that was never opened. -/
def initial : Device := ⟨World.initial, [], [], [], [], [], fun _ => false⟩

/-- Whether an action is one by which a task goes on that has to sync the directory first. -/
def waits (s : Device) (action : Action) : Bool :=
  match s.world.engine, action.slot with
  | some e, some slot => (e.jobs slot).syncsDir && !s.synced slot && action.faultless
  | _, _ => false

/-- The mutation whose call is done in an action. -/
def acknowledges (s : Device) (action : Action) : List (ℕ × Entry) :=
  match s.world.engine, action with
  | some e, .insert client =>
    match e.wal.thread (.client client) with
    | .returned entry => [(e.walNumber, entry)]
    | _ => []
  | _, _ => []

/-- One event. -/
def step (s : Device) : Event → Option Device
  | .act action =>
    if s.waits action then none
    else (s.world.step action).map fun w =>
      { world := w
        entries := s.entries
        created := s.created ++ w.dir.logs.keys.filter fun n => n ∉ s.world.dir.logs
        replaced := s.replaced ++ w.history.replaced
        settled := s.settled
        acknowledged := (s.acknowledged ++ s.acknowledges action).filter fun p => p.1 ∈ w.dir.logs
        synced := fun slot => s.synced slot && action.slot ≠ some slot }
  | .syncDir slot =>
    match s.world.engine with
    | none => none
    | some e =>
      if (e.jobs slot).syncsDir && !s.synced slot then
        some { s with
          entries := s.world.dir.logs.keys
          created := []
          settled := s.replaced
          synced := Function.update s.synced slot true }
      else none

/-- Whether nothing fails in an event. -/
def Event.faultless : Event → Bool
  | .act action => action.faultless
  | .syncDir _ => true

/-- Every log that holds a mutation that was acknowledged and is not in a table of the manifest on
the device has a durable directory entry. -/
def EntriesDurable (s : Device) : Prop :=
  ∀ p ∈ s.acknowledged, p.2 ∈ contents ((s.world.dir.logs.lookup p.1).getD []) →
    p.1 ∉ s.settled → p.1 ∈ s.entries

/-- Mutations are of logs that are there, and every log is named on the device or appeared since. -/
structure Inv (s : Device) : Prop where
  present : ∀ p ∈ s.acknowledged, p.1 ∈ s.world.dir.logs
  listed : ∀ n ∈ s.world.dir.logs, n ∈ s.entries ∨ n ∈ s.created

variable {s s' : Device}

/-- An event is an action of the store, or a sync of its directory. -/
theorem step_cases {event : Event} (h : s.step event = some s') :
    (∃ action w, event = .act action ∧ s.world.step action = some w
      ∧ s' = { world := w
               entries := s.entries
               created := s.created ++ w.dir.logs.keys.filter fun n => n ∉ s.world.dir.logs
               replaced := s.replaced ++ w.history.replaced
               settled := s.settled
               acknowledged := (s.acknowledged ++ s.acknowledges action).filter
                 fun p => p.1 ∈ w.dir.logs
               synced := fun slot => s.synced slot && action.slot ≠ some slot })
      ∨ ∃ slot, event = .syncDir slot
        ∧ s' = { s with entries := s.world.dir.logs.keys, created := [], settled := s.replaced,
                        synced := Function.update s.synced slot true } := by
  cases event with
  | act action =>
    simp only [step] at h
    split_ifs at h with hwaits
    obtain ⟨w, hw, rfl⟩ := Option.map_eq_some_iff.mp h
    exact Or.inl ⟨action, w, rfl, hw, rfl⟩
  | syncDir slot =>
    simp only [step] at h
    split at h
    · cases h
    · split_ifs at h with hdue
      exact Or.inr ⟨slot, rfl, (Option.some.inj h).symm⟩

theorem inv_of_reachable {ok : Device → Event → Prop}
    (hs : Reachable step ok (· = initial) s) : s.Inv := by
  refine hs.invariant ?_ fun s event s' _ hi _ h => ?_
  · rintro _ rfl
    exact ⟨fun _ hp => (nomatch hp), fun _ hn => (nomatch hn)⟩
  · rcases step_cases h with ⟨action, w, rfl, -, rfl⟩ | ⟨slot, rfl, rfl⟩
    · refine ⟨fun p hp => of_decide_eq_true (List.mem_filter.mp hp).2, fun n hn => ?_⟩
      by_cases hold : n ∈ s.world.dir.logs
      · exact (hi.listed n hold).imp_right (List.mem_append_left _)
      · refine Or.inr (List.mem_append_right _ (List.mem_filter.mpr ⟨hn, decide_eq_true hold⟩))
    · exact ⟨hi.present, fun n hn => Or.inl hn⟩

/-! ### Acknowledged mutations -/

/-- The mutations whose calls are done in an event. -/
def acknowledgedBy (s : Device) : Event → List (ℕ × Entry)
  | .act action => s.acknowledges action
  | .syncDir _ => []

/-- Whether no `set` or `delete` is done in an event whose log was created since the directory was
last synced. -/
def IntoNamed (s : Device) (event : Event) : Prop :=
  ∀ p ∈ s.acknowledgedBy event, p.1 ∉ s.created

instance (s : Device) (event : Event) : Decidable (s.IntoNamed event) :=
  inferInstanceAs (Decidable (∀ p ∈ s.acknowledgedBy event, p.1 ∉ s.created))

/-- A store that was never opened, or one whose directory was just synced. -/
inductive JustSynced : Device → Prop
  | initial : JustSynced initial
  | syncDir {s s' : Device} {slot : Slot}
      (hs : Reachable step (fun _ _ => True) (· = Device.initial) s)
      (h : s.step (.syncDir slot) = some s') : JustSynced s'

/-- A run from a sync of the directory is part of a run. -/
theorem reachable_of_intoNamed (hs : Reachable step IntoNamed JustSynced s) :
    Reachable step (fun _ _ => True) (· = Device.initial) s := by
  induction hs with
  | start h =>
    cases h with
    | initial => exact .start rfl
    | syncDir hs h => exact hs.step trivial h
  | step _ _ h ih => exact ih.step trivial h

/-- A mutation is acknowledged by the thread that inserts it, into the log in use. -/
theorem acknowledges_eq {action : Action} {p : ℕ × Entry} (hp : p ∈ s.acknowledges action) :
    ∃ e client, s.world.engine = some e ∧ action = .insert client
      ∧ e.wal.thread (.client client) = .returned p.2 ∧ p.1 = e.walNumber := by
  unfold acknowledges at hp
  split at hp
  next e client he =>
    split at hp
    next entry hthread =>
      rw [List.mem_singleton.mp hp]
      exact ⟨e, client, he, rfl, hthread, rfl⟩
    next => cases hp
  next => cases hp

/-- A call is done without a change to the directory. -/
theorem dir_of_acknowledges {action : Action} {w : World} (h : s.world.step action = some w)
    {p : ℕ × Entry} (hp : p ∈ s.acknowledges action) : w.dir = s.world.dir := by
  obtain ⟨e, client, -, rfl, -, -⟩ := acknowledges_eq hp
  cases World.moves_of_step h with
  | engine hengine hmoves =>
    cases hmoves with
    | insert => rfl

end Device

/-- **When logs have durable directory entries.**  In every run, whatever fails, from the start or
any sync of the directory on and in every state that follows for as long as no `set` or `delete` is
acknowledged into a log that was created since the directory was last synced, every log with a
mutation that was acknowledged and is not in a table of the manifest on the device has a durable
directory entry. -/
theorem entriesDurable_of_intoNamed {s : Device}
    (hs : Reachable Device.step Device.IntoNamed Device.JustSynced s) : s.EntriesDurable := by
  have hnamed : ∀ p ∈ s.acknowledged, p.1 ∈ s.entries := by
    induction hs with
    | start h =>
      cases h with
      | initial => exact fun p hp => (nomatch hp)
      | syncDir hs h =>
        rcases Device.step_cases h with ⟨action, w, heq, -⟩ | ⟨slot, -, rfl⟩
        · cases heq
        · exact fun p hp => (Device.inv_of_reachable hs).present p hp
    | step hs hok h ih =>
      have hi := Device.inv_of_reachable (Device.reachable_of_intoNamed hs)
      rcases Device.step_cases h with ⟨action, w, rfl, hw, rfl⟩ | ⟨slot, rfl, rfl⟩
      · intro p hp
        obtain ⟨hp, hmem⟩ := List.mem_filter.mp hp
        rcases List.mem_append.mp hp with hp | hp
        · exact ih p hp
        · -- the log in use is one of the directory, and was not created since
          have hmem := of_decide_eq_true hmem
          rw [Device.dir_of_acknowledges hw hp] at hmem
          exact (hi.listed p.1 hmem).resolve_right (hok p hp)
      · exact fun p hp => hi.present p hp
  exact fun p hp _ _ => hnamed p hp

namespace Device

/-- The events of actions of the store. -/
def acts (actions : List Action) : List Event := actions.map .act

/-- A run of the device that passes a test. -/
theorem exists_of_run {ok : Device → Event → Prop} {permitted : Device → Event → Bool}
    {test : Device → Bool} {trace : List Event}
    (hok : ∀ s event, permitted s event = true → ok s event)
    (h : (run step permitted initial trace).map test = some true) :
    ∃ s, Reachable step ok (· = initial) s ∧ test s = true :=
  @Reachable.exists_of_run _ _ _ _ (· = initial) _ _ _ _ hok rfl h

end Device

/-- A write, and a flush that is about to sync the directory after it renamed its table. -/
def aboutToSync : List Device.Event :=
  Device.acts (List.flatten [[.openStore ⟨.always, 100, 4, 10⟩],
    Action.alwaysWrite 1 [1] (some [7]), Action.rotateAndTake 1, [.rename .flush]])

/-- A write into the log that replaced the first one, once the directory is synced. -/
theorem entriesDurable_of_intoNamed_afterSync :
    ∃ s : Device, s.acknowledged.map Prod.fst = [1, 2] ∧ s.settled = [] ∧ s.EntriesDurable := by
  let test (s : Device) : Bool := s.acknowledged.map Prod.fst = [1, 2] && s.settled = []
  have h : ((run Device.step (fun _ _ => true) Device.initial aboutToSync).bind
      fun s₁ => (s₁.step (.syncDir .flush)).bind fun s₂ =>
        (run Device.step (fun s event => decide (s.IntoNamed event)) s₂
          (Device.acts (Action.alwaysWrite 1 [2] (some [8])))).map test) = some true := by
    decide +kernel
  obtain ⟨s₁, hrun₁, h⟩ := Option.bind_eq_some_iff.mp h
  obtain ⟨s₂, hsync, h⟩ := Option.bind_eq_some_iff.mp h
  have hs₁ : Reachable Device.step (fun _ _ => True) (· = Device.initial) s₁ :=
    Reachable.of_run (fun _ _ _ => trivial) (.start rfl) hrun₁
  obtain ⟨s, hs, htest⟩ := Reachable.exists_of_run (fun _ _ h => of_decide_eq_true h)
    (Device.JustSynced.syncDir hs₁ hsync) h
  simp only [test, Bool.and_eq_true, decide_eq_true_iff] at htest
  exact ⟨s, htest.1, htest.2, entriesDurable_of_intoNamed hs⟩

/-- Whether an event is one of a run under `Always` or `Group` in which nothing fails. -/
def Device.Event.safe : Device.Event → Bool
  | .act (.openStore config) => config.sync ≠ .interval
  | event => event.faultless

/-- **The first log has no durable entry.**  A `set` into a new store returns once its record is
synced, but nothing has synced the directory that names the log. -/
theorem first_log_without_entry :
    ¬ ∀ s, Reachable Device.step (fun _ event => event.safe = true) (· = Device.initial) s →
      s.EntriesDurable := by
  intro hall
  let test (s : Device) : Bool := s.acknowledged.any fun p => s.settled = [] && s.entries = []
    && p.2 ∈ contents ((s.world.dir.logs.lookup p.1).getD [])
  obtain ⟨s, hs, htest⟩ : ∃ s, Reachable Device.step (fun _ event => event.safe = true)
      (· = Device.initial) s ∧ test s = true :=
    Device.exists_of_run (fun _ _ h => h)
      (by decide +kernel : (run Device.step (fun _ event => event.safe) Device.initial
        (Device.acts (.openStore ⟨.always, 100, 4, 10⟩ :: Action.alwaysWrite 1 [1] (some [7])))).map
          test = some true)
  obtain ⟨p, hp, hpass⟩ := List.any_eq_true.mp htest
  simp only [Bool.and_eq_true, decide_eq_true_iff] at hpass
  obtain ⟨⟨hsettled, hentries⟩, hholds⟩ := hpass
  have hentry := hall s hs p hp hholds (by rw [hsettled]; exact List.not_mem_nil)
  rw [hentries] at hentry
  cases hentry

end Lsmkv
