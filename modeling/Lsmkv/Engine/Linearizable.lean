import Lsmkv.Engine.Clients
import Lsmkv.Engine.Recovery

/-!
# Linearizability

* `session_linearizable`: the calls of a session can be put in an order in which a plain map gives
  the same answers, and which respects the order in real time.  The order ends in what a `get` would
  answer now.  Any operation of the session may fail.
* `durably_linearizable`: while nothing fails, a kill keeps all that and at most completes calls
  that were running: the map at the end of the order is what the store answers once it is opened
  again.

Both follow from the map of versions the store refines.  For the second, `Tracks` says that a
mutation of the session was inserted or is in the hands of the client that made it, so what a kill
leaves beyond the insertions is published as if those calls had gone on.
-/

namespace Lsmkv

open Wal

/-! ### What the open store answers -/

/-- A store that is open can be seen through its session. -/
def World.Sees (w : World) : Prop := ∀ e, w.engine = some e → ∃ past, Visible e w.history past

/-- A store that is down rests on the mutations it had. -/
def World.AtRest (w : World) : Prop :=
  w.engine = none → ∃ past gone disk k, Rests w.dir w.history past gone disk k

theorem World.atRest_of_reachable {w : World} {ok : World → Action → Prop}
    (hok : ∀ w action, ok w action → w.Orderly action)
    (hw : Reachable World.step ok (· = World.initial) w) : w.AtRest := by
  intro hdown
  have := World.accounted_of_reachable hok hw
  rwa [World.Accounted, hdown] at this

theorem World.Sees.step {w w' : World} {action : Action} (hs : w.Sees) (hc : w.Consistent)
    (hrest : w.AtRest) (hm : w.Moves action w') : w'.Sees := by
  intro e' he'
  cases hm with
  | engine hengine hmoves =>
    obtain rfl := Option.some.inj he'
    obtain ⟨past, hv⟩ := hs _ hengine
    exact ⟨past, hv.step (hc.opened hengine).1 hmoves⟩
  | openStore hengine hopen =>
    obtain rfl := Option.some.inj he'
    obtain ⟨hsound, hlogs⟩ := hc.closed hengine
    obtain ⟨past, gone, disk, k, hr⟩ := hrest hengine
    exact ⟨_, hr.visible (openedFrom hsound hlogs hopen)⟩
  | kill | close | openKilled => cases he'

/-! ### Runs of the clients -/

namespace Clients

/-- The state behind a successful `Engine::open`. -/
def opened (w : World) (ops : List FsOp) (e : Engine) : Clients :=
  ⟨⟨w.dir.applyAll ops, some e, History.fresh e.get⟩, 0, fun _ => .idle, fun _ => .done, []⟩

/-- What a step does. -/
inductive Moves (s : Clients) : ClientAction → Clients → Prop
  | store {action : Action} {w : World} (hpermits : s.permits action = true)
      (hmoves : s.world.Moves action w) : Moves s (.store action) (s.advance action w)
  | get {client : ℕ} {key : Bytes} {e : Engine} (hengine : s.world.engine = some e)
      (hreaders : client ∉ e.readers) (hclient : s.client client = .idle) :
      Moves s (.get client key) (s.goto client (.called (.get key) s.clock))
  | read {client : ℕ} {key : Bytes} {start : ℕ} {e : Engine} (hengine : s.world.engine = some e)
      (hclient : s.client client = .called (.get key) start) :
      Moves s (.read client) (s.goto client (.answered (.get key) (e.get key) start))
  | measure {client : ℕ} {e : Engine} {tail : WriteTail} (hengine : s.world.engine = some e)
      (htail : s.tail client = .inserted) :
      Moves s (.measure client) { s.setTail client tail with clock := s.clock + 1 }
  | rotate {client : ℕ} {e : Engine} {w : World} {tail : WriteTail}
      (hengine : s.world.engine = some e) (htail : s.tail client = .due)
      (hmoves : s.world.Moves (.rotate e.config.memtableBytes) w) :
      Moves s (.rotate client)
        ((s.advance (.rotate e.config.memtableBytes) w).setTail client tail)
  | ret {client : ℕ} {input : MapCall Bytes Bytes} {output : Option Bytes} {start : ℕ} {e : Engine}
      (hengine : s.world.engine = some e)
      (hclient : s.client client = .answered input output start)
      (hreturns : s.returns e client input = true) :
      Moves s (.ret client) { s.goto client .idle with
        returned := s.returned ++ [⟨client, input, output, start, some s.clock⟩] }

variable {s s' : Clients} {action : ClientAction}

theorem moves_of_step (h : s.step action = some s') : s.Moves action s' := by
  cases action with
  | store action =>
    rw [step] at h
    split_ifs at h with hpermits
    obtain ⟨w, hw, rfl⟩ := Option.map_eq_some_iff.mp h
    exact .store hpermits (World.moves_of_step hw)
  | get client key =>
    cases hengine : s.world.engine with
    | none => simp [step, hengine] at h
    | some e =>
      simp only [step, hengine] at h
      split_ifs at h with hguard
      obtain rfl := Option.some.inj h
      exact .get hengine hguard.1 hguard.2
  | read client =>
    rw [step] at h
    split at h
    · rename_i hengine hclient
      obtain rfl := Option.some.inj h
      exact .read hengine hclient
    · cases h
  | measure client =>
    rw [step] at h
    split at h
    · rename_i hengine htail
      obtain rfl := Option.some.inj h
      exact .measure hengine htail
    · cases h
  | rotate client =>
    rw [step] at h
    split at h
    · rename_i hengine htail
      obtain ⟨w, hw, rfl⟩ := Option.map_eq_some_iff.mp h
      exact .rotate hengine htail (World.moves_of_step hw)
    · cases h
  | ret client =>
    rw [step] at h
    split at h
    · rename_i hengine hclient
      split_ifs at h with hreturns
      obtain rfl := Option.some.inj h
      exact .ret hengine hclient hreturns
    · cases h

theorem world_advance (s : Clients) (action : Action) (w : World) :
    (s.advance action w).world = w := by
  unfold advance
  split <;> rfl

/-- A client sees what the store answers. -/
theorem Moves.sees (h : s.Moves action s') (hc : s.world.Consistent) (hrest : s.world.AtRest)
    (hsees : s.world.Sees) : s'.world.Sees := by
  cases h with
  | store _ hmoves =>
    rw [world_advance]
    exact hsees.step hc hrest hmoves
  | rotate _ _ hmoves =>
    change (s.advance _ _).world.Sees
    rw [world_advance]
    exact hsees.step hc hrest hmoves
  | get | read | measure | ret => exact hsees

/-- A step that does not end the session leaves the store open, over the map it started with. -/
theorem Moves.session (h : s.Moves action s') (hup : s.world.engine ≠ none)
    (hends : action.endsSession = false) :
    s'.world.engine ≠ none ∧ s'.world.history.start = s.world.history.start := by
  cases h with
  | store _ hmoves =>
    rw [world_advance]
    cases hmoves with
    | engine => exact ⟨by simp, rfl⟩
    | openStore hengine => exact absurd hengine hup
    | kill | close | openKilled => cases hends
  | rotate _ _ hmoves =>
    change (s.advance _ _).world.engine ≠ none ∧ (s.advance _ _).world.history.start = _
    rw [world_advance]
    cases hmoves with
    | engine => exact ⟨by simp, rfl⟩
  | get | read | measure | ret => exact ⟨hup, rfl⟩

/-- The store under the clients runs as it does without them. -/
theorem reachable_world {ok : Clients → ClientAction → Prop} {ok' : World → Action → Prop}
    {init : Clients → Prop} (hok : ∀ s action, ok s (.store action) → ok' s.world action)
    (hrotate : ∀ s minBytes, ok' s (.rotate minBytes))
    (hinit : ∀ s, init s → Reachable World.step ok' (· = World.initial) s.world)
    (hs : Reachable step ok init s) : Reachable World.step ok' (· = World.initial) s.world := by
  refine hs.invariant hinit fun s action s' _ ih ha h => ?_
  cases action with
  | store action =>
    rw [step] at h
    split_ifs at h
    obtain ⟨w, hw, rfl⟩ := Option.map_eq_some_iff.mp h
    rw [world_advance]
    exact ih.step (hok s action ha) hw
  | rotate client =>
    rw [step] at h
    split at h
    · obtain ⟨w, hw, rfl⟩ := Option.map_eq_some_iff.mp h
      change Reachable _ _ _ (s.advance _ w).world
      rw [world_advance]
      exact ih.step (hrotate _ _) hw
    · cases h
  | get | read | measure | ret =>
    cases moves_of_step h
    exact ih

end Clients

/-! ### The map of versions -/

section

variable {s s' : Clients} {m : VersionedMap ℕ Bytes Bytes} {e : Engine}

theorem OpenedFrom.attended {dir dir' : Dir} {config : Config} (ho : OpenedFrom dir config dir' e) :
    e.Attended fun _ => .idle := by
  obtain ⟨r, heq, -⟩ := ho.fresh
  rw [heq]
  exact ⟨fun _ _ => rfl, fun h => absurd rfl h, fun _ => rfl⟩

/-- A store that was just opened is a map nobody has called. -/
theorem Refines.opened {dir dir' : Dir} {config : Config} (ho : OpenedFrom dir config dir' e)
    (clock : ℕ) :
    Refines ⟨⟨dir', some e, History.fresh e.get⟩, clock, fun _ => .idle, fun _ => .done, []⟩
      ⟨e.get, clock, e.wal.lastSeq, [], fun _ => .idle, []⟩ where
  reaches := .fresh ⟨rfl, rfl, fun _ => rfl⟩
  base := rfl
  clock := rfl
  published := rfl
  client := rfl
  returned := rfl
  last e' he' := by
    obtain rfl := Option.some.inj he'
    exact ⟨le_rfl, ho.attended⟩

/-- A store that goes down, or stays down, keeps its record of the calls. -/
theorem Refines.down (hr : Refines s m) {w : World} (hdown : w.engine = none)
    (hhistory : w.history = s.world.history) :
    ∃ m', Refines { s with world := w, clock := s.clock + 1 } m' := by
  refine ⟨_, hr.reaches.step (.wait le_rfl), ?_, congrArg (· + 1) hr.clock, ?_, hr.client,
    hr.returned, fun e he => ?_⟩
  · exact hr.base.trans (by rw [hhistory])
  · exact hr.published.trans (by rw [hhistory])
  · cases hdown.symm.trans he

/-- **Every step of the clients and of the store is a step of the map of versions.** -/
theorem Refines.step (hr : Refines s m) (hc : s.world.Consistent) (hsees : s.world.Sees)
    {action : ClientAction} (h : s.Moves action s') : ∃ m', Refines s' m' := by
  -- a client moves outside the store
  have hgoto : ∀ {client : ℕ} {c : VersionedMap.Client Bytes Bytes} {returned},
      (∀ e, s.world.engine = some e → e.Attends client c) →
      VersionedMap.Step m { m.goto client c with returned := returned } →
      ∃ m', Refines { s.goto client c with returned := returned } m' := by
    intro client c returned hattends hstep
    refine ⟨_, hr.reaches.step hstep, hr.base, congrArg (· + 1) hr.clock, hr.published, ?_, rfl,
      fun e he => ?_⟩
    · change Function.update m.client client c = Function.update s.client client c
      rw [hr.client]
    · obtain ⟨hlast, hattended⟩ := hr.last e he
      exact ⟨hlast, hattended.update (fun _ _ => Iff.rfl) (fun _ _ => rfl) hattended.rotating
        (hattended.outside client) (hattends e he)⟩
  cases h with
  | @store action w hpermits hmoves =>
    cases hmoves with
    | engine hengine hmoves =>
      simp only [Clients.advance, hengine]
      exact hr.engine hengine hpermits hmoves
    | kill hengine | close hengine =>
      simp only [Clients.advance, hengine]
      exact hr.down rfl rfl
    | openKilled hengine =>
      simp only [Clients.advance, hengine]
      exact hr.down rfl rfl
    | openStore hengine hopen =>
      simp only [Clients.advance, hengine]
      obtain ⟨hsound, hlogs⟩ := hc.closed hengine
      exact ⟨_, Refines.opened (openedFrom hsound hlogs hopen) _⟩
  | @get client key e hengine hreaders hclient =>
    have := @hgoto client (.called (.get key) s.clock) s.returned (fun e' he' => ?_) ?_
    · exact this
    · have hat := ((hr.last e' he').2).attends client
      rwa [hclient] at hat
    · rw [← hr.returned, ← hr.clock]
      exact .call (.get key) (hr.client ▸ hclient)
  | @read client key start e hengine hclient =>
    have hget : e.get key = overlay m.base m.published key := by
      obtain ⟨past, hv⟩ := hsees e hengine
      rw [hv.get (hc.opened hengine).1, hr.base, hr.published]
    have := @hgoto client (.answered (.get key) (e.get key) start) s.returned (fun e' he' => ?_) ?_
    · exact this
    · have hat := ((hr.last e' he').2).attends client
      rwa [hclient] at hat
    · rw [← hr.returned, hget]
      exact .read (hr.client ▸ hclient)
  | measure =>
    exact ⟨_, hr.reaches.step (.wait le_rfl), hr.base, congrArg (· + 1) hr.clock, hr.published,
      hr.client, hr.returned, hr.last⟩
  | @rotate client e w tail hengine _ hmoves =>
    cases hmoves with
    | engine hengine' hmoves =>
      simp only [Clients.advance, hengine']
      obtain ⟨m', hr'⟩ := hr.engine hengine' rfl hmoves
      exact ⟨m', hr'.setTail client tail⟩
  | @ret client input output start e hengine hclient =>
    refine hgoto (fun e' he' => ?_) ?_
    · have hat := ((hr.last e' he').2).attends client
      rw [hclient] at hat
      exact hat.answered
    · rw [← hr.returned, ← hr.clock]
      exact .ret (hr.client ▸ hclient)

/-- The call is running, and its mutation has a number if it makes one. -/
def Clients.Runs (s : Clients) (c : Call ℕ (MapCall Bytes Bytes) (Option Bytes)) : Prop :=
  c.stop = none ∧ (s.client c.client = .answered c.input c.output c.start
    ∨ ∃ v, s.client c.client = .numbered v c.start ∧ c.input = .put v.key v.value
      ∧ c.output = none)

/-- A store that is open since it answered `start`. -/
structure Clients.Session (start : Bytes → Option Bytes) (s : Clients) : Prop where
  up : s.world.engine ≠ none
  start_eq : s.world.history.start = start
  sees : s.world.Sees
  refines : ∃ m, Refines s m

theorem Clients.Session.step {start : Bytes → Option Bytes} (h : s.Session start)
    (hc : s.world.Consistent) {action : ClientAction} (hends : action.endsSession = false)
    (hmoves : s.Moves action s') : s'.Session start := by
  obtain ⟨hup, hstart⟩ := hmoves.session h.up hends
  obtain ⟨m, hr⟩ := h.refines
  exact ⟨hup, hstart.trans h.start_eq,
    hmoves.sees hc (fun hdown => absurd hdown h.up) h.sees, hr.step hc h.sees hmoves⟩

end

section

variable {w : World} {config : Config} {ops : List FsOp} {e₀ : Engine} {s : Clients}

/-- The clients of a store that was opened on a directory an orderly run left. -/
theorem Clients.session_of_reachable
    (hw : Reachable World.step World.Orderly (· = World.initial) w) (hdown : w.engine = none)
    (hopen : Engine.openPlan w.dir config = (ops, .ok e₀))
    (hs : Reachable Clients.step (fun _ action => action.endsSession = false)
      (· = Clients.opened w ops e₀) s) :
    s.Session e₀.get ∧ Reachable World.step (fun _ _ => True) (· = World.initial) s.world := by
  obtain ⟨hsound, hlogs⟩ := (consistent_of_reachable hw).closed hdown
  have hopened := openedFrom hsound hlogs hopen
  obtain ⟨past, gone, disk, k, hrests⟩ := World.atRest_of_reachable (fun _ _ => id) hw hdown
  have hworld : ∀ s, Reachable Clients.step (fun _ action => action.endsSession = false)
      (· = Clients.opened w ops e₀) s →
      Reachable World.step (fun _ _ => True) (· = World.initial) s.world := by
    intro s hs
    refine Clients.reachable_world (fun _ _ _ => trivial) (fun _ _ => trivial) ?_ hs
    rintro _ rfl
    have hstep : w.step (.openStore config) = some (Clients.opened w ops e₀).world := by
      simp only [World.step, hdown, hopen]
      rfl
    exact (hw.mono fun _ _ _ => trivial).step trivial hstep
  refine ⟨hs.invariant ?_ fun s _ _ hreach ih hok h => ?_, hworld s hs⟩
  · rintro _ rfl
    refine ⟨by simp [Clients.opened], rfl, fun e he => ?_, _, Refines.opened hopened 0⟩
    obtain rfl : e₀ = e := Option.some.inj he
    exact ⟨_, hrests.visible hopened⟩
  · exact ih.step (consistent_of_reachable (hworld s hreach)) hok (Clients.moves_of_step h)

/-- What the calls of a session linearize to, with the map of versions that says so. -/
theorem Clients.Session.linearizes {start : Bytes → Option Bytes} (h : s.Session start)
    (hworld : Reachable World.step (fun _ _ => True) (· = World.initial) s.world) {e : Engine}
    (he : s.world.engine = some e) : ∃ m running calls, Refines s m
      ∧ Linearizes MapCall.apply start s.returned running calls e.get
      ∧ (∀ c ∈ running, m.Runs c) ∧ running.Pairwise fun a b => a.client ≠ b.client := by
  obtain ⟨m, hr⟩ := h.refines
  obtain ⟨running, calls, hlinear, hruns, hdistinct⟩ := hr.reaches.linearizes
  refine ⟨m, running, calls, hr, ?_, hruns, hdistinct⟩
  obtain ⟨past, hv⟩ := h.sees e he
  rw [hv.get (files_of_reachable hworld he), ← h.start_eq, ← hr.base, ← hr.published,
    ← hr.returned]
  exact hlinear

/-- **A session is linearizable.**  Take a store that was opened on a directory an orderly run left,
and let any number of clients call `set`, `delete` and `get` on it while the log, the flush thread
and the compactions do their work, and any operation fail.  At every moment, the calls that
`returned` and some of those still running can be put in an order that respects the order in real
time and in which a plain map, starting with what the store answered when it was opened, gives every
answer.  The map at the end of this order is what the store answers now.

The calls that `returned` are those that returned `Ok` and the writes that returned an error because
their rotation failed behind the insert.  A write that returned the error of its append is not in
the order. -/
theorem session_linearizable {w : World}
    (hw : Reachable World.step World.Orderly (· = World.initial) w) (hdown : w.engine = none)
    {config : Config} {ops : List FsOp} {e₀ : Engine}
    (hopen : Engine.openPlan w.dir config = (ops, .ok e₀)) {s : Clients}
    (hs : Reachable Clients.step (fun _ action => action.endsSession = false)
      (· = Clients.opened w ops e₀) s)
    {e : Engine} (he : s.world.engine = some e) : ∃ running calls,
      Linearizes MapCall.apply e₀.get s.returned running calls e.get
        ∧ (∀ c ∈ running, s.Runs c) ∧ running.Pairwise fun a b => a.client ≠ b.client := by
  obtain ⟨hsession, hworld⟩ := Clients.session_of_reachable hw hdown hopen hs
  obtain ⟨m, running, calls, hr, hlinear, hruns, hdistinct⟩ := hsession.linearizes hworld he
  refine ⟨running, calls, hlinear, fun c hc => ?_, hdistinct⟩
  obtain ⟨hstop, hclient⟩ := hruns c hc
  exact ⟨hstop, Or.inl (hr.client ▸ hclient)⟩

end

/-- Whether a run of the clients of a store opened in an empty directory ends in a state that passes
a test. -/
def Clients.sessionPasses (config : Config) (trace : List ClientAction)
    (test : Clients → Bool) : Bool :=
  match Engine.openPlan Dir.empty config with
  | (ops, .ok e) =>
    (run step (fun _ action => !action.endsSession) (opened World.initial ops e) trace).any test
  | (_, .error _) => false

theorem Clients.exists_of_sessionPasses {config : Config} {trace : List ClientAction}
    {test : Clients → Bool} (h : sessionPasses config trace test = true) :
    ∃ ops e s, Engine.openPlan Dir.empty config = (ops, .ok e)
      ∧ Reachable step (fun _ action => action.endsSession = false)
        (· = opened World.initial ops e) s ∧ test s = true := by
  unfold sessionPasses at h
  split at h
  · rename_i ops e hopen
    obtain ⟨s, hs, htest⟩ := (Option.any_eq_true _ _).mp h
    exact ⟨ops, e, s, hopen,
      Reachable.of_run (fun _ _ h => by simpa using h) (Reachable.start rfl) hs, htest⟩
  · cases h

/-- A `set` under `Always`, up to the point where it returns or goes on to `rotate`. -/
def ClientAction.alwaysWrite (client : ℕ) (key : Bytes) (value : Option Bytes) :
    List ClientAction :=
  ((Action.alwaysWrite client key value).take 7).map .store
    ++ [.measure client, .store (.leave client)]

/-- A `set` that fills the memtable and returns the error of its rotation, and a `get` that began
before it and answers its value. -/
def readsFailedSet : List ClientAction :=
  [.get 2 [1]] ++ ClientAction.alwaysWrite 1 [1] (some [7])
    ++ [.rotate 1, .store .rotateFail, .ret 1, .read 2, .ret 2]

theorem session_linearizable_readsFailedSet : ∃ (e₀ e : Engine) (s : Clients)
    (running calls : List (Call ℕ (MapCall Bytes Bytes) (Option Bytes))),
    s.returned = [⟨1, .put [1] (some [7]), none, 1, some 12⟩, ⟨2, .get [1], some [7], 0, some 14⟩]
      ∧ s.tail 1 = .failed
      ∧ Linearizes MapCall.apply e₀.get s.returned running calls e.get
      ∧ ∀ c ∈ running, s.Runs c := by
  obtain ⟨ops, e₀, s, hopen, hs, htest⟩ := Clients.exists_of_sessionPasses
    (by decide +kernel : Clients.sessionPasses ⟨.always, 1, 4, 10⟩ readsFailedSet
      (fun s => s.world.engine.isSome && s.returned
        = [⟨1, .put [1] (some [7]), none, 1, some 12⟩, ⟨2, .get [1], some [7], 0, some 14⟩]
        && s.tail 1 = .failed) = true)
  simp only [Bool.and_eq_true, decide_eq_true_iff] at htest
  obtain ⟨⟨hup, hreturned⟩, htail⟩ := htest
  obtain ⟨e, he⟩ := Option.isSome_iff_exists.mp hup
  obtain ⟨running, calls, hlinear, hruns, -⟩ :=
    session_linearizable (.start rfl) rfl hopen hs he
  exact ⟨e₀, e, s, running, calls, hreturned, htail, hlinear, hruns⟩

/-! ### Kills -/

/-- Whether nothing fails in a step, and a kill catches a log that acknowledges nothing before it is
in the file. -/
def Clients.Faultless (s : Clients) : ClientAction → Prop
  | .store action => s.world.Faultless action
  | _ => True

instance (s : Clients) (action : ClientAction) : Decidable (s.Faultless action) :=
  match action with
  | .store action => inferInstanceAs (Decidable (s.world.Faultless action))
  | .get _ _ | .read _ | .measure _ | .rotate _ | .ret _ => inferInstanceAs (Decidable True)

/-- Every mutation of the session was inserted or is in the hands of its client. -/
structure Clients.Tracks (s : Clients) : Prop where
  session : ∀ v ∈ s.world.history.session.map Prod.snd,
    v ∈ s.world.history.inserted ∨ ∃ i start, s.client i = .numbered v start
  busy : ∀ e, s.world.engine = some e → ∀ i v start, s.client i = .numbered v start →
    (e.wal.thread (.client i)).record = some v

section

variable {s s' : Clients} {m : VersionedMap ℕ Bytes Bytes} {dir' : Dir} {e e' : Engine}

/-- A step after which every mutation that was encoded is with the client that encoded it, or was
inserted. -/
theorem Clients.Tracks.behind (ht : s.Tracks) {action : Action}
    (hencoded : ∀ v ∈ e.encodedBy e', ∃ i start, s.observe action e e' i = .numbered v start)
    (hinserted : ∀ v ∈ s.world.history.inserted,
      v ∈ (s.world.history.observe action e e').inserted)
    (hclient : ∀ i v start, s.client i = .numbered v start →
      s.observe action e e' i = .numbered v start
        ∨ v ∈ (s.world.history.observe action e e').inserted)
    (hthread : ∀ i v start, s.observe action e e' i = .numbered v start →
      (e'.wal.thread (.client i)).record = some v) :
    (s.behind action e dir' e').Tracks where
  session v hv := by
    change v ∈ (s.world.history.observe action e e').session.map Prod.snd at hv
    rw [observe_session] at hv
    rcases List.mem_append.mp hv with hv | hv
    · rcases ht.session v hv with hv | ⟨i, start, hi⟩
      · exact Or.inl (hinserted v hv)
      · exact (hclient i v start hi).symm.imp_right fun h => ⟨i, start, h⟩
    · exact Or.inr (hencoded v hv)
  busy e₂ he₂ i v start hi := by
    obtain rfl : e' = e₂ := Option.some.inj he₂
    exact hthread i v start hi

/-- A step that encodes nothing, with the clients that have a number where they were. -/
theorem Clients.Tracks.keep (ht : s.Tracks) (he : s.world.engine = some e) {action : Action}
    (hencoded : e.encodedBy e' = [])
    (hinserted : (s.world.history.observe action e e').inserted = s.world.history.inserted)
    (hclient : ∀ i v start, s.observe action e e' i = .numbered v start
      ↔ s.client i = .numbered v start)
    (hthread : ∀ i v, (e.wal.thread (.client i)).record = some v →
      (∃ start, s.client i = .numbered v start) → (e'.wal.thread (.client i)).record = some v) :
    (s.behind action e dir' e').Tracks := by
  refine ht.behind (by simp [hencoded]) (fun v hv => hinserted ▸ hv)
    (fun i v start hi => Or.inl ((hclient i v start).mpr hi)) fun i v start hi => ?_
  have hi := (hclient i v start).mp hi
  exact hthread i v (ht.busy e he i v start hi) ⟨start, hi⟩

/-- A client encodes its mutation. -/
theorem Clients.Tracks.encode (ht : s.Tracks) (he : s.world.engine = some e) {i : ℕ} {event : Event}
    {wal : Shared} {key : Bytes} {value : Option Bytes} {start : ℕ} {v : Entry}
    (hc : s.client i = .called (.put key value) start)
    (happended : wal.appended = e.wal.appended ++ [v])
    (hv : (wal.thread (.client i)).record = some v)
    (hrecord : ∀ j u, (e.wal.thread (.client j)).record = some u →
      (wal.thread (.client j)).record = some u) :
    (s.behind (.wal (.client i) event) e dir' { e with wal := wal }).Tracks := by
  have hclient := @Clients.observe_wal_singleton s e i event wal v key value start hc happended
  refine ht.behind (fun u hu => ?_) (fun _ => id) (fun j u start' hj => ?_)
    fun j u start' hj => ?_
  · rw [Engine.encodedBy_wal happended] at hu
    rw [List.mem_singleton.mp hu, hclient]
    exact ⟨i, start, Function.update_self _ _ _⟩
  · have hne : j ≠ i := by
      rintro rfl
      cases hc.symm.trans hj
    rw [hclient, Function.update_of_ne hne]
    exact Or.inl hj
  · rw [hclient] at hj
    by_cases hji : j = i
    · subst hji
      rw [Function.update_self] at hj
      obtain ⟨rfl, -⟩ := VersionedMap.Client.numbered.inj hj
      exact hv
    · rw [Function.update_of_ne hji] at hj
      exact hrecord j u (ht.busy e he j u start' hj)

/-- A client inserts its mutation. -/
theorem Clients.Tracks.insert (ht : s.Tracks) (he : s.world.engine = some e) {i start : ℕ}
    {wal : Shared} {v : Entry} (hc : s.client i = .numbered v start)
    (hthread : e.wal.thread (.client i) = .returned v)
    (hwal : e.wal.step (.client i, .resume) = some wal) :
    (s.behind (.insert i) e dir' { e with
      wal := wal, state.active := (e.state.active.insert v).1 }).Tracks := by
  have hinserted : (s.world.history.observe (.insert i) e { e with
      wal := wal, state.active := (e.state.active.insert v).1 }).inserted
      = s.world.history.inserted ++ [v] := by
    simp only [History.observe, hthread]
  refine ht.behind (fun u hu => ?_) (fun u hu => ?_) (fun j u start' hj => ?_)
    fun j u start' hj => ?_
  · rw [Engine.encodedBy, if_pos rfl] at hu
    change u ∈ wal.appended.drop _ at hu
    rw [(Shared.log_resume hwal).1, List.drop_length] at hu
    cases hu
  · rw [hinserted]
    exact List.mem_append_left _ hu
  · by_cases hji : j = i
    · subst hji
      obtain ⟨rfl, -⟩ := VersionedMap.Client.numbered.inj (hc.symm.trans hj)
      rw [hinserted]
      exact Or.inr (List.mem_append_right _ (List.mem_singleton_self _))
    · exact Or.inl ((Function.update_of_ne hji _ _).trans hj)
  · change Function.update s.client i (s.client i).publish j = _ at hj
    by_cases hji : j = i
    · subst hji
      rw [Function.update_self, hc] at hj
      cases hj
    · rw [Function.update_of_ne hji] at hj
      change (wal.thread _).record = some u
      rw [Shared.step_thread hwal (by simpa using hji)]
      exact ht.busy e he j u start' hj

/-- **A step in which nothing fails loses no mutation.** -/
theorem Clients.Tracks.engine (ht : s.Tracks) (he : s.world.engine = some e)
    (hattended : e.Attended s.client) (hl : Logs s.world.dir e) {action : Action}
    (hpermits : s.permits action = true) (hf : action.faultless = true)
    (hm : Engine.Moves s.world.dir e action dir' e') : (s.behind action e dir' e').Tracks := by
  have hsame : e'.wal = e.wal →
      (s.world.history.observe action e e').inserted = s.world.history.inserted →
      s.observe action e e' = s.client → (s.behind action e dir' e').Tracks :=
    fun hwal hinserted hclient => ht.keep he (encodedBy_eq_nil (Or.inl hwal)) hinserted
      (fun _ _ _ => by rw [hclient]) fun _ _ h _ => by rwa [hwal]
  -- a client in no call has no mutation in its hands, and the others do not move
  have hothers : ∀ {i : ℕ} {event : Event} {wal : Shared}, s.client i = .idle →
      e.wal.step (.client i, event) = some wal → ∀ j v,
      (e.wal.thread (.client j)).record = some v → (∃ start, s.client j = .numbered v start) →
      (wal.thread (.client j)).record = some v := by
    rintro i event wal hidle hwal j v hj ⟨start, hstart⟩
    have hji : j ≠ i := by
      rintro rfl
      cases hidle.symm.trans hstart
    rwa [Shared.step_thread hwal (by simpa using hji)]
  cases hm with
  | @write i key value wal hrotating hreader hwal =>
    have hidle : s.client i = .idle := of_decide_eq_true hpermits
    have happended : wal.appended = e.wal.appended := by
      cases Shared.moves_of_step hwal <;> rfl
    refine ht.keep he ?_ rfl (fun j v start => ?_) (hothers hidle hwal)
    · rw [Engine.encodedBy, if_pos rfl, happended, List.drop_length]
    · change Function.update s.client i _ j = _ ↔ _
      by_cases hji : j = i
      · subst hji
        simp [hidle]
      · rw [Function.update_of_ne hji]
  | @sync i wal hrotating hreader hwal =>
    have hidle : s.client i = .idle := of_decide_eq_true hpermits
    have hat := hattended.attends i
    rw [hidle] at hat
    obtain ⟨happended, -⟩ := Shared.not_appends_of_moves (Shared.moves_of_step hwal) hat (by simp)
    refine ht.keep he ?_ rfl (fun _ _ _ => Iff.rfl) (hothers hidle hwal)
    rw [Engine.encodedBy, if_pos rfl, happended, List.drop_length]
  | @wal thread event wal hevent hwal =>
    cases thread with
    | syncer =>
      have happended := hl.calm_wal.appended_syncer hf hwal
      refine ht.keep he ?_ rfl (fun _ _ _ => Iff.rfl) fun j v hj _ => ?_
      · exact Engine.encodedBy_wal (happended.trans (List.append_nil _).symm)
      · change (wal.thread _).record = some v
        rwa [Shared.step_thread hwal (by simp)]
    | client i =>
      have hresume : event ≠ .resume := by
        rintro rfl
        cases hevent
      have hrecord : ∀ j v, (e.wal.thread (.client j)).record = some v →
          (wal.thread (.client j)).record = some v := fun j v hj => by
        by_cases hji : j = i
        · subst hji
          exact hl.calm_wal.record_step hf hresume (Shared.moves_of_step hwal) hj
        · rwa [Shared.step_thread hwal (by simpa using hji)]
      rcases hattended.walStep hevent hwal with
        ⟨happended, -⟩ | ⟨key, value, start, v, -, hc, happended, -, hv, -⟩
      · refine ht.keep he ?_ rfl (fun _ _ _ => ?_) fun j v hj _ => hrecord j v hj
        · exact Engine.encodedBy_wal (happended.trans (List.append_nil _).symm)
        · rw [Clients.observe_wal_nil happended]
      · exact ht.encode he hc happended hv hrecord
  | insert hthread hwal =>
    obtain ⟨start, hc⟩ := hattended.numbered_of_returned hthread
    exact ht.insert he hc hthread hwal
  | @leave i hreader hthread =>
    refine ht.keep he (encodedBy_eq_nil (Or.inl rfl)) rfl (fun j v start => ?_) fun _ _ h _ => h
    change Function.update s.client i (s.client i).leave j = _ ↔ _
    by_cases hji : j = i
    · subst hji
      rw [Function.update_self]
      refine ⟨fun h => absurd h (VersionedMap.Client.leave_ne_numbered _ _ _), fun h => ?_⟩
      have := ht.busy e he j v start h
      rw [hthread] at this
      cases this
    · rw [Function.update_of_ne hji]
  | @rotateSwap number r hrotating hrecover =>
    have hreaders : e.readers = [] := hattended.rotating (by simp [hrotating])
    refine ht.keep he ?_ rfl (fun _ _ _ => Iff.rfl) fun j v hj hnumbered => ?_
    · rw [Engine.encodedBy]
      split_ifs
      · exact List.drop_nil
      · rfl
    · obtain ⟨start, hstart⟩ := hnumbered
      have hat := hattended.attends j
      rw [hstart] at hat
      exact absurd hat.1 (by simp [hreaders])
  | _ => exact hsame rfl rfl rfl

theorem Clients.Tracks.step (ht : s.Tracks) (hr : Refines s m) (ha : s.world.Accounted)
    {action : ClientAction} (hf : s.Faultless action) (h : s.Moves action s') : s'.Tracks := by
  -- a client moves from a point without a number to another
  have hgoto : ∀ {client : ℕ} {c : VersionedMap.Client Bytes Bytes} {returned},
      (∀ v start, s.client client ≠ .numbered v start) → (∀ v start, c ≠ .numbered v start) →
      Clients.Tracks { s.goto client c with returned := returned } := by
    intro client c returned hold hnew
    have hiff : ∀ i v start, Function.update s.client client c i = .numbered v start
        ↔ s.client i = .numbered v start := fun i v start => by
      by_cases hi : i = client
      · subst hi
        rw [Function.update_self]
        exact ⟨fun h => absurd h (hnew v start), fun h => absurd h (hold v start)⟩
      · rw [Function.update_of_ne hi]
    refine ⟨fun v hv => ?_, fun e he i v start hi =>
      ht.busy e he i v start ((hiff i v start).mp hi)⟩
    rcases ht.session v hv with hv | ⟨i, start, hi⟩
    · exact Or.inl hv
    · exact Or.inr ⟨i, start, (hiff i v start).mpr hi⟩
  cases h with
  | @store action w hpermits hmoves =>
    cases hmoves with
    | engine hengine hmoves =>
      rw [World.Accounted, hengine] at ha
      simp only [Clients.advance, hengine]
      exact ht.engine hengine (hr.last _ hengine).2 ha.1 hpermits hf.1 hmoves
    | kill hengine | close hengine | openKilled hengine =>
      simp only [Clients.advance, hengine]
      exact ⟨ht.session, fun e he => (by cases he)⟩
    | openStore hengine hopen =>
      simp only [Clients.advance, hengine]
      exact ⟨fun v hv => (by cases hv), fun e he i v start hi => (by cases hi)⟩
  | get hengine hreaders hclient => exact hgoto (by simp [hclient]) (by simp)
  | read hengine hclient => exact hgoto (by simp [hclient]) (by simp)
  | measure => exact ⟨ht.session, ht.busy⟩
  | rotate _ _ hmoves =>
    cases hmoves with
    | engine hengine hmoves =>
      rw [World.Accounted, hengine] at ha
      simp only [Clients.advance, hengine]
      have hbehind := ht.engine hengine (hr.last _ hengine).2 ha.1 rfl rfl hmoves
      exact ⟨hbehind.session, hbehind.busy⟩
  | ret hengine hclient => exact hgoto (by simp [hclient]) (by simp)

/-- A store that has a record of the calls of the session, or of the last one. -/
structure Clients.Recorded (s : Clients) : Prop where
  sees : s.world.Sees
  tracks : s.Tracks
  refines : ∃ m, Refines s m

theorem Clients.recorded_initial : Clients.initial.Recorded := by
  refine ⟨fun e he => (by cases he), ⟨fun v hv => (by cases hv), fun e he => (by cases he)⟩,
    ⟨fun _ => none, 0, 0, [], fun _ => .idle, []⟩, ?_⟩
  exact ⟨.fresh ⟨rfl, rfl, fun _ => rfl⟩, rfl, rfl, rfl, rfl, rfl, fun e he => (by cases he)⟩

theorem Clients.Recorded.step (h : s.Recorded) (hc : s.world.Consistent) (ha : s.world.Accounted)
    {action : ClientAction} (hf : s.Faultless action) (hmoves : s.Moves action s') :
    s'.Recorded := by
  obtain ⟨m, hr⟩ := h.refines
  refine ⟨?_, h.tracks.step hr ha hf hmoves, hr.step hc h.sees hmoves⟩
  refine hmoves.sees hc (fun hdown => ?_) h.sees
  rwa [World.Accounted, hdown] at ha

end

/-- **A kill leaves a linearizable store.**  In every run in which nothing fails, made of any number
of sessions that were dropped or, under `Always` and `Group`, killed anywhere, take a store that is
down and can be opened.  The calls of the last session that had returned, and some of those that
were running, can be put in an order that respects the order in real time, and in which a plain map,
starting with what that session started with, gives every answer and ends in what the store answers
once it is open again. -/
theorem durably_linearizable {s : Clients}
    (hs : Reachable Clients.step Clients.Faultless (· = Clients.initial) s)
    (hdown : s.world.engine = none) {config : Config} {ops : List FsOp} {e : Engine}
    (hopen : Engine.openPlan s.world.dir config = (ops, .ok e)) : ∃ running calls,
      Linearizes MapCall.apply s.world.history.start s.returned running calls e.get
        ∧ (∀ c ∈ running, s.Runs c) ∧ running.Pairwise fun a b => a.client ≠ b.client := by
  have hworld : ∀ s, Reachable Clients.step Clients.Faultless (· = Clients.initial) s →
      Reachable World.step World.Faultless (· = World.initial) s.world := fun s hs => by
    refine Clients.reachable_world (fun _ _ h => h) (fun _ _ => ⟨rfl, by simp [Action.isKill]⟩)
      ?_ hs
    rintro _ rfl
    exact .start rfl
  have horderly : ∀ (w : World) action, w.Faultless action → w.Orderly action :=
    fun _ _ => World.Faultless.orderly
  have hrecorded : s.Recorded := by
    refine hs.invariant ?_ fun s _ _ hreach ih hok h => ?_
    · rintro _ rfl
      exact Clients.recorded_initial
    · exact ih.step (consistent_of_reachable (hworld s hreach))
        (World.accounted_of_reachable horderly (hworld s hreach)) hok (Clients.moves_of_step h)
  obtain ⟨-, ht, m, hr⟩ := hrecorded
  obtain ⟨past, gone, disk, k, hrests⟩ := World.atRest_of_reachable horderly (hworld s hs) hdown
  obtain ⟨hsound, hlogs⟩ := (consistent_of_reachable (hworld s hs)).closed hdown
  have hget := hrests.get_eq_overlay (openedFrom hsound hlogs hopen)
  -- what the kill left, and what of it was not inserted yet
  set kept := (s.world.history.session.map Prod.snd).take k with hkept
  have hpairwise : kept.Pairwise fun v u => v.seq < u.seq :=
    ((List.pairwise_append.mp hrests.ordered).2.1).sublist (List.take_sublist _ _)
  set extra := kept.filter fun v => v ∉ s.world.history.inserted with hextra
  have hnumbered : ∀ v ∈ extra, ∃ i start, m.client i = .numbered v start := fun v hv => by
    obtain ⟨hmem, hnot⟩ := List.mem_filter.mp hv
    rw [hr.client]
    exact (ht.session v (List.mem_of_mem_take hmem)).resolve_left (by simpa using hnot)
  have hnodup : extra.Nodup := (hpairwise.imp fun h => (by rintro rfl; exact h.ne rfl)).filter _
  obtain ⟨m', hm', hbase, hreturned, hpublished, hclient⟩ :=
    hr.reaches.publish_all hnodup hnumbered
  obtain ⟨running, calls, hlinear, hruns, hdistinct⟩ := hm'.linearizes
  refine ⟨running, calls, ?_, fun c hc => ?_, hdistinct⟩
  · have hmem : ∀ v, v ∈ m'.published ↔ v ∈ kept := fun v => by
      rw [hpublished, hr.published, List.mem_append, hextra, List.mem_filter]
      refine ⟨fun h => h.elim (hrests.inserted v) And.left, fun h => ?_⟩
      by_cases hins : v ∈ s.world.history.inserted
      · exact Or.inl hins
      · exact Or.inr ⟨h, by simpa using hins⟩
    rw [hget, ← overlay_congr (distinct_of_pairwise hpairwise) hmem, ← hr.base, ← hbase,
      ← hr.returned, ← hreturned]
    exact hlinear
  · obtain ⟨hstop, hanswered⟩ := hruns c hc
    refine ⟨hstop, ?_⟩
    rw [← hr.client]
    rcases hclient c.client with h | ⟨v, start, hv, h⟩
    · exact Or.inl (h ▸ hanswered)
    · obtain ⟨hinput, houtput, hstart⟩ := VersionedMap.Client.answered.inj (h.symm.trans hanswered)
      exact Or.inr ⟨v, hstart ▸ hv, hinput.symm, houtput.symm⟩

/-- A store killed behind a `set` that returned, a `get`, and a second `set` whose record is in the
file but which has not returned. -/
def killedInSet : List ClientAction :=
  List.flatten [[.store (.openStore ⟨.always, 100, 4, 10⟩)],
    ClientAction.alwaysWrite 1 [1] (some [7]), [.ret 1, .get 3 [1], .read 3, .ret 3],
    ((Action.alwaysWrite 2 [1] (some [9])).take 4).map .store, [.store (.kill fun _ => 0)]]

/-- A trace in which nothing fails and that runs to a state passing a test. -/
theorem Clients.exists_of_run {test : Clients → Bool} {trace : List ClientAction}
    (h : (run step (fun s action => decide (s.Faultless action)) initial trace).map test
      = some true) :
    ∃ s, Reachable step Faultless (· = initial) s ∧ test s = true :=
  @Reachable.exists_of_run _ _ _ _ (· = initial) _ _ _ _ (fun _ _ h => of_decide_eq_true h) rfl h

theorem durably_linearizable_killedInSet : ∃ (s : Clients) (e : Engine)
    (running calls : List (Call ℕ (MapCall Bytes Bytes) (Option Bytes))),
    s.returned = [⟨1, .put [1] (some [7]), none, 1, some 10⟩, ⟨3, .get [1], some [7], 11, some 13⟩]
      ∧ s.client 2 = .numbered ⟨[1], 2, some [9]⟩ 14 ∧ e.get [1] = some [9]
      ∧ Linearizes MapCall.apply s.world.history.start s.returned running calls e.get
      ∧ ∀ c ∈ running, s.Runs c := by
  obtain ⟨s, hs, htest⟩ := Clients.exists_of_run
    (by decide +kernel : (run Clients.step (fun s action => decide (s.Faultless action))
      Clients.initial killedInSet).map (fun s => s.world.engine.isNone && s.returned =
        [⟨1, .put [1] (some [7]), none, 1, some 10⟩, ⟨3, .get [1], some [7], 11, some 13⟩]
        && s.client 2 = .numbered ⟨[1], 2, some [9]⟩ 14
        && s.world.dir.answer ⟨.always, 100, 4, 10⟩ [1] = some [9]) = some true)
  simp only [Bool.and_eq_true, decide_eq_true_iff, Option.isNone_iff_eq_none] at htest
  obtain ⟨⟨⟨hdown, hreturned⟩, hclient⟩, hanswer⟩ := htest
  obtain ⟨ops, e, hopen, hget⟩ := Dir.exists_of_answer hanswer
  obtain ⟨running, calls, hlinear, hruns, -⟩ := durably_linearizable hs hdown hopen
  exact ⟨s, e, running, calls, hreturned, hclient, hget, hlinear, hruns⟩

end Lsmkv
