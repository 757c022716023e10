import Lsmkv.Engine.Recency
import Lsmkv.Engine.Visible

/-!
# The calls of clients

`Clients` is a store with the calls of `set`, `delete` and `get` its clients make.  A `set` or
`delete` enters the log, appends its record, inserts the mutation, reads the size of the memtable,
lets go of the log, rotates if the table is full, and returns.  A `get` begins, reads the memory and
the files under the lock of the state, and returns.  Anything can happen between these steps.

A call whose append fails returns an error, has no effect on what the store answers, and is not
among the calls that `returned`.  A call whose rotation fails returns an error as well, but its
mutation is in: it is among the calls that `returned`, as those that return `Ok` are.

The store does what a map of versions does: an append draws a number, the insert publishes the
mutation (`Refines`).
-/

namespace Lsmkv

open Wal

/-! ### The thread of a client in the log -/

namespace Wal.Shared

variable {s s' : Shared} {t : Thread} {event : Event}

/-- Writing the buffer draws no number. -/
theorem drawn_writePending (s : Shared) (fault : Option ℕ) :
    (s.writePending fault).1.appended = s.appended
      ∧ (s.writePending fault).1.lastSeq = s.lastSeq :=
  ⟨(s.toLog.writePending_spec fault).2.2.1, (s.toLog.writePending_spec fault).2.2.2.1⟩

/-- A thread that has encoded a record keeps it or gives up. -/
theorem record_of_moves (h : Moves s t event s') {e : Entry} (he : (s.thread t).record = some e)
    (hne : event ≠ .resume) : s'.appended = s.appended ∧ s'.lastSeq = s.lastSeq
      ∧ (s'.thread t = .idle ∨ (s'.thread t).record = some e) := by
  cases h with
  | report hpc | call hpc | refuse hpc | accept hpc | tooLarge hpc | encode hpc | buffer hpc
  | sync hpc | covered hpc =>
    rw [hpc] at he
    cases he
  | resume => exact absurd rfl hne
  | giveUp | publishFail | endFlushFail => exact ⟨rfl, rfl, Or.inl (thread_fail_self _ _)⟩
  | writeFail =>
    obtain ⟨happended, hseq⟩ := s.drawn_writePending _
    exact ⟨happended, hseq, Or.inl (thread_fail_self _ _)⟩
  | write hpc =>
    rw [hpc] at he
    obtain rfl := Option.some.inj he
    refine ⟨?_, ?_, Or.inr (record_release _ t _)⟩
    · rw [toLog_release]
      exact (s.drawn_writePending _).1
    · rw [toLog_release]
      exact (s.drawn_writePending _).2
  | endFlush hpc =>
    rw [hpc] at he
    obtain rfl := Option.some.inj he
    exact ⟨by rw [toLog_release], by rw [toLog_release], Or.inr (record_release _ t _)⟩
  | acknowledge hpc =>
    rw [hpc] at he
    exact ⟨rfl, rfl, Or.inr (by rw [thread_acknowledge_self]; exact he)⟩
  | writeAlways hpc | drainFail hpc | drain hpc =>
    rw [hpc] at he
    obtain ⟨happended, hseq⟩ := s.drawn_writePending _
    exact ⟨happended, hseq, Or.inr (by rw [thread_goto_self]; exact he)⟩
  | beginFlush hpc | own hpc | beginSync hpc | endSync hpc | endSyncFail hpc | publish hpc =>
    rw [hpc] at he
    exact ⟨rfl, rfl, Or.inr (by rw [thread_goto_self]; exact he)⟩

/-- A thread at the beginning of an append goes on or gives up. -/
theorem called_of_moves (h : Moves s t event s') {key : Bytes} {value : Option Bytes}
    (hpc : s.thread t = .called key value) : s'.appended = s.appended ∧ s'.lastSeq = s.lastSeq
      ∧ (s'.thread t = .idle ∨ s'.thread t = .accepted key value) := by
  cases h with
  | refuse => exact ⟨rfl, rfl, Or.inl (thread_fail_self _ _)⟩
  | accept hpc' =>
    rw [hpc] at hpc'
    obtain ⟨rfl, rfl⟩ := Pc.called.inj hpc'
    exact ⟨rfl, rfl, Or.inr (thread_goto_self _ _ _)⟩
  | report hpc' | call hpc' | tooLarge hpc' | encode hpc' | buffer hpc' | writeFail hpc'
  | writeAlways hpc' | write hpc' | beginFlush hpc' | endFlush hpc' | endFlushFail hpc'
  | sync hpc' | covered hpc' | acknowledge hpc' | giveUp hpc' | own hpc' | drainFail hpc'
  | drain hpc' | beginSync hpc' | endSync hpc' | endSyncFail hpc' | publish hpc'
  | publishFail hpc' | resume hpc' => cases hpc.symm.trans hpc'

/-- A thread about to encode its record encodes it under the next number, or gives up. -/
theorem accepted_of_moves (h : Moves s t event s') {key : Bytes} {value : Option Bytes}
    (hpc : s.thread t = .accepted key value) :
    s'.appended = s.appended ∧ s'.lastSeq = s.lastSeq ∧ s'.thread t = .idle
      ∨ s'.appended = s.appended ++ [⟨key, s.lastSeq + 1, value⟩] ∧ s'.lastSeq = s.lastSeq + 1
        ∧ (s'.thread t).record = some ⟨key, s.lastSeq + 1, value⟩ := by
  cases h with
  | tooLarge => exact Or.inl ⟨rfl, rfl, thread_fail_self _ _⟩
  | @encode e hpc' _ hseq =>
    rw [hpc] at hpc'
    obtain ⟨rfl, rfl⟩ := Pc.accepted.inj hpc'
    rw [← hseq]
    exact Or.inr ⟨rfl, rfl, by rw [thread_goto_self]; rfl⟩
  | @buffer e hpc' _ hseq =>
    rw [hpc] at hpc'
    obtain ⟨rfl, rfl⟩ := Pc.accepted.inj hpc'
    rw [← hseq]
    exact Or.inr ⟨by rw [toLog_release]; rfl, by rw [toLog_release]; rfl, record_release _ t e⟩
  | report hpc' | call hpc' | refuse hpc' | accept hpc' | writeFail hpc'
  | writeAlways hpc' | write hpc' | beginFlush hpc' | endFlush hpc' | endFlushFail hpc'
  | sync hpc' | covered hpc' | acknowledge hpc' | giveUp hpc' | own hpc' | drainFail hpc'
  | drain hpc' | beginSync hpc' | endSync hpc' | endSyncFail hpc' | publish hpc'
  | publishFail hpc' | resume hpc' => cases hpc.symm.trans hpc'

/-- A thread that is not in an append does not get into one by itself. -/
theorem not_appends_of_moves (h : Moves s t event s') (hpc : (s.thread t).appends = false)
    (hevent : ∀ key value, event ≠ .append key value) :
    s'.appended = s.appended ∧ s'.lastSeq = s.lastSeq ∧ (s'.thread t).appends = false := by
  cases h with
  | report | call => exact absurd rfl (hevent _ _)
  | refuse hpc' | accept hpc' | tooLarge hpc' | encode hpc' | buffer hpc' | writeFail hpc'
  | writeAlways hpc' | write hpc' | beginFlush hpc' | endFlush hpc' | endFlushFail hpc'
  | acknowledge hpc' | resume hpc' =>
    rw [hpc'] at hpc
    cases hpc
  | sync | covered => exact ⟨rfl, rfl, by rw [thread_goto_self]; rfl⟩
  | giveUp | publishFail => exact ⟨rfl, rfl, by rw [thread_fail_self]; rfl⟩
  | own hpc' | beginSync hpc' | endSync hpc' | endSyncFail hpc' | publish hpc' =>
    rw [hpc'] at hpc
    exact ⟨rfl, rfl, by rw [thread_goto_self]; exact hpc⟩
  | drainFail hpc' | drain hpc' =>
    rw [hpc'] at hpc
    obtain ⟨happended, hseq⟩ := s.drawn_writePending _
    exact ⟨happended, hseq, by rw [thread_goto_self]; exact hpc⟩

end Wal.Shared

/-! ### The machine -/

namespace VersionedMap.Client

/-- The client encodes its record, if it encodes any. -/
def draw : Client Bytes Bytes → List Entry → Client Bytes Bytes
  | .called (.put _ _) start, [v] => .numbered v start
  | c, _ => c

theorem draw_nil (c : Client Bytes Bytes) : c.draw [] = c := by
  cases c with
  | called input start => cases input <;> rfl
  | _ => rfl

/-- The mutation of the client is inserted into the memtable. -/
def publish : Client Bytes Bytes → Client Bytes Bytes
  | .numbered v start => .answered (.put v.key v.value) none start
  | c => c

/-- The client lets go of the log.  Without a mutation in the memtable its append has failed, and
the call returns the error. -/
def leave : Client Bytes Bytes → Client Bytes Bytes
  | .answered input output start => .answered input output start
  | _ => .idle

theorem leave_eq_idle {c : Client Bytes Bytes}
    (h : ∀ input output start, c ≠ .answered input output start) : c.leave = .idle := by
  cases c with
  | answered input output start => exact absurd rfl (h input output start)
  | _ => rfl

theorem leave_ne_numbered (c : Client Bytes Bytes) (v : Entry) (start : ℕ) :
    c.leave ≠ .numbered v start := by
  cases c <;> simp [leave]

end VersionedMap.Client

/-- Where a `set` or `delete` stands whose mutation is in the memtable. -/
inductive WriteTail where
  /-- It has not read the size of the table yet. -/
  | inserted
  /-- The table was full, and the call goes on to `rotate`. -/
  | due
  /-- It is inside `rotate`, where it creates a log. -/
  | rotating
  /-- `rotate` failed, and its error is what the call returns. -/
  | failed
  /-- The call returns `Ok`. -/
  | done
  deriving DecidableEq, Repr

/-- A store with the calls of its clients in the current session, or in the last one. -/
structure Clients where
  world : World
  clock : ℕ
  client : ℕ → VersionedMap.Client Bytes Bytes
  /-- What the last `set` or `delete` of a client has left to do, once its mutation is in. -/
  tail : ℕ → WriteTail
  /-- The calls that returned and took effect. -/
  returned : List (Call ℕ (MapCall Bytes Bytes) (Option Bytes))

/-- What can happen next. -/
inductive ClientAction where
  | store (action : Action)
  /-- A client calls `get`. -/
  | get (client : ℕ) (key : Bytes)
  /-- A call of `get` looks its key up. -/
  | read (client : ℕ)
  /-- A `set` or `delete` reads the size of the memtable. -/
  | measure (client : ℕ)
  /-- A `set` or `delete` that found the table full calls `rotate`. -/
  | rotate (client : ℕ)
  /-- A call that took effect returns. -/
  | ret (client : ℕ)

/-- Whether an action ends the session or belongs to none. -/
def ClientAction.endsSession : ClientAction → Bool
  | .store action => action.endsSession
  | _ => false

namespace Clients

/-- A store that was never opened. -/
def initial : Clients := ⟨World.initial, 0, fun _ => .idle, fun _ => .done, []⟩

/-- A client makes one call at a time, and reads the size of the table with the log in its hands. -/
def permits (s : Clients) : Action → Bool
  | .write client _ _ | .sync client => s.client client = .idle
  | .leave client => s.tail client ≠ .inserted
  | _ => true

/-- Where a step of the open store leaves the clients. -/
def observe (s : Clients) (action : Action) (e e' : Engine) :
    ℕ → VersionedMap.Client Bytes Bytes :=
  match action with
  | .write client key value => Function.update s.client client (.called (.put key value) s.clock)
  | .wal (.client client) _ =>
    Function.update s.client client ((s.client client).draw (e.encodedBy e'))
  | .insert client => Function.update s.client client (s.client client).publish
  | .leave client => Function.update s.client client (s.client client).leave
  | _ => s.client

/-- Where a step of the open store leaves the calls whose mutation is in. -/
def observeTail (s : Clients) : Action → ℕ → WriteTail
  | .insert client => Function.update s.tail client .inserted
  | .rotateSwap => fun client => if s.tail client = .rotating then .done else s.tail client
  | .rotateFail => fun client => if s.tail client = .rotating then .failed else s.tail client
  | _ => s.tail

/-- Where a step of the store leads.  Opening a store begins a new record of the calls. -/
def advance (s : Clients) (action : Action) (w : World) : Clients :=
  match s.world.engine, w.engine with
  | some e, some e' =>
    ⟨w, s.clock + 1, s.observe action e e', s.observeTail action, s.returned⟩
  | none, some _ => ⟨w, s.clock + 1, fun _ => .idle, fun _ => .done, []⟩
  | _, none => { s with world := w, clock := s.clock + 1 }

/-- Moves a client. -/
def goto (s : Clients) (client : ℕ) (c : VersionedMap.Client Bytes Bytes) : Clients :=
  { s with clock := s.clock + 1, client := Function.update s.client client c }

/-- A call whose mutation is in moves. -/
def setTail (s : Clients) (client : ℕ) (tail : WriteTail) : Clients :=
  { s with tail := Function.update s.tail client tail }

/-- What a call has left to do once `rotate` has looked at the memtable. -/
def rotateTail (e : Engine) : WriteTail := if e.rotating.isSome then .rotating else .done

/-- Whether a call that took effect is at its end. -/
def returns (s : Clients) (e : Engine) (client : ℕ) : MapCall Bytes Bytes → Bool
  | .get _ => true
  | .put _ _ => client ∉ e.readers ∧ (s.tail client = .failed ∨ s.tail client = .done)

/-- One action. -/
def step (s : Clients) : ClientAction → Option Clients
  | .store action =>
    if s.permits action then (s.world.step action).map (s.advance action) else none
  | .get client key =>
    match s.world.engine with
    | some e =>
      if client ∉ e.readers ∧ s.client client = .idle then
        some (s.goto client (.called (.get key) s.clock))
      else none
    | none => none
  | .read client =>
    match s.world.engine, s.client client with
    | some e, .called (.get key) start =>
      some (s.goto client (.answered (.get key) (e.get key) start))
    | _, _ => none
  | .measure client =>
    match s.world.engine, s.tail client with
    | some e, .inserted =>
      let full := e.config.memtableBytes ≤ e.state.active.approxBytes
      some { s.setTail client (if full then .due else .done) with clock := s.clock + 1 }
    | _, _ => none
  | .rotate client =>
    match s.world.engine, s.tail client with
    | some e, .due =>
      (s.world.step (.rotate e.config.memtableBytes)).map fun w =>
        (s.advance (.rotate e.config.memtableBytes) w).setTail client
          ((w.engine.map rotateTail).getD .done)
    | _, _ => none
  | .ret client =>
    match s.world.engine, s.client client with
    | some e, .answered input output start =>
      if s.returns e client input then
        some { s.goto client .idle with
          returned := s.returned ++ [⟨client, input, output, start, some s.clock⟩] }
      else none
    | _, _ => none

end Clients

/-! ### The store as a map of versions -/

/-- What the log of an open store knows of a client that stands at a point of its call. -/
def Engine.Attends (e : Engine) (client : ℕ) : VersionedMap.Client Bytes Bytes → Prop
  | .called (.put key value) _ => client ∈ e.readers
    ∧ (e.wal.thread (.client client) = .idle ∨ e.wal.thread (.client client) = .called key value
      ∨ e.wal.thread (.client client) = .accepted key value)
  | .numbered v _ => client ∈ e.readers
    ∧ (e.wal.thread (.client client) = .idle ∨ (e.wal.thread (.client client)).record = some v)
  | .answered (.put _ _) _ _ => e.wal.thread (.client client) = .idle
  | .idle | .called (.get _) _ | .answered (.get _) _ _ =>
    (e.wal.thread (.client client)).appends = false

/-- The clients of an open store and its log agree. -/
structure Engine.Attended (e : Engine) (client : ℕ → VersionedMap.Client Bytes Bytes) : Prop where
  outside : ∀ i, i ∉ e.readers → e.wal.thread (.client i) = .idle
  rotating : e.rotating ≠ none → e.readers = []
  attends : ∀ i, e.Attends i (client i)

/-- The store does what the map of versions does. -/
structure Refines (s : Clients) (m : VersionedMap ℕ Bytes Bytes) : Prop where
  reaches : m.Reaches
  base : m.base = s.world.history.start
  clock : m.clock = s.clock
  published : m.published = s.world.history.inserted
  client : m.client = s.client
  returned : m.returned = s.returned
  last : ∀ e, s.world.engine = some e → m.last ≤ e.wal.lastSeq ∧ e.Attended s.client

section

variable {s s' : Clients} {m : VersionedMap ℕ Bytes Bytes} {dir' : Dir} {e e' : Engine}
  {c : VersionedMap.Client Bytes Bytes}

theorem Engine.Attends.congr {i : ℕ} (h : e.Attends i c) (hreaders : i ∈ e.readers → i ∈ e'.readers)
    (hthread : e'.wal.thread (.client i) = e.wal.thread (.client i)) : e'.Attends i c := by
  unfold Engine.Attends at h ⊢
  rw [hthread]
  cases c with
  | idle => exact h
  | called input start =>
    cases input with
    | put key value => exact ⟨hreaders h.1, h.2⟩
    | get key => exact h
  | numbered v start => exact ⟨hreaders h.1, h.2⟩
  | answered input output start => cases input <;> exact h

/-- A client that has let go of the log may meet another one. -/
theorem Engine.Attends.of_idle {i : ℕ} (h : e.Attends i c) (hi : i ∉ e.readers)
    (hthread : e'.wal.thread (.client i) = .idle) : e'.Attends i c := by
  unfold Engine.Attends at h ⊢
  rw [hthread]
  cases c with
  | idle => rfl
  | called input start =>
    cases input with
    | put key value => exact absurd h.1 hi
    | get key => rfl
  | numbered v start => exact absurd h.1 hi
  | answered input output start => cases input <;> rfl

/-- A client that has its answer is in no append. -/
theorem Engine.Attends.answered {i : ℕ} {input : MapCall Bytes Bytes} {output : Option Bytes}
    {start : ℕ} (h : e.Attends i (.answered input output start)) : e.Attends i .idle := by
  cases input with
  | get key => exact h
  | put key value =>
    change (e.wal.thread (.client i)).appends = false
    rw [show e.wal.thread (.client i) = .idle from h]
    rfl

/-- A client that lets go of the log is in no append. -/
theorem Engine.attends_leave {i : ℕ} (hthread : e.wal.thread (.client i) = .idle) :
    e.Attends i c.leave := by
  cases c with
  | answered input output start =>
    cases input with
    | put key value => exact hthread
    | get key =>
      change (e.wal.thread (.client i)).appends = false
      rw [hthread]
      rfl
  | _ =>
    change (e.wal.thread (.client i)).appends = false
    rw [hthread]
    rfl

/-- The state of the clients behind a step of the open store. -/
def Clients.behind (s : Clients) (action : Action) (e : Engine) (dir' : Dir) (e' : Engine) :
    Clients :=
  ⟨⟨dir', some e', s.world.history.observe action e e'⟩, s.clock + 1, s.observe action e e',
    s.observeTail action, s.returned⟩

/-- The map of versions does not see what a call has left to do. -/
theorem Refines.setTail (hr : Refines s m) (i : ℕ) (tail : WriteTail) :
    Refines (s.setTail i tail) m :=
  ⟨hr.reaches, hr.base, hr.clock, hr.published, hr.client, hr.returned, hr.last⟩

/-- A step in which the map of versions only waits. -/
theorem Refines.wait (hr : Refines s m) (he : s.world.engine = some e) {action : Action}
    (hlast : e.wal.lastSeq ≤ e'.wal.lastSeq) (hattended : e'.Attended s.client)
    (hinserted : (s.world.history.observe action e e').inserted = s.world.history.inserted)
    (hclient : s.observe action e e' = s.client) :
    ∃ m', Refines (s.behind action e dir' e') m' := by
  refine ⟨_, hr.reaches.step (.wait le_rfl), hr.base, congrArg (· + 1) hr.clock,
    hr.published.trans hinserted.symm, hr.client.trans hclient.symm, hr.returned,
    fun e₂ he₂ => ?_⟩
  obtain rfl : e' = e₂ := Option.some.inj he₂
  refine ⟨(hr.last e he).1.trans hlast, ?_⟩
  change e'.Attended (s.observe action e e')
  rw [hclient]
  exact hattended

/-- The clients that do not move stand where they stood. -/
theorem Engine.Attended.update (h : e.Attended s.client) {i : ℕ}
    (hreaders : ∀ j, j ≠ i → (j ∈ e'.readers ↔ j ∈ e.readers))
    (hthread : ∀ j, j ≠ i → e'.wal.thread (.client j) = e.wal.thread (.client j))
    (hrotating : e'.rotating ≠ none → e'.readers = [])
    (hi : i ∉ e'.readers → e'.wal.thread (.client i) = .idle) (hc : e'.Attends i c) :
    e'.Attended (Function.update s.client i c) where
  outside j hj := by
    by_cases hji : j = i
    · subst hji
      exact hi hj
    · rw [hthread j hji]
      exact h.outside j fun hj' => hj ((hreaders j hji).mpr hj')
  rotating := hrotating
  attends j := by
    by_cases hji : j = i
    · subst hji
      rwa [Function.update_self]
    · rw [Function.update_of_ne hji]
      exact (h.attends j).congr (hreaders j hji).mpr (hthread j hji)

theorem Engine.Attended.congr (h : e.Attended s.client) (hwal : e'.wal = e.wal)
    (hreaders : e'.readers = e.readers) (hrotating : e'.rotating ≠ none → e'.readers = []) :
    e'.Attended s.client where
  outside i hi := by
    rw [hwal]
    exact h.outside i (hreaders ▸ hi)
  rotating := hrotating
  attends i := (h.attends i).congr (fun hi => hreaders ▸ hi) (by rw [hwal])

/-- What a step of a client in the log does to its call: it draws a number, or leaves the client
where it is. -/
theorem Engine.Attended.walStep (h : e.Attended s.client) {i : ℕ} {event : Event} {wal : Shared}
    (hevent : event.internal (.client i) = true)
    (hwal : e.wal.step (.client i, event) = some wal) :
    (wal.appended = e.wal.appended ∧ wal.lastSeq = e.wal.lastSeq
      ∧ Engine.Attended { e with wal := wal } s.client)
    ∨ ∃ key value start v, v = ⟨key, e.wal.lastSeq + 1, value⟩
      ∧ s.client i = .called (.put key value) start
      ∧ wal.appended = e.wal.appended ++ [v] ∧ wal.lastSeq = e.wal.lastSeq + 1
      ∧ (wal.thread (.client i)).record = some v
      ∧ Engine.Attended { e with wal := wal } (Function.update s.client i (.numbered v start)) := by
  have hmoves := Shared.moves_of_step hwal
  have hcall : ∀ key value, event ≠ .append key value := by
    rintro key value rfl
    cases hevent
  have hresume : event ≠ .resume := by
    rintro rfl
    cases hevent
  have hidle : e.wal.thread (.client i) ≠ .idle := Shared.ne_idle_of_internal hwal hevent
  have hreader : i ∈ e.readers := by
    by_contra hi
    exact hidle (h.outside i hi)
  have hupdate : ∀ {c}, Engine.Attends { e with wal := wal } i c →
      Engine.Attended { e with wal := wal } (Function.update s.client i c) := fun hc =>
    h.update (fun _ _ => Iff.rfl) (fun j hj => Shared.step_thread hwal (by simpa using hj))
      h.rotating (fun hi => absurd hreader hi) hc
  have hstay : Engine.Attends { e with wal := wal } i (s.client i) →
      Engine.Attended { e with wal := wal } s.client := fun hc => by
    have := hupdate hc
    rwa [Function.update_eq_self] at this
  have hat := h.attends i
  cases hc : s.client i with
  | idle =>
    rw [hc] at hat
    obtain ⟨happ, hseq, hpc⟩ := Shared.not_appends_of_moves hmoves hat hcall
    exact Or.inl ⟨happ, hseq, hstay (by rw [hc]; exact hpc)⟩
  | called input start =>
    rw [hc] at hat
    cases input with
    | get key =>
      obtain ⟨happ, hseq, hpc⟩ := Shared.not_appends_of_moves hmoves hat hcall
      exact Or.inl ⟨happ, hseq, hstay (by rw [hc]; exact hpc)⟩
    | put key value =>
      rcases hat.2 with hpc | hpc | hpc
      · exact absurd hpc hidle
      · obtain ⟨happ, hseq, hpc'⟩ := Shared.called_of_moves hmoves hpc
        exact Or.inl ⟨happ, hseq, hstay (by rw [hc]; exact ⟨hreader, hpc'.imp_right Or.inr⟩)⟩
      · rcases Shared.accepted_of_moves hmoves hpc with ⟨happ, hseq, hpc'⟩ | ⟨happ, hseq, hpc'⟩
        · exact Or.inl ⟨happ, hseq, hstay (by rw [hc]; exact ⟨hreader, Or.inl hpc'⟩)⟩
        · exact Or.inr ⟨key, value, start, _, rfl, rfl, happ, hseq, hpc',
            hupdate ⟨hreader, Or.inr hpc'⟩⟩
  | numbered v start =>
    rw [hc] at hat
    obtain ⟨happ, hseq, hpc⟩ := Shared.record_of_moves hmoves (hat.2.resolve_left hidle) hresume
    exact Or.inl ⟨happ, hseq, hstay (by rw [hc]; exact ⟨hreader, hpc⟩)⟩
  | answered input output start =>
    rw [hc] at hat
    cases input with
    | put key value => exact absurd hat hidle
    | get key =>
      obtain ⟨happ, hseq, hpc⟩ := Shared.not_appends_of_moves hmoves hat hcall
      exact Or.inl ⟨happ, hseq, hstay (by rw [hc]; exact hpc)⟩

/-- A client whose append returned has a number. -/
theorem Engine.Attended.numbered_of_returned (h : e.Attended s.client) {i : ℕ} {v : Entry}
    (hthread : e.wal.thread (.client i) = .returned v) :
    ∃ start, s.client i = .numbered v start := by
  have hat := h.attends i
  cases hc : s.client i with
  | numbered u start =>
    rw [hc, Engine.Attends, hthread] at hat
    obtain rfl : v = u := Option.some.inj (hat.2.resolve_left (by simp))
    exact ⟨start, rfl⟩
  | idle =>
    rw [hc, Engine.Attends, hthread] at hat
    cases hat
  | called input start | answered input output start =>
    rw [hc] at hat
    cases input with
    | put key value => simp [Engine.Attends, hthread] at hat
    | get key =>
      rw [Engine.Attends, hthread] at hat
      cases hat

/-- What a step in the log has encoded. -/
theorem Engine.encodedBy_wal {wal : Shared} {added : List Entry}
    (happended : wal.appended = e.wal.appended ++ added) :
    e.encodedBy { e with wal := wal } = added := by
  rw [Engine.encodedBy, if_pos rfl, happended, List.drop_left]

theorem Clients.observe_wal_nil {i : ℕ} {event : Event} {wal : Shared}
    (happended : wal.appended = e.wal.appended) :
    s.observe (.wal (.client i) event) e { e with wal := wal } = s.client := by
  change Function.update s.client i ((s.client i).draw (e.encodedBy _)) = s.client
  rw [Engine.encodedBy_wal (happended.trans (List.append_nil _).symm),
    VersionedMap.Client.draw_nil, Function.update_eq_self]

theorem Clients.observe_wal_singleton {i : ℕ} {event : Event} {wal : Shared} {v : Entry}
    {key : Bytes} {value : Option Bytes} {start : ℕ}
    (hc : s.client i = .called (.put key value) start)
    (happended : wal.appended = e.wal.appended ++ [v]) :
    s.observe (.wal (.client i) event) e { e with wal := wal }
      = Function.update s.client i (.numbered v start) := by
  change Function.update s.client i ((s.client i).draw (e.encodedBy _)) = _
  rw [Engine.encodedBy_wal happended, hc]
  rfl

/-- A thread inside the log moves: it draws a number, or nothing happens to the calls. -/
theorem Refines.walStep (hr : Refines s m) (he : s.world.engine = some e) {thread : Thread}
    {event : Event} {wal : Shared} (hevent : event.internal thread = true)
    (hwal : e.wal.step (thread, event) = some wal) :
    ∃ m', Refines (s.behind (.wal thread event) e dir' { e with wal := wal }) m' := by
  obtain ⟨hlast, hattended⟩ := hr.last e he
  cases thread with
  | syncer =>
    refine hr.wait he ?_ ?_ rfl rfl
    · rcases Shared.step_log hwal with hlog | ⟨v, hseq, -, hlog⟩ | ⟨fault, -, hlog⟩
      · exact hlog ▸ le_rfl
      · rw [hlog]
        exact (hseq ▸ Nat.le_succ _ : e.wal.lastSeq ≤ v.seq)
      · rw [hlog]
        exact (e.wal.toLog.writePending_spec fault).2.2.2.1.ge
    · exact ⟨fun i hi => (Shared.step_thread hwal (by simp)).trans (hattended.outside i hi),
        hattended.rotating,
        fun i => (hattended.attends i).congr id (Shared.step_thread hwal (by simp))⟩
  | client i =>
    rcases hattended.walStep hevent hwal with
      ⟨happended, hseq, hattended'⟩
        | ⟨key, value, start, v, rfl, hc, happended, hseq, -, hattended'⟩
    · exact hr.wait he hseq.ge hattended' rfl (Clients.observe_wal_nil happended)
    · have hclient := @Clients.observe_wal_singleton s e i event wal _ key value start hc happended
      have hi : m.client i = .called (.put key value) start := by rw [hr.client, hc]
      refine ⟨_, hr.reaches.step (.number hi (Nat.lt_succ_of_le hlast)), hr.base,
        congrArg (· + 1) hr.clock, hr.published, ?_, hr.returned, fun e₂ he₂ => ?_⟩
      · change Function.update m.client i _
          = s.observe (.wal (.client i) event) e { e with wal := wal }
        rw [hclient, hr.client]
      · obtain rfl : _ = e₂ := Option.some.inj he₂
        refine ⟨hseq.ge, ?_⟩
        change Engine.Attended _ (s.observe (.wal (.client i) event) e { e with wal := wal })
        rwa [hclient]

/-- **Every step of the open store is a step of the map of versions.** -/
theorem Refines.engine (hr : Refines s m) (he : s.world.engine = some e) {action : Action}
    (hpermits : s.permits action = true) (hm : Engine.Moves s.world.dir e action dir' e') :
    ∃ m', Refines (s.behind action e dir' e') m' := by
  obtain ⟨hlast, hattended⟩ := hr.last e he
  have hsame : e'.wal = e.wal → e'.readers = e.readers → (e'.rotating ≠ none → e'.readers = []) →
      (s.world.history.observe action e e').inserted = s.world.history.inserted →
      s.observe action e e' = s.client → ∃ m', Refines (s.behind action e dir' e') m' :=
    fun hwal hreaders hrotating =>
      hr.wait he (by rw [hwal]) (hattended.congr hwal hreaders hrotating)
  cases hm with
  | @write i key value wal hrotating hclient hwal =>
    have hidle : s.client i = .idle := of_decide_eq_true hpermits
    have hseq : wal.lastSeq = e.wal.lastSeq ∧ (wal.thread (.client i) = .idle
        ∨ wal.thread (.client i) = .called key value) := by
      cases Shared.moves_of_step hwal with
      | report hpc => exact ⟨rfl, Or.inl hpc⟩
      | call => exact ⟨rfl, Or.inr (Shared.thread_goto_self _ _ _)⟩
    refine ⟨_, hr.reaches.step (.call (.put key value) (hr.client ▸ hidle)), hr.base,
      congrArg (· + 1) hr.clock, hr.published, ?_, hr.returned, fun e₂ he₂ => ?_⟩
    · change Function.update m.client i _ = Function.update s.client i _
      rw [hr.client, hr.clock]
    · obtain rfl : _ = e₂ := Option.some.inj he₂
      refine ⟨hlast.trans hseq.1.ge, hattended.update (fun j hj => by simp [hj])
        (fun j hj => Shared.step_thread hwal (by simpa using hj)) (fun h => absurd hrotating h)
        (fun hi => absurd List.mem_cons_self hi) ⟨List.mem_cons_self, ?_⟩⟩
      exact hseq.2.imp_right Or.inl
  | @sync i wal hrotating hclient hwal =>
    have hidle : s.client i = .idle := of_decide_eq_true hpermits
    have hat := hattended.attends i
    rw [hidle] at hat
    obtain ⟨-, hseq, hpc⟩ := Shared.not_appends_of_moves (Shared.moves_of_step hwal) hat (by simp)
    refine hr.wait he hseq.ge ?_ rfl rfl
    have := @Engine.Attended.update s e { e with
        wal := wal, readers := i :: e.readers } (s.client i) hattended i (fun j hj => by simp [hj])
      (fun j hj => Shared.step_thread hwal (by simpa using hj)) (fun h => absurd hrotating h)
      (fun hi => absurd List.mem_cons_self hi) (by rw [hidle]; exact hpc)
    rwa [Function.update_eq_self] at this
  | wal hevent hwal => exact hr.walStep he hevent hwal
  | @insert i v wal hthread hwal =>
    obtain ⟨start, hc⟩ := hattended.numbered_of_returned hthread
    have hwal' : wal.lastSeq = e.wal.lastSeq ∧ wal.thread (.client i) = .idle := by
      cases Shared.moves_of_step hwal with
      | resume => exact ⟨rfl, Shared.thread_goto_self _ _ _⟩
    refine ⟨_, hr.reaches.step (.publish (hr.client ▸ hc)), hr.base, congrArg (· + 1) hr.clock,
      ?_, ?_, hr.returned, fun e₂ he₂ => ?_⟩
    · change m.published ++ [v] = _
      rw [hr.published]
      simp only [Clients.behind, History.observe, hthread]
    · change Function.update m.client i _ = Function.update s.client i (s.client i).publish
      rw [hr.client, hc]
      rfl
    · obtain rfl : _ = e₂ := Option.some.inj he₂
      refine ⟨hlast.trans hwal'.1.ge, ?_⟩
      change Engine.Attended _ (Function.update s.client i (s.client i).publish)
      rw [hc]
      exact hattended.update (fun _ _ => Iff.rfl)
        (fun j hj => Shared.step_thread hwal (by simpa using hj)) hattended.rotating
        (fun _ => hwal'.2) hwal'.2
  | @leave i hclient hthread =>
    have hleft : Engine.Attended { e with readers := e.readers.erase i }
        (Function.update s.client i (s.client i).leave) := by
      refine hattended.update (fun j hj => List.mem_erase_of_ne hj) (fun _ _ => rfl) (fun h => ?_)
        (fun _ => hthread) (Engine.attends_leave hthread)
      exact absurd (hattended.rotating h ▸ hclient) List.not_mem_nil
    by_cases hanswered : ∃ input output start, s.client i = .answered input output start
    · -- the mutation is in, and the call goes on without the log
      obtain ⟨input, output, start, hc⟩ := hanswered
      have hstay : Function.update s.client i (s.client i).leave = s.client := by
        rw [hc, VersionedMap.Client.leave, ← hc, Function.update_eq_self]
      exact hr.wait he le_rfl (hstay ▸ hleft) rfl hstay
    · push Not at hanswered
      refine ⟨_, hr.reaches.step (.giveUp (hr.client ▸ hanswered)), hr.base,
        congrArg (· + 1) hr.clock, hr.published, ?_, hr.returned, fun e₂ he₂ => ?_⟩
      · change Function.update m.client i _ = Function.update s.client i _
        rw [hr.client, VersionedMap.Client.leave_eq_idle hanswered]
      · obtain rfl : _ = e₂ := Option.some.inj he₂
        exact ⟨hlast, hleft⟩
  | rotate hreaders hrotating _ => exact hsame rfl rfl (fun _ => hreaders) rfl rfl
  | rotateFail => exact hsame rfl rfl (fun h => absurd rfl h) rfl rfl
  | @rotateSwap number r hrotating hrecover =>
    have hreaders : e.readers = [] := hattended.rotating (by simp [hrotating])
    have hseq := (spec_of_recover hrecover).2.2.2.1
    refine hr.wait he hseq ⟨fun _ _ => rfl, fun h => absurd rfl h, fun i => ?_⟩ rfl rfl
    exact (hattended.attends i).of_idle (by simp [hreaders]) rfl
  | _ => exact hsame rfl rfl hattended.rotating rfl rfl

end

end Lsmkv
