import Lsmkv.Engine.Linearizable
import Lsmkv.Lib.Interleave
import Lsmkv.Server.Program

/-!
# Many connections on one store

`Serving` is the server at work: a store with its log, its flush thread and its compactions, and any
number of connections, each of which runs its commands on a blocking thread while those of the
others run.  A call of a connection into the store takes many steps, and so do the calls of the
others at the same time.

`serving_atomic` says what clients can rely on.  Every connection has written, byte for byte, what
it writes in some run of the same connections over a plain map that serves each call in one step.
-/

namespace Lsmkv

/-! ### What a client is calling -/

/-- The call a client is in. -/
def VersionedMap.Client.input {κ ν : Type*} : Client κ ν → Option (MapCall κ ν)
  | .idle => none
  | .called input _ | .answered input _ _ => some input
  | .numbered v _ => some (.put v.key v.value)

/-- What a step of the open store does to the calls of the clients: one begins a write, one lets go
of the log, or all stay in their calls. -/
theorem Clients.observe_cases {s : Clients} {e e' : Engine} {dir' : Dir}
    (hattended : e.Attended s.client) {action : Action}
    (hm : Engine.Moves s.world.dir e action dir' e') :
    (∃ i key value, action = .write i key value
        ∧ s.observe action e e' = Function.update s.client i (.called (.put key value) s.clock))
      ∨ (∃ i, action = .leave i
        ∧ s.observe action e e' = Function.update s.client i (s.client i).leave)
      ∨ (∀ i, action ≠ .leave i)
        ∧ ∀ i, (s.observe action e e' i).input = (s.client i).input := by
  cases hm with
  | write => exact Or.inl ⟨_, _, _, rfl, rfl⟩
  | leave => exact Or.inr (Or.inl ⟨_, rfl, rfl⟩)
  | @wal thread event wal hevent hwal =>
    refine Or.inr (Or.inr ⟨by simp, fun j => ?_⟩)
    cases thread with
    | syncer => rfl
    | client i =>
      rcases hattended.walStep hevent hwal with
        ⟨happended, -⟩ | ⟨key, value, start, v, rfl, hc, happended, -⟩
      · rw [Clients.observe_wal_nil happended]
      · rw [Clients.observe_wal_singleton hc happended]
        by_cases hji : j = i
        · subst hji
          rw [Function.update_self, hc]
          rfl
        · rw [Function.update_of_ne hji]
  | @insert i v wal hthread hwal =>
    refine Or.inr (Or.inr ⟨by simp, fun j => ?_⟩)
    obtain ⟨start, hc⟩ := hattended.numbered_of_returned hthread
    change (Function.update s.client i (s.client i).publish j).input = _
    by_cases hji : j = i
    · subst hji
      rw [Function.update_self, hc]
      rfl
    · rw [Function.update_of_ne hji]
  | _ => exact Or.inr (Or.inr ⟨by simp, fun _ => rfl⟩)

namespace Server

/-! ### The machine -/

/-- The server: the store with the calls into it, and the connections. -/
structure Serving where
  clients : Clients
  conn : ℕ → Conn

/-- What can happen next. -/
inductive ServerAction where
  | receive (conn : ℕ) (read : Bytes)
  | respond (conn : ℕ)
  /-- The figures of the store for an `INFO`, whatever they are. -/
  | inform (conn : ℕ) (figures : Figures)
  /-- A call fails before it has done anything: a `get` that cannot read a file, or a write that
  finds the error of a flush. -/
  | refuse (conn : ℕ) (err : String)
  /-- A step of the store or of a call.  A write that fails reports an error. -/
  | store (action : ClientAction) (report : Option String)

/-- Whether an action ends the session. -/
def ServerAction.endsSession : ServerAction → Bool
  | .store action _ => action.endsSession
  | _ => false

namespace Serving

variable (upper : Char → List Char)

/-- The connections when the server starts. -/
def start (clients : Clients) : Serving := ⟨clients, fun _ => .reading [] []⟩

/-- Moves a connection. -/
def goto (s : Serving) (i : ℕ) (c : Conn) : Serving :=
  { s with conn := Function.update s.conn i c }

/-- Whether a call into the store is one that a connection makes. -/
def makes (s : Serving) : ClientAction → Bool
  | .store (.write i key value) => (s.conn i).awaits = some (.put key value)
  | .store (.sync _) => false
  | .get i key => (s.conn i).awaits = some (.get key)
  | _ => true

/-- The answer to a call that returns.  A write whose mutation is in reports an error if its
rotation failed, and one whose mutation is not in reports the error of its append. -/
def answer (s : Serving) (i : ℕ) (report : Option String) : Option Answer :=
  match s.clients.client i with
  | .answered (.put _ _) output _ =>
    if s.clients.tail i = .failed then report.map .error else some (.ok output)
  | .answered (.get _) output _ => some (.ok output)
  | _ => report.map .error

/-- A connection whose call returns goes on. -/
def resume (s : Serving) (i : ℕ) (report : Option String) : Option Serving := do
  let answer ← s.answer i report
  let c ← (s.conn i).resume answer
  return s.goto i c

/-- The connections behind a step of the store or of a call. -/
def returns (s : Serving) (report : Option String) : ClientAction → Option Serving
  | .store (.leave i) =>
    match s.clients.client i with
    | .answered _ _ _ => some s
    | _ => s.resume i report
  | .ret i => s.resume i report
  | _ => some s

/-- One action. -/
def step (s : Serving) : ServerAction → Option Serving
  | .receive i read => ((s.conn i).receive upper read).map (s.goto i)
  | .respond i => (s.conn i).respond.map (s.goto i)
  | .inform i figures => ((s.conn i).inform figures).map (s.goto i)
  | .refuse i err =>
    if s.clients.client i = .idle then ((s.conn i).resume (.error err)).map (s.goto i) else none
  | .store action report =>
    if s.makes action then do
      let clients ← s.clients.step action
      let t ← s.returns report action
      return { t with clients := clients }
    else none

/-! ### Each connection on its own -/

/-- A connection makes the call its client is in, and has made the calls that returned. -/
structure Traced (s : Serving) : Prop where
  awaits : ∀ i, ∀ input ∈ (s.clients.client i).input, (s.conn i).awaits = some input
  walk : ∀ i, Walk (Conn.Silent upper) Conn.Served (.reading [] [])
    (callsOf i s.clients.returned) (s.conn i)
  moved : ∃ moved : Finset ℕ, ∀ i ∉ moved, s.conn i = .reading [] []

variable {upper} {s s' : Serving}

/-- The connection `i` moves along, and its client is in no call then. -/
theorem Traced.goto (h : s.Traced upper) {i : ℕ} {c : Conn} {clients : Clients}
    (hinput : ∀ j ≠ i, (clients.client j).input = (s.clients.client j).input)
    (hidle : (clients.client i).input = none)
    (hcalls : ∀ j ≠ i, callsOf j clients.returned = callsOf j s.clients.returned)
    (hwalk : Walk (Conn.Silent upper) Conn.Served (.reading [] []) (callsOf i clients.returned) c) :
    Traced upper { s.goto i c with clients := clients } where
  awaits j input hj := by
    change input ∈ (clients.client j).input at hj
    change (Function.update s.conn i c j).awaits = some input
    by_cases hji : j = i
    · subst hji
      rw [hidle] at hj
      cases hj
    · rw [hinput j hji] at hj
      rw [Function.update_of_ne hji]
      exact h.awaits j input hj
  walk j := by
    change Walk _ _ _ (callsOf j clients.returned) (Function.update s.conn i c j)
    by_cases hji : j = i
    · subst hji
      rw [Function.update_self]
      exact hwalk
    · rw [Function.update_of_ne hji, hcalls j hji]
      exact h.walk j
  moved := by
    obtain ⟨moved, hmoved⟩ := h.moved
    refine ⟨insert i moved, fun j hj => ?_⟩
    rw [Finset.mem_insert, not_or] at hj
    change Function.update s.conn i c j = _
    rw [Function.update_of_ne hj.1]
    exact hmoved j hj.2

/-- A connection moves by itself. -/
theorem Traced.silent (h : s.Traced upper) {i : ℕ} {c : Conn}
    (hidle : (s.clients.client i).input = none) (hstep : Conn.Silent upper (s.conn i) c) :
    (s.goto i c).Traced upper :=
  h.goto (fun _ _ => rfl) hidle (fun _ _ => rfl) ((h.walk i).andSilent hstep)

/-- A connection that awaits no call has a client that is in none. -/
theorem Traced.input_eq_none (h : s.Traced upper) {i : ℕ} (hawaits : (s.conn i).awaits = none) :
    (s.clients.client i).input = none := by
  refine Option.eq_none_iff_forall_not_mem.mpr fun input hinput => ?_
  cases hawaits.symm.trans (h.awaits i input hinput)

/-- The store moves, and a client may begin the call its connection makes. -/
theorem Traced.clients (h : s.Traced upper) {clients : Clients}
    (hreturned : clients.returned = s.clients.returned)
    (hinput : ∀ i, (clients.client i).input = (s.clients.client i).input
      ∨ (clients.client i).input = (s.conn i).awaits) :
    Traced upper { s with clients := clients } where
  awaits i input hi := by
    change input ∈ (clients.client i).input at hi
    rcases hinput i with heq | heq
    · rw [heq] at hi
      exact h.awaits i input hi
    · rw [heq] at hi
      exact hi
  walk i := by
    change Walk _ _ _ (callsOf i clients.returned) _
    rw [hreturned]
    exact h.walk i
  moved := h.moved

/-- What a client that has its answer tells its connection. -/
theorem served_of_answer {i : ℕ} {report : Option String} {answer : Answer} {c : Conn}
    {input : MapCall Bytes Bytes} {output : Option Bytes} {begun : ℕ}
    (hclient : s.clients.client i = .answered input output begun)
    (hawaits : (s.conn i).awaits = some input) (hanswer : s.answer i report = some answer)
    (hresume : (s.conn i).resume answer = some c) :
    Conn.Served (s.conn i) input output c := by
  simp only [Serving.answer, hclient] at hanswer
  cases input with
  | get key =>
    obtain rfl : Except.ok output = answer := Option.some.inj hanswer
    exact .returns hawaits hresume
  | put key value =>
    dsimp only at hanswer
    split_ifs at hanswer
    · obtain ⟨err, -, rfl⟩ := Option.map_eq_some_iff.mp hanswer
      exact .reports rfl hawaits hresume
    · obtain rfl : Except.ok output = answer := Option.some.inj hanswer
      exact .returns hawaits hresume

/-- A client that has no answer has an error to report. -/
theorem error_of_answer {i : ℕ} {report : Option String} {answer : Answer}
    (hclient : ∀ input output begun, s.clients.client i ≠ .answered input output begun)
    (hanswer : s.answer i report = some answer) : ∃ err, answer = .error err := by
  cases hc : s.clients.client i with
  | answered input output begun => exact absurd hc (hclient _ _ _)
  | _ =>
    simp only [Serving.answer, hc] at hanswer
    obtain ⟨err, -, rfl⟩ := Option.map_eq_some_iff.mp hanswer
    exact ⟨err, rfl⟩

/-- A call returns. -/
theorem Traced.ret (h : s.Traced upper) {i : ℕ} {clients : Clients} {report : Option String}
    (hreturns : s.resume i report = some s')
    (hclient : clients.client = Function.update s.clients.client i .idle)
    (hreturned : (∃ input output begun ended,
        s.clients.client i = .answered input output begun
          ∧ clients.returned = s.clients.returned ++ [⟨i, input, output, begun, ended⟩])
      ∨ (∀ input output begun, s.clients.client i ≠ .answered input output begun)
        ∧ clients.returned = s.clients.returned) :
    Traced upper { s' with clients := clients } := by
  simp only [Serving.resume, Option.bind_eq_bind, Option.bind_eq_some_iff] at hreturns
  obtain ⟨answer, hanswer, c, hresume, hs'⟩ := hreturns
  obtain rfl := Option.some.inj hs'
  have hinput : ∀ j ≠ i, (clients.client j).input = (s.clients.client j).input := fun j hj => by
    rw [hclient, Function.update_of_ne hj]
  have hidle : (clients.client i).input = none := by
    rw [hclient, Function.update_self]
    rfl
  rcases hreturned with ⟨input, output, begun, ended, hc, hreturned⟩ | ⟨hc, hreturned⟩
  · have hawaits : (s.conn i).awaits = some input := h.awaits i input (by rw [hc]; rfl)
    refine h.goto hinput hidle (fun j hj => ?_) ?_
    · rw [hreturned, callsOf_append, callsOf_cons_of_ne hj]
      exact List.append_nil _
    · have hself := callsOf_cons_self (⟨i, input, output, begun, ended⟩ : Call ℕ _ _) []
      rw [hreturned, callsOf_append, hself]
      exact (h.walk i).andCall (served_of_answer hc hawaits hanswer hresume)
  · obtain ⟨err, rfl⟩ := error_of_answer hc hanswer
    refine h.goto hinput hidle (fun j _ => by rw [hreturned]) ?_
    rw [hreturned]
    exact (h.walk i).andSilent (.refuse hresume)

/-- Only a call that returns moves its connection. -/
theorem returns_eq_some {report : Option String} {action : ClientAction}
    (hleave : ∀ i, action ≠ .store (.leave i)) (hret : ∀ i, action ≠ .ret i) :
    s.returns report action = some s := by
  unfold returns
  split
  · exact absurd rfl (hleave _)
  · exact absurd rfl (hret _)
  · rfl

/-- A write that lets go of the log without its mutation in the memtable returns its error. -/
theorem returns_leave {i : ℕ} {report : Option String}
    (hclient : ∀ input output begun, s.clients.client i ≠ .answered input output begun) :
    s.returns report (.store (.leave i)) = s.resume i report := by
  cases hc : s.clients.client i with
  | answered input output begun => exact absurd hc (hclient _ _ _)
  | _ => simp only [returns, hc]

theorem Traced.store (h : s.Traced upper) {e : Engine} (he : s.clients.world.engine = some e)
    (hattended : e.Attended s.clients.client) {action : ClientAction}
    (hends : action.endsSession = false) (hmakes : s.makes action = true) {clients : Clients}
    (hmoves : s.clients.Moves action clients) {report : Option String}
    (hreturns : s.returns report action = some s') :
    Traced upper { s' with clients := clients } := by
  cases hmoves with
  | @store action w hpermits hmoves =>
    cases hmoves with
    | kill | close | openKilled => cases hends
    | openStore hdown => cases hdown.symm.trans he
    | @engine e₁ e' dir' _ hengine hm =>
      obtain rfl : e = e₁ := Option.some.inj (he.symm.trans hengine)
      simp only [Clients.advance, hengine]
      rcases Clients.observe_cases hattended hm with ⟨i, key, value, rfl, hobserve⟩
        | ⟨i, rfl, hobserve⟩ | ⟨hleave, hsame⟩
      · obtain rfl := Option.some.inj hreturns
        refine h.clients rfl fun j => ?_
        dsimp only
        rw [hobserve]
        by_cases hji : j = i
        · subst hji
          rw [Function.update_self]
          exact Or.inr (of_decide_eq_true hmakes).symm
        · rw [Function.update_of_ne hji]
          exact Or.inl rfl
      · by_cases hanswered : ∃ input output begun,
            s.clients.client i = .answered input output begun
        · -- the mutation is in, and the connection waits for the end of its call
          obtain ⟨input, output, begun, hc⟩ := hanswered
          simp only [returns, hc] at hreturns
          obtain rfl := Option.some.inj hreturns
          refine h.clients rfl fun j => Or.inl ?_
          dsimp only
          rw [hobserve, hc, VersionedMap.Client.leave, ← hc, Function.update_eq_self]
        · push Not at hanswered
          rw [returns_leave hanswered] at hreturns
          refine h.ret hreturns ?_ (Or.inr ⟨hanswered, rfl⟩)
          rw [hobserve, VersionedMap.Client.leave_eq_idle hanswered]
      · rw [returns_eq_some (fun i hi => hleave i (ClientAction.store.inj hi)) (by simp)]
          at hreturns
        obtain rfl := Option.some.inj hreturns
        exact h.clients rfl fun j => Or.inl (hsame j)
  | @get i key e₁ hengine hreaders hclient =>
    obtain rfl := Option.some.inj hreturns
    refine h.clients rfl fun j => ?_
    change (Function.update s.clients.client i _ j).input = _
      ∨ (Function.update s.clients.client i _ j).input = _
    by_cases hji : j = i
    · subst hji
      rw [Function.update_self]
      exact Or.inr (of_decide_eq_true hmakes).symm
    · rw [Function.update_of_ne hji]
      exact Or.inl rfl
  | @read i key begun e₁ hengine hclient =>
    obtain rfl := Option.some.inj hreturns
    refine h.clients rfl fun j => Or.inl ?_
    change (Function.update s.clients.client i _ j).input = _
    by_cases hji : j = i
    · subst hji
      rw [Function.update_self, hclient]
      rfl
    · rw [Function.update_of_ne hji]
  | measure =>
    obtain rfl := Option.some.inj hreturns
    exact h.clients rfl fun _ => Or.inl rfl
  | rotate _ _ hmoves =>
    obtain rfl := Option.some.inj hreturns
    cases hmoves with
    | engine hengine hm =>
      simp only [Clients.advance, hengine]
      exact h.clients rfl fun _ => Or.inl rfl
  | ret hengine hclient =>
    exact h.ret hreturns rfl (Or.inl ⟨_, _, _, _, hclient, rfl⟩)

theorem Traced.step (h : s.Traced upper) {e : Engine} (he : s.clients.world.engine = some e)
    (hattended : e.Attended s.clients.client) {action : ServerAction}
    (hends : action.endsSession = false) (hstep : s.step upper action = some s') :
    s'.Traced upper := by
  cases action with
  | receive i read =>
    obtain ⟨c, hc, rfl⟩ := Option.map_eq_some_iff.mp hstep
    exact h.silent (h.input_eq_none (Conn.awaits_of_receive hc)) (.receive hc)
  | respond i =>
    obtain ⟨c, hc, rfl⟩ := Option.map_eq_some_iff.mp hstep
    exact h.silent (h.input_eq_none (Conn.awaits_of_respond hc)) (.respond hc)
  | inform i figures =>
    obtain ⟨c, hc, rfl⟩ := Option.map_eq_some_iff.mp hstep
    exact h.silent (h.input_eq_none (Conn.awaits_of_inform hc)) (.inform hc)
  | refuse i err =>
    rw [Serving.step] at hstep
    split_ifs at hstep with hidle
    obtain ⟨c, hc, rfl⟩ := Option.map_eq_some_iff.mp hstep
    exact h.silent (by rw [hidle]; rfl) (.refuse hc)
  | store action report =>
    rw [Serving.step] at hstep
    split_ifs at hstep with hmakes
    obtain ⟨clients, hclients, hrest⟩ := Option.bind_eq_some_iff.mp hstep
    obtain ⟨t, ht, hs'⟩ := Option.bind_eq_some_iff.mp hrest
    obtain rfl := Option.some.inj hs'
    exact h.store he hattended hends hmakes (Clients.moves_of_step hclients) ht

end Serving

/-- Whether a run of the server on a store opened in an empty directory ends in a state that passes
a test. -/
def Serving.sessionPasses (upper : Char → List Char) (config : Config) (trace : List ServerAction)
    (test : Serving → Bool) : Bool :=
  match Engine.openPlan Dir.empty config with
  | (ops, .ok e) => (run (Serving.step upper) (fun _ action => !action.endsSession)
    (.start (Clients.opened World.initial ops e)) trace).any test
  | (_, .error _) => false

theorem Serving.exists_of_sessionPasses {upper : Char → List Char} {config : Config}
    {trace : List ServerAction} {test : Serving → Bool}
    (h : sessionPasses upper config trace test = true) :
    ∃ ops e s, Engine.openPlan Dir.empty config = (ops, .ok e)
      ∧ Reachable (Serving.step upper) (fun _ action => action.endsSession = false)
        (· = .start (Clients.opened World.initial ops e)) s ∧ test s = true := by
  unfold sessionPasses at h
  split at h
  · rename_i ops e hopen
    obtain ⟨s, hs, htest⟩ := (Option.any_eq_true _ _).mp h
    exact ⟨ops, e, s, hopen,
      Reachable.of_run (fun _ _ h => by simpa using h) (Reachable.start rfl) hs, htest⟩
  · cases h

end Server

end Lsmkv
