import TradingEcosystem.OrderBook.Owners
import TradingEcosystem.MatchingEngine
import TradingEcosystem.OrderServer.Routing

/-! The order server and the matching engine with the two queues that their constructors take, each
on a thread of its own. -/
namespace TradingEcosystem
open Program Runs MEOrderBook

/-- The queue of requests is that of the server's sequencer, the queue of responses that of the
server. `engineStop` tells why the engine's thread does not go on. -/
structure Exchange where
  server : OrderServer
  engine : MatchingEngine
  engineStop : Option Fault := none

abbrev ExchangeM := EStateM Fault Exchange

namespace Exchange
variable {x x' : Exchange} {strict : Bool} {V V' : MEClientRequest → Prop} {P P' : ClientId → OrderId → Prop}
  {e e' : MatchingEngine} {r : MEClientRequest} {f : Fault} {u : Unit} {s' : OrderServer}

def fresh (strict : Bool) : Exchange where
  server := .fresh (.ofSize ME_MAX_CLIENT_UPDATES) (.ofSize ME_MAX_CLIENT_UPDATES)
  engine := .fresh strict

def withServer (x : Exchange) (s : OrderServer) : Exchange := { x with server := s }

def withRequests (x : Exchange) (q : LFQueue MEClientRequest) : Exchange :=
  x.withServer { x.server with fifoSequencer := { x.server.fifoSequencer with incomingRequests := q } }

/-- A method of the server. -/
def onServer (y : ServerM Unit) : ExchangeM Unit := focus server withServer y

/-- A method of the queue of requests. -/
def onRequests (y : EStateM Fault (LFQueue MEClientRequest) Unit) : ExchangeM Unit :=
  focus (fun x => x.server.fifoSequencer.incomingRequests) withRequests y

/-- A turn of `MatchingEngine::run`. The responses to the request are those of the model, each
of them is sent in a step of its own. -/
def processNext : ExchangeM Unit := do
  let x ← get
  match x.server.fifoSequencer.incomingRequests.getNextToRead with
  | none => return ()
  | some request =>
    match MatchingEngine.processClientRequest request x.engine with
    | .error f e => modify fun x => { x with engine := e, engineStop := some f }
    | .ok _ e => do
      modify fun x => { x with engine := e }
      onRequests LFQueue.updateReadIndex

/-- The next call of `MatchingEngine::sendClientResponse`. -/
def sendClientResponse : ExchangeM Unit := do
  let x ← get
  match x.engine.clientResponses[x.server.responded.length]? with
  | none => return ()
  | some clientResponse => onServer (OrderServer.respond clientResponse)

/-- The steps of the two threads. `sendNext` is a turn of the loop of `OrderServer::run`. -/
inductive Step where
  | sendAndRecv (socket : SocketId) (bytes : List UInt8) (rxTime : Nanos) (took : Nat)
  | recvFinishedCallBack (sorted : List RecvTimeClientRequest)
  | processNext
  | sendClientResponse
  | sendNext

def step : Step → ExchangeM Unit
  | .sendAndRecv socket bytes rxTime took => onServer (OrderServer.step (.sendAndRecv socket bytes rxTime took))
  | .recvFinishedCallBack sorted => onServer (OrderServer.recvFinishedCallBack sorted)
  | .processNext => processNext
  | .sendClientResponse => sendClientResponse
  | .sendNext => onServer OrderServer.sendNext

/-- `std::sort` sorts, and the engine takes a request when all it has to say about the one before
is sent. -/
def Ready (x : Exchange) : Step → Prop
  | .recvFinishedCallBack sorted => FIFOSequencer.Sorts x.server.fifoSequencer.pendingClientRequests sorted
  | .processNext => x.engineStop = none ∧ x.server.responded.length = x.engine.clientResponses.length
  | .sendAndRecv .. | .sendClientResponse | .sendNext => True

instance (x : Exchange) (i : Step) : Decidable (Ready x i) := by
  cases i <;> unfold Ready <;> infer_instance

/-! ## The engine's part -/

theorem names_bookCall {q : Request} (hr : P r.clientId r.orderId) (hq : MatchingEngine.bookCall r = some q) : q.Names P := by
  unfold MatchingEngine.bookCall at hq
  split_ifs at hq <;> cases hq <;> exact hr

/-- The responses of an engine whose book `i` becomes `b`. -/
theorem mem_put_clientResponses {i : Fin ME_MAX_TICKERS} {b : MEOrderBook} {m : MEClientResponse}
    (hgrows : (e.tickerOrderBook i).Grows b) (hm : m ∈ (e.put i b).clientResponses) :
    m ∈ e.clientResponses ∨ ∃ about, ⟨about, m⟩ ∈ b.clientResponses := by
  obtain ⟨l, hl, hput⟩ := MatchingEngine.put_clientResponses hgrows
  rw [hput] at hm
  rcases List.mem_append.mp hm with hm | hm
  · exact .inl hm
  · obtain ⟨report, hreport, rfl⟩ := List.mem_map.mp hm
    right
    refine ⟨report.about, ?_⟩
    rw [hl]
    exact List.mem_append_right _ hreport

/-- The books of an engine name clients with the property only, and so do its responses. -/
structure SoundEngine (P : ClientId → OrderId → Prop) (e : MatchingEngine) : Prop where
  books : ∀ i, (e.tickerOrderBook i).Sound P
  sent : ∀ m ∈ e.clientResponses, P m.clientId m.clientOrderId

theorem SoundEngine.processClientRequest (h : SoundEngine P e) (hr : P r.clientId r.orderId)
    (hp : MatchingEngine.processClientRequest r e = .ok u e') : SoundEngine P e' := by
  rcases MatchingEngine.processClientRequest_cases r e with ⟨f, herr⟩ | ⟨i, q, b, hq, -, ⟨hcall, heq⟩ | ⟨f, -, herr⟩⟩
  · rw [herr] at hp
    cases hp
  · rw [heq] at hp
    cases hp
    have hsound := (h.books i).call (names_bookCall hr hq) hcall
    have hgrows := grows_call q (e.tickerOrderBook i)
    rw [hcall, final_ok] at hgrows
    refine ⟨fun j => ?_, fun m hm => ?_⟩
    · rw [MatchingEngine.put_tickerOrderBook]
      by_cases hj : j = i
      · rw [hj, Function.update_self]
        exact hsound
      · rw [Function.update_of_ne hj]
        exact h.books j
    · rcases mem_put_clientResponses hgrows hm with hm | ⟨about, hm⟩
      · exact h.sent m hm
      · exact hsound.owned.responses _ hm
  · rw [herr] at hp
    cases hp

theorem SoundEngine.sent_of_error (h : SoundEngine P e) (hr : P r.clientId r.orderId)
    (hp : MatchingEngine.processClientRequest r e = .error f e') : ∀ m ∈ e'.clientResponses, P m.clientId m.clientOrderId := by
  rcases MatchingEngine.processClientRequest_cases r e with ⟨f', herr⟩ | ⟨i, q, b, hq, -, ⟨-, heq⟩ | ⟨f', hcall, herr⟩⟩
  · rw [herr] at hp
    cases hp
    exact h.sent
  · rw [heq] at hp
    cases hp
  · rw [herr] at hp
    cases hp
    have hgrows := grows_call q (e.tickerOrderBook i)
    rw [hcall, final_error] at hgrows
    intro m hm
    rcases mem_put_clientResponses hgrows hm with hm | ⟨about, hm⟩
    · exact h.sent m hm
    · exact (h.books i).responses_of_error (names_bookCall hr hq) hcall _ hm

theorem SoundEngine.mono (h : SoundEngine P e) (hP : ∀ c k, P c k → P' c k) : SoundEngine P' e where
  books i := (h.books i).mono hP
  sent m hm := hP _ _ (h.sent m hm)

/-! ## What is under way -/

/-- The requests on their way to the engine have the property `V`, and the ids of the resting
orders and of the responses the property `P`. A book may be left in pieces by an engine that
stopped. -/
structure Carries (V : MEClientRequest → Prop) (P : ClientId → OrderId → Prop) (x : Exchange) : Prop where
  pending : ∀ r ∈ x.server.fifoSequencer.pendingClientRequests, V r.request
  requests : x.server.fifoSequencer.incomingRequests.Filled V
  books : x.engineStop = none → SoundEngine P x.engine
  sent : ∀ m ∈ x.engine.clientResponses, P m.clientId m.clientOrderId
  responses : x.server.outgoingResponses.Filled fun m => P m.clientId m.clientOrderId

theorem carries_fresh (V : MEClientRequest → Prop) (P : ClientId → OrderId → Prop) (strict : Bool) :
    Carries V P (fresh strict) where
  pending _ h := by cases h
  requests := LFQueue.filled_ofSize (by decide)
  books _ := ⟨fun _ => sound_fresh P strict, fun _ h => by cases h⟩
  sent _ h := by cases h
  responses := LFQueue.filled_ofSize (by decide)

theorem Carries.mono (h : Carries V P x) (hV : ∀ r, V r → V' r) (hP : ∀ c k, P c k → P' c k) : Carries V' P' x where
  pending r hr := hV _ (h.pending r hr)
  requests := h.requests.mono hV
  books hstop := (h.books hstop).mono hP
  sent m hm := hP _ _ (h.sent m hm)
  responses := h.responses.mono fun _ => hP _ _

/-- Receiving brings in requests of its own. -/
theorem Carries.took (h : Carries V P x) (ht : OrderServer.Took x.server s')
    (hnew : ∀ r ∈ s'.fifoSequencer.pendingClientRequests, r ∈ x.server.fifoSequencer.pendingClientRequests ∨ V r.request) :
    Carries V P (x.withServer s') where
  pending r hr := (hnew r hr).elim (h.pending r) id
  requests := by
    dsimp only [withServer]
    rw [ht.incomingRequests]
    exact h.requests
  books := h.books
  sent := h.sent
  responses := by
    dsimp only [withServer]
    rw [ht.outgoingResponses]
    exact h.responses

theorem Carries.recvFinishedCallBack {sorted : List RecvTimeClientRequest} (h : Carries V P x)
    (hs : FIFOSequencer.Sorts x.server.fifoSequencer.pendingClientRequests sorted) :
    ∃ x', step (.recvFinishedCallBack sorted) x = .ok () x' ∧ Carries V P x' ∧
      x'.server.toAdmission = x.server.toAdmission ∧ x'.server.sockets = x.server.sockets ∧
      x'.engineStop = x.engineStop := by
  refine ⟨_, focus_of_ok (OrderServer.recvFinishedCallBack_apply hs), ⟨nofun, ?_, h.books, h.sent, h.responses⟩,
    rfl, rfl, rfl⟩
  apply h.requests.writeAll
  intro request hrequest
  obtain ⟨r, hr, rfl⟩ := List.mem_map.mp hrequest
  exact h.pending r (hs.perm.mem_iff.mp hr)

theorem Carries.sendClientResponse (h : Carries V P x) :
    ∃ x', step .sendClientResponse x = .ok () x' ∧ Carries V P x' ∧
      x'.server.toAdmission = x.server.toAdmission ∧ x'.server.sockets = x.server.sockets ∧
      x'.engineStop = x.engineStop := by
  have hget : step .sendClientResponse x = (match x.engine.clientResponses[x.server.responded.length]? with
    | none => return ()
    | some clientResponse => onServer (OrderServer.respond clientResponse) : ExchangeM Unit) x := bind_of_ok (get_apply)
  rw [hget]
  cases hnext : x.engine.clientResponses[x.server.responded.length]? with
  | none => exact ⟨x, rfl, h, rfl, rfl, rfl⟩
  | some m =>
    refine ⟨_, rfl, ⟨h.pending, h.requests, h.books, h.sent, ?_⟩, rfl, rfl, rfl⟩
    exact h.responses.write_of (h.sent m (List.mem_of_getElem? hnext))

/-- A turn of the sending loop keeps what is under way. -/
theorem Carries.turned (h : Carries V P x) (ht : OrderServer.Turned x.server s') : Carries V P (x.withServer s') where
  pending := by
    dsimp only [withServer]
    rw [ht.sequencer]
    exact h.pending
  requests := by
    dsimp only [withServer]
    rw [ht.sequencer]
    exact h.requests
  books := h.books
  sent := h.sent
  responses := ht.filled h.responses

/-- A turn of the engine for a request: it stops the engine, or it is processed and its slot is
released. -/
theorem processNext_of_next (hnext : x.server.fifoSequencer.incomingRequests.getNextToRead = some r) :
    (∃ f e, MatchingEngine.processClientRequest r x.engine = .error f e ∧
      step .processNext x = .ok () { x with engine := e, engineStop := some f }) ∨
    ∃ e q, MatchingEngine.processClientRequest r x.engine = .ok () e ∧
      final (LFQueue.updateReadIndex x.server.fifoSequencer.incomingRequests) = q ∧
      (step .processNext x = .ok () { x.withRequests q with engine := e } ∨
        step .processNext x = .error LFQueue.invalidElement { x.withRequests q with engine := e }) := by
  rw [show step .processNext = processNext from rfl, processNext, bind_of_ok (get_apply), hnext]
  dsimp only
  cases hp : MatchingEngine.processClientRequest r x.engine with
  | error f e => exact .inl ⟨f, e, rfl, rfl⟩
  | ok _ e =>
    refine .inr ⟨e, _, rfl, rfl, ?_⟩
    rcases OrderServer.updateReadIndex_cases x.server.fifoSequencer.incomingRequests with ⟨q, hq⟩ | ⟨q, hq⟩
    · rw [hq]
      exact .inl ((bind_of_ok (modify_apply _)).trans (focus_of_ok hq))
    · rw [hq]
      exact .inr ((bind_of_ok (modify_apply _)).trans (focus_of_error hq))

theorem processNext_of_none (hnext : x.server.fifoSequencer.incomingRequests.getNextToRead = none) :
    step .processNext x = .ok () x := by
  rw [show step .processNext = processNext from rfl, processNext, bind_of_ok (get_apply), hnext]
  rfl

/-- A turn of the engine keeps what is under way, whether or not it stops. -/
theorem Carries.processNext (h : Carries V P x) (hready : x.engineStop = none)
    (hP : ∀ r, x.server.fifoSequencer.incomingRequests.getNextToRead = some r → P r.clientId r.orderId) :
    Carries V P (final (step .processNext x)) := by
  cases hnext : x.server.fifoSequencer.incomingRequests.getNextToRead with
  | none =>
    rw [processNext_of_none hnext]
    exact h
  | some r =>
    have hr := hP r hnext
    rcases processNext_of_next hnext with ⟨f, e, hp, hstep⟩ | ⟨e, q, hp, hq, hstep⟩
    · rw [hstep]
      exact ⟨h.pending, h.requests, nofun, (h.books hready).sent_of_error hr hp, h.responses⟩
    · have hengine := (h.books hready).processClientRequest hr hp
      have hfilled := h.requests.updateReadIndex hnext
      rw [hq] at hfilled
      rcases hstep with hstep | hstep
      · rw [hstep]
        exact ⟨h.pending, hfilled, fun _ => hengine, hengine.sent, h.responses⟩
      · rw [hstep]
        exact ⟨h.pending, hfilled, fun _ => hengine, hengine.sent, h.responses⟩

theorem server_processNext (x : Exchange) : ∃ q, (final (step .processNext x)).server = (x.withRequests q).server := by
  cases hnext : x.server.fifoSequencer.incomingRequests.getNextToRead with
  | none =>
    rw [processNext_of_none hnext]
    exact ⟨x.server.fifoSequencer.incomingRequests, rfl⟩
  | some r =>
    rcases processNext_of_next hnext with ⟨f, e, -, hstep⟩ | ⟨e, q, -, -, hstep | hstep⟩
    · rw [hstep]
      exact ⟨x.server.fifoSequencer.incomingRequests, rfl⟩
    · rw [hstep]
      exact ⟨q, rfl⟩
    · rw [hstep]
      exact ⟨q, rfl⟩

/-! ## Every response has a socket -/

/-- The client has a socket in the tables of the server. -/
def HasSocket (x : Exchange) (c : ClientId) : Prop := x.server.HasSocket c

/-- Every client whose id is under way has a socket. -/
structure Routed (x : Exchange) : Prop where
  pending : ∀ r ∈ x.server.fifoSequencer.pendingClientRequests, x.HasSocket r.request.clientId
  requests : ∀ r ∈ x.server.fifoSequencer.incomingRequests.unread, x.HasSocket r.clientId
  resting : x.engineStop = none → ∀ i p, (x.engine.tickerOrderBook i).Resting p →
    x.HasSocket ((x.engine.tickerOrderBook i).orderPool.get p).clientId
  responses : ∀ m ∈ x.server.outgoingResponses.unread, x.HasSocket m.clientId

/-- The invariant of runs: the same of all that was ever written to the queues. -/
abbrev CarriesRouted (x : Exchange) : Prop := Carries (fun r => x.HasSocket r.clientId) (fun c _ => x.HasSocket c) x

theorem Carries.routed (h : CarriesRouted x) : Routed x where
  pending := h.pending
  requests _ hr := h.requests.unread hr
  resting hstop i p hp := by
    obtain ⟨⟨ring, hb⟩, -, howned⟩ := (h.books hstop).books i
    exact howned.orders p (hb.resting_iff.mp hp)
  responses _ hm := h.responses.unread hm

/-- Clients keep their sockets, so what was routed still is. -/
theorem Carries.kept (h : Carries (fun r => x.HasSocket r.clientId) (fun c _ => x.HasSocket c) x')
    (hkept : ∀ c, x.HasSocket c → x'.HasSocket c) : CarriesRouted x' :=
  h.mono (fun _ => hkept _) fun c _ => hkept c

theorem Carries.routable (h : CarriesRouted x) : x.server.Routable := h.responses

theorem hasSocket_congr (h : x'.server.toAdmission = x.server.toAdmission) (c : ClientId) (hc : x.HasSocket c) :
    x'.HasSocket c := by
  unfold HasSocket OrderServer.HasSocket
  rw [h]
  exact hc

/-- A turn of the sending loop finds the socket that it asks for. -/
theorem CarriesRouted.sendNext (h : CarriesRouted x) :
    (∃ s', step .sendNext x = .ok () (x.withServer s') ∧ OrderServer.Turned x.server s') ∨
      ∃ f s', step .sendNext x = .error f (x.withServer s') ∧ OrderServer.NotSent f ∧ OrderServer.Turned x.server s' := by
  rcases OrderServer.sendNext_cases h.routable with ⟨s', hs, ht⟩ | ⟨f, s', hs, hf, ht⟩
  · exact .inl ⟨s', focus_of_ok hs, ht⟩
  · exact .inr ⟨f, s', focus_of_error hs, hf, ht⟩

/-- What is under way is still so after every step, whether or not it stops. -/
theorem CarriesRouted.step (h : CarriesRouted x) (i : Step) (hready : Ready x i) :
    CarriesRouted (final (Exchange.step i x)) := by
  cases i with
  | sendAndRecv socket bytes rxTime took =>
    have ht : OrderServer.Took x.server (final (OrderServer.step (.sendAndRecv socket bytes rxTime took) x.server)) :=
      Frame.bind (OrderServer.took_sendAndRecv socket bytes rxTime took) (fun _ => .pure _) x.server
    rw [show Exchange.step (.sendAndRecv socket bytes rxTime took) x =
      focus server withServer (OrderServer.step (.sendAndRecv socket bytes rxTime took)) x from rfl, final_focus]
    obtain ⟨s', hs'⟩ : ∃ s', s' = final (OrderServer.step (.sendAndRecv socket bytes rxTime took) x.server) := ⟨_, rfl⟩
    rw [← hs'] at ht ⊢
    have hkept : Carries (fun r => s'.HasSocket r.clientId) (fun c _ => s'.HasSocket c) x :=
      h.mono (fun _ => ht.kept _) fun c _ => ht.kept c
    exact hkept.took ht ht.pending
  | recvFinishedCallBack sorted =>
    obtain ⟨x', hstep, hx', hadmission, -⟩ := h.recvFinishedCallBack hready
    rw [hstep]
    exact hx'.kept (hasSocket_congr hadmission)
  | processNext =>
    obtain ⟨q, hserver⟩ := server_processNext x
    refine (h.processNext hready.1 fun r => h.requests.of_getNextToRead).kept (hasSocket_congr ?_)
    rw [hserver]
    rfl
  | sendClientResponse =>
    obtain ⟨x', hstep, hx', hadmission, -⟩ := h.sendClientResponse
    rw [hstep]
    exact hx'.kept (hasSocket_congr hadmission)
  | sendNext =>
    have hturned : ∀ s', OrderServer.Turned x.server s' → CarriesRouted (x.withServer s') := fun s' ht =>
      (h.turned ht).kept (hasSocket_congr ht.admission)
    rcases h.sendNext with ⟨s', hs, ht⟩ | ⟨f, s', hs, -, ht⟩
    · rw [hs]
      exact hturned s' ht
    · rw [hs]
      exact hturned s' ht

/-- In every state of every run every client whose id is under way has a socket, and neither a
turn of the sending loop nor the whole loop fails the assertion on it. -/
theorem run_routed {is : List Step} (h : Observes step Ready (fresh strict) is x) :
    Routed x ∧ (∀ c x', step .sendNext x ≠ .error (OrderServer.noSocket c) x') ∧
      ∀ c s', OrderServer.drain x.server ≠ .error (OrderServer.noSocket c) s' := by
  have hcarries : CarriesRouted x := by
    apply h.always (I := fun _ x => CarriesRouted x)
    · exact carries_fresh _ _ strict
    · intro is x i hx hready
      exact CarriesRouted.step hx i hready
  refine ⟨hcarries.routed, fun c x' hstep => ?_, fun c s' hdrain => ?_⟩
  · rcases hcarries.sendNext with ⟨s', hs, -⟩ | ⟨f, s', hs, hf, -⟩
    · rw [hs] at hstep
      cases hstep
    · rw [hs] at hstep
      injection hstep with hfault
      exact hf.ne_noSocket c hfault
  · exact OrderServer.drain_routable hcarries.routable hdrain c rfl

/-- The order of a client as it arrives on its socket. -/
def orderBytes (clientId : ClientId) (side : Side) (qty : Qty) : List UInt8 :=
  OMClientRequest.codec.encode
    { seqNum := 1, meClientRequest := { type := .NEW, clientId, tickerId := 2, orderId := 5, side, price := 100, qty } }

/-- That order in the array of the sequencer. -/
def arrived (clientId : ClientId) (side : Side) (qty : Qty) (no : Nat) : RecvTimeClientRequest where
  recvTime := 0
  request := { type := .NEW, clientId, tickerId := 2, orderId := 5, side, price := 100, qty }
  no := no

/-- Client 3 sells and falls silent, client 4 buys, and both are told of the fill. -/
theorem run_routed_idleSeller : ∃ is x, Observes step Ready (fresh true) is x ∧ Routed x ∧ x.HasSocket 3 ∧
    x.server.drained.map (fun m => (m.type, m.clientId)) =
      [(.ACCEPTED, 3), (.ACCEPTED, 4), (.FILLED, 4), (.FILLED, 3)] := by
  obtain ⟨x, hrun, hsocket, hdrained⟩ : ∃ x, Reaches step Ready (fresh true)
      [.sendAndRecv 7 (orderBytes 3 .SELL 10) 0 0, .recvFinishedCallBack [arrived 3 .SELL 10 0], .processNext,
        .sendClientResponse, .sendNext, .sendAndRecv 8 (orderBytes 4 .BUY 5) 0 0,
        .recvFinishedCallBack [arrived 4 .BUY 5 1], .processNext, .sendClientResponse, .sendNext, .sendClientResponse,
        .sendClientResponse, .sendNext, .sendNext] x ∧
      x.server.socketOf 3 = some 7 ∧ x.server.drained.map (fun m => (m.type, m.clientId)) =
        [(.ACCEPTED, 3), (.ACCEPTED, 4), (.FILLED, 4), (.FILLED, 3)] :=
    exists_of_guarded (by decide +kernel)
  exact ⟨_, x, .done hrun, (run_routed (.done hrun)).1, ⟨7, hsocket⟩, hdrained⟩

end Exchange
end TradingEcosystem
