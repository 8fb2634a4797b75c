import TradingEcosystem.Exchange.ExactlyOnce
import TradingEcosystem.OrderServer.Connections

/-! The whole of it: the thread of the order server in its loop, with the connections of the TCP server, and the thread
of the engine. Seen from one side it is a server, seen from the other an exchange. -/
namespace TradingEcosystem
open Program Runs

namespace Exchange
open OrderServer MatchingEngine
variable {x x' : Exchange} {strict : Bool} {done waiting : List MEClientRequest} {unsent unread : List MEClientResponse}
  {is : List Step} {i : Step} {u : Unit} {r : MEClientRequest} {m : MEClientResponse}

/-- Both queues have the size that they were made with. -/
structure Sized (x : Exchange) : Prop where
  requests : x.server.fifoSequencer.incomingRequests.size = ME_MAX_CLIENT_UPDATES
  responses : x.server.outgoingResponses.size = ME_MAX_CLIENT_UPDATES

theorem Sized.step (h : Sized x) (hready : Ready x i) (hcarries : CarriesRouted x) (hr : Exchange.step i x = .ok u x') :
    Sized x' := by
  cases i with
  | sendAndRecv socket bytes rxTime took =>
    obtain ⟨s', hs, rfl⟩ := focus_eq_ok.mp hr
    have htook : Took x.server s' := Frame.of_ok (Frame.bind (took_sendAndRecv socket bytes rxTime took) fun _ => .pure _) hs
    refine ⟨?_, ?_⟩
    · exact (congrArg LFQueue.size htook.incomingRequests).trans h.requests
    · exact (congrArg LFQueue.size htook.outgoingResponses).trans h.responses
  | recvFinishedCallBack sorted =>
    have hstep : Exchange.step (.recvFinishedCallBack sorted) x = _ := focus_of_ok (OrderServer.recvFinishedCallBack_apply hready)
    rw [hstep] at hr
    cases hr
    exact ⟨(LFQueue.writeAll_size _ _).trans h.requests, h.responses⟩
  | processNext =>
    cases hnext : x.server.fifoSequencer.incomingRequests.getNextToRead with
    | none =>
      rw [processNext_of_none hnext] at hr
      cases hr
      exact h
    | some r =>
      rcases processNext_of_next hnext with ⟨f, e, -, hstep⟩ | ⟨e, q, -, hq, hstep | hstep⟩
      · rw [hstep] at hr
        cases hr
        exact ⟨h.requests, h.responses⟩
      · rw [hstep] at hr
        cases hr
        have hsize := LFQueue.updateReadIndex_size x.server.fifoSequencer.incomingRequests
        rw [hq] at hsize
        exact ⟨hsize.trans h.requests, h.responses⟩
      · rw [hstep] at hr
        cases hr
  | sendClientResponse =>
    rw [show Exchange.step .sendClientResponse x = Exchange.sendClientResponse x from rfl, Exchange.sendClientResponse,
      bind_of_ok get_apply] at hr
    cases hnext : x.engine.clientResponses[x.server.responded.length]? with
    | none =>
      rw [hnext] at hr
      cases hr
      exact h
    | some m =>
      rw [hnext] at hr
      cases hr
      exact ⟨h.requests, h.responses⟩
  | sendNext =>
    rcases hcarries.sendNext with ⟨s', hs, ht⟩ | ⟨f, s', hs, -, -⟩
    · rw [hs] at hr
      cases hr
      refine ⟨?_, ?_⟩
      · rw [withServer, ht.sequencer]
        exact h.requests
      · rcases ht.outgoingResponses with hq | ⟨-, hq⟩
        · exact (congrArg LFQueue.size hq).trans h.responses
        · exact (congrArg LFQueue.size hq).trans ((LFQueue.updateReadIndex_size _).trans h.responses)
    · rw [hs] at hr
      cases hr

/-- A state of a run in which neither queue gets overfull, and where the requests and responses are in it. -/
structure Stage (strict : Bool) (x : Exchange) (done waiting : List MEClientRequest) (unsent unread : List MEClientResponse) :
    Prop where
  flow : Flow strict x done waiting unsent unread
  told : ∃ ms, Told x.server ms
  carries : CarriesRouted x
  sized : Sized x

theorem Stage.next {done' waiting' : List MEClientRequest} {unsent' unread' : List MEClientResponse}
    (h : Stage strict x done waiting unsent unread) (hready : Ready x i) (hr : Exchange.step i x = .ok u x')
    (hflow : Flow strict x' done' waiting' unsent' unread') (ht : ∃ ms, Told x'.server ms) :
    Stage strict x' done' waiting' unsent' unread' := by
  have hcarries := h.carries.step i hready
  rw [hr, final_ok] at hcarries
  exact ⟨hflow, ht, hcarries, h.sized.step hready h.carries hr⟩

theorem stage_run (h : Reaches step (fun x i => Ready x i ∧ Fits x i) (fresh strict) is x) :
    ∃ done waiting unsent unread, Stage strict x done waiting unsent unread := by
  induction h with
  | start =>
    exact ⟨[], [], [], [], flow_fresh strict, ⟨[], told_fresh strict⟩, carries_fresh _ _ strict, rfl, rfl⟩
  | call run ok returns ih =>
    obtain ⟨done, waiting, unsent, unread, hstage⟩ := ih
    obtain ⟨ms, ht⟩ := hstage.told
    obtain ⟨done', waiting', unsent', unread', ms', hflow, ht'⟩ := hstage.flow.step ht ok.1 ok.2 returns
    exact ⟨done', waiting', unsent', unread', hstage.next ok.1 returns hflow ⟨ms', ht'⟩⟩

end Exchange

namespace Serving
open OrderServer TCPServer
variable {s s' : Serving} {o o' : OrderServer} {listener k : SocketId} {accepted : List Accepted} {a : Accepted} {is : List Step}
  {i : Step} {u : Unit} {c : Call} {calls : List Call} {recv : Bool} {sort : List RecvTimeClientRequest → List RecvTimeClientRequest}
  {receives sends : SocketId → Input} {clientRequests : LFQueue MEClientRequest} {clientResponses : LFQueue MEClientResponse}

/-! ## Sockets that are not open -/

/-- A socket is used only when it is one to receive from. -/
def Unused (s : Serving) : Prop := ∀ k, k ∉ s.tcpServer.receiveSockets → s.server.sockets k = {}

theorem accept_unused (hnew : s.server.sockets a.socket = {}) (hr : accept a s = .ok u s') :
    s'.server = s.server ∧ s.tcpServer.receiveSockets ⊆ s'.tcpServer.receiveSockets := by
  have hput : putSocket a.socket s.server {} = s.server := by
    rw [putSocket, ← hnew, Function.update_eq_self]
  unfold accept at hr
  split_ifs at hr
  · cases hr
  · cases hr
  · cases hr
    exact ⟨hput, subset_pushNew _ _⟩

theorem acceptAll_unused (hnew : ∀ a ∈ accepted, s.server.sockets a.socket = {})
    (hr : (forM accepted accept : ServingM Unit) s = .ok u s') :
    s'.server = s.server ∧ s.tcpServer.receiveSockets ⊆ s'.tcpServer.receiveSockets := by
  induction accepted generalizing s with
  | nil =>
    cases hr
    exact ⟨rfl, List.Subset.refl _⟩
  | cons a accepted ih =>
    rw [List.forM_cons] at hr
    obtain ⟨_, t, ha, hr⟩ := bind_eq_ok.mp hr
    obtain ⟨hserver, hwide⟩ := accept_unused (hnew a List.mem_cons_self) ha
    obtain ⟨hserver', hwide'⟩ := ih (fun b hb => by rw [hserver]; exact hnew b (List.mem_cons_of_mem _ hb)) hr
    exact ⟨hserver'.trans hserver, List.Subset.trans hwide hwide'⟩

/-- Taking connections leaves the order server as it was. -/
theorem Unused.poll {events : List Event} (h : Unused s) (hg : Serves s (.poll events accepted))
    (hr : step (.poll events accepted) s = .ok u s') :
    s'.server = s.server ∧ s.tcpServer.receiveSockets ⊆ s'.tcpServer.receiveSockets := by
  obtain ⟨_, s₁, hpoll, hr⟩ := bind_eq_ok.mp hr
  cases hr
  obtain ⟨t, new, hlists, hpoll⟩ := poll_ok hpoll
  have hwide := subset_handleAll events s.tcpServer
  rw [hlists] at hwide
  cases new with
  | false =>
    cases hpoll
    exact ⟨rfl, hwide⟩
  | true =>
    have hnew : ∀ a ∈ accepted, s.server.sockets a.socket = {} := fun a ha => h _ (hg.2.2.2.2 a ha).2
    obtain ⟨hserver, hwide'⟩ := acceptAll_unused (s := { s with tcpServer := t }) hnew hpoll
    exact ⟨hserver, List.Subset.trans hwide hwide'⟩

/-- The other sockets have no part in a call. -/
theorem fixes_socketCall (hk : k ≠ c.socket) : Frame (Fixes fun o : OrderServer => o.sockets k) (socketCall listener c) := by
  have hput : ∀ x : SocketM Unit, Frame (Fixes fun o : OrderServer => o.sockets k) (onSocket c.socket x) := fun x =>
    .focus fun o => putSocket_of_ne hk o _
  have hexamine : ∀ rxTime request, Frame (Fixes fun o : OrderServer => o.sockets k) (examine c.socket rxTime request) :=
    fun rxTime request => (frame_examine c.socket rxTime request).mono fun _ _ h => congrFun h.sockets k
  refine .bind (.ite (.pure _) (.bind (hput _) fun _ => .ite (.pure _) ?_)) fun _ => .bind (hput _) fun _ => .pure _
  exact frame_recvCallback hexamine (fun i => hput _) c.rxTime

theorem fixes_callAll (hk : ∀ c ∈ calls, k ≠ c.socket) :
    Frame (Fixes fun o : OrderServer => o.sockets k) (callAll (socketCall listener) calls) := by
  induction calls with
  | nil => exact .pure _
  | cons c calls ih =>
    refine .bind (fixes_socketCall (hk c List.mem_cons_self)) fun _ => .bind ?_ fun _ => .pure _
    exact ih fun c' hc => hk c' (List.mem_cons_of_mem _ hc)

/-- The parts of a `sendAndRecv` of the TCP server: the calls for the sockets, and the publishing if bytes were read. -/
theorem sendAndRecv_ok (hidle : Idle s) (hsort : ∀ pending, FIFOSequencer.Sorts pending (sort pending))
    (hr : Serving.sendAndRecv sort receives sends s = .ok u s') : ∃ recv o,
    callAll (socketCall s.tcpServer.listenerSocket) (TCPServer.calls receives s.tcpServer.receiveSockets) s.server = .ok recv o ∧
      s'.server = (if recv then
        { o with fifoSequencer := o.fifoSequencer.sequenced (sort o.fifoSequencer.pendingClientRequests) } else o) ∧
      s'.tcpServer = s.tcpServer := by
  rw [Serving.sendAndRecv, bind_of_ok get_apply] at hr
  obtain ⟨_, s₁, hserver, hr⟩ := bind_eq_ok.mp hr
  cases hr
  obtain ⟨o', hround, rfl⟩ := focus_eq_ok.mp hserver
  clear hserver
  obtain ⟨recv, o, h₁, hround⟩ := bind_eq_ok.mp hround
  obtain ⟨_, o₂, h₂, hround⟩ := bind_eq_ok.mp hround
  -- the second loop has no socket to go through
  rw [hidle.sendSockets] at hround
  cases hround
  refine ⟨recv, o, h₁, ?_, rfl⟩
  cases recv with
  | false =>
    cases h₂
    rfl
  | true =>
    rw [if_pos rfl, bind_of_ok get_apply, recvFinishedCallBack_apply (hsort o.fifoSequencer.pendingClientRequests)] at h₂
    cases h₂
    rfl

theorem count_keeps (r : MEClientResponse) (s : Serving) : (count r s).server = s.server ∧ (count r s).phase = s.phase := by
  unfold count
  split <;> exact ⟨rfl, rfl⟩

theorem Unused.step (h : Unused s) (hidle : Idle s) (hmetered : Metered s) (hg : Serves s i) (hr : step i s = .ok u s') :
    Unused s' := by
  cases i with
  | poll events accepted =>
    obtain ⟨hserver, hwide⟩ := h.poll hg hr
    intro k hk
    rw [hserver]
    exact h k fun hmem => hk (hwide hmem)
  | sendAndRecv sort receives sends =>
    obtain ⟨_, s₁, hround, hr⟩ := bind_eq_ok.mp hr
    cases hr
    obtain ⟨recv, o, hcalls, hserver, htcp⟩ := sendAndRecv_ok hidle hg.2 hround
    intro k hk
    change k ∉ s₁.tcpServer.receiveSockets at hk
    rw [htcp] at hk
    have hother : ∀ c ∈ TCPServer.calls receives s.tcpServer.receiveSockets, k ≠ c.socket := fun c hc he => by
      obtain ⟨k', hk', rfl⟩ := List.mem_map.mp hc
      exact hk (he ▸ hk')
    have hsame : o.sockets k = s.server.sockets k := (fixes_callAll hother).of_ok hcalls
    change s₁.server.sockets k = {}
    rw [hserver]
    split_ifs
    · exact hsame.trans (h k hk)
    · exact hsame.trans (h k hk)
  | sendNext =>
    have htcp := tcpServer_sendNext.of_ok hr
    intro k hk
    rw [htcp] at hk
    rw [Serving.step, Serving.sendNext, bind_of_ok get_apply] at hr
    cases hnext : s.server.nextResponse with
    | none =>
      rw [hnext] at hr
      cases hr
      exact h k hk
    | some r =>
      rw [hnext] at hr
      obtain ⟨_, s₁, hsend, hr⟩ := bind_eq_ok.mp hr
      cases hr
      obtain ⟨o', ho, rfl⟩ := focus_eq_ok.mp hsend
      obtain ⟨k', hk', -, -, -, hothers⟩ := sendResponse_advances ho
      obtain ⟨_, hbound⟩ := Admission.socketOf_eq_some.mp hk'
      have hne : k ≠ k' := fun he => hk (he ▸ hmetered.bound _ k' hbound)
      rw [(count_keeps r _).1]
      exact (hothers k hne).trans (h k hk)
  | respond clientResponse =>
    cases hr
    exact h
  | takeRequest =>
    obtain ⟨o', ho, rfl⟩ := focus_eq_ok.mp hr
    obtain ⟨q, hq, rfl⟩ := focus_eq_ok.mp ho
    exact h

theorem unused_run (h : Reaches step Serves (fresh listener clientRequests clientResponses) is s) : Unused s := by
  have hall := h.invariant (I := fun _ s => Idle s ∧ Metered s ∧ Unused s) ⟨⟨rfl, rfl⟩, metered_fresh _ _ _, fun _ _ => rfl⟩
    fun _ _ _ _ hs hg hr => ⟨hs.1.step hg hr, hs.2.1.step hs.1 hg hr, hs.2.2.step hs.1 hs.2.1 hg hr⟩
  exact hall.2.2

end Serving

/-- The exchange with its connections. -/
structure Live where
  serving : Serving
  engine : MatchingEngine
  engineStop : Option Fault := none

abbrev LiveM := EStateM Fault Live

namespace Live
open OrderServer TCPServer
variable {w w' : Live} {x : Exchange} {o : OrderServer} {strict recv : Bool} {listener : SocketId} {ks : List Serving.Step}
  {js : List Exchange.Step} {r : MEClientRequest} {c : Call} {calls : List Call} {u : Unit} {sort : List RecvTimeClientRequest → List RecvTimeClientRequest}
  {receives sends : SocketId → Input}

def fresh (listener : SocketId) (strict : Bool) : Live where
  serving := .fresh listener (.ofSize ME_MAX_CLIENT_UPDATES) (.ofSize ME_MAX_CLIENT_UPDATES)
  engine := .fresh strict

def withServing (w : Live) (s : Serving) : Live := { w with serving := s }

/-- What it is without its connections. -/
def exchange (w : Live) : Exchange := { server := w.serving.server, engine := w.engine, engineStop := w.engineStop }

def withExchange (w : Live) (x : Exchange) : Live :=
  { serving := w.serving.withServer x.server, engine := x.engine, engineStop := x.engineStop }

/-- The first three steps are those of the loop of `OrderServer::run`, the others are those of the engine. -/
inductive Step where
  | poll (events : List Event) (accepted : List Accepted)
  | sendAndRecv (sort : List RecvTimeClientRequest → List RecvTimeClientRequest) (receives sends : SocketId → Input)
  | sendNext
  | processNext
  | sendClientResponse

/-- A step of the server's thread. -/
def onServing (i : Serving.Step) : LiveM Unit := focus serving withServing (Serving.step i)

/-- A step of the engine's thread. -/
def onExchange (i : Exchange.Step) : LiveM Unit := focus exchange withExchange (Exchange.step i)

def step : Step → LiveM Unit
  | .poll events accepted => onServing (.poll events accepted)
  | .sendAndRecv sort receives sends => onServing (.sendAndRecv sort receives sends)
  | .sendNext => onServing .sendNext
  | .processNext => onExchange .processNext
  | .sendClientResponse => onExchange .sendClientResponse

/-- What the calls for the receive sockets come to. -/
def called (w : Live) (receives : SocketId → Input) : EStateM.Result Fault OrderServer Bool :=
  callAll (Serving.socketCall w.serving.tcpServer.listenerSocket)
    (TCPServer.calls receives w.serving.tcpServer.receiveSockets) w.serving.server

/-- If bytes were read, there is room for what is published then. -/
def RoomToPublish : EStateM.Result Fault OrderServer Bool → Prop
  | .ok true o => o.fifoSequencer.incomingRequests.unread.length + o.fifoSequencer.pendingClientRequests.length <
      o.fifoSequencer.incomingRequests.size
  | .ok false _ | .error _ _ => True

instance : ∀ r, Decidable (RoomToPublish r)
  | .ok true _ => Nat.decLt ..
  | .ok false _ | .error _ _ => .isTrue trivial

/-- The server's steps come in the order of its loop, the engine takes a request when all it has to say about the one before is
sent, and neither queue gets overfull. A listening socket has no bytes to read. -/
def Proceeds (w : Live) : Step → Prop
  | .poll events accepted => w.serving.Serves (.poll events accepted)
  | .sendAndRecv sort receives sends => w.serving.Serves (.sendAndRecv sort receives sends) ∧
      (receives w.serving.tcpServer.listenerSocket).bytes = [] ∧ RoomToPublish (w.called receives)
  | .sendNext => w.serving.Serves .sendNext
  | .processNext => w.exchange.Ready .processNext
  | .sendClientResponse => w.exchange.Fits .sendClientResponse

/-! ## The steps as each side sees them -/

/-- What a step is for the server: the engine takes a request that it processed, and writes a response that is there. -/
def servingMoves (w : Live) : Step → List Serving.Step
  | .poll events accepted => [.poll events accepted]
  | .sendAndRecv sort receives sends => [.sendAndRecv sort receives sends]
  | .sendNext => [.sendNext]
  | .processNext =>
    match w.serving.server.fifoSequencer.incomingRequests.getNextToRead with
    | none => []
    | some r =>
      match MatchingEngine.processClientRequest r w.engine with
      | .ok _ _ => [.takeRequest]
      | .error _ _ => []
  | .sendClientResponse => (w.engine.clientResponses[w.serving.server.responded.length]?).toList.map .respond

/-- A call for a socket. -/
def receiveMove (c : Call) : Exchange.Step := .sendAndRecv c.socket c.bytes c.rxTime c.took

/-- The batch is published if bytes were read. -/
def publishMoves (sort : List RecvTimeClientRequest → List RecvTimeClientRequest) :
    EStateM.Result Fault OrderServer Bool → List Exchange.Step
  | .ok true o => [.recvFinishedCallBack (sort o.fifoSequencer.pendingClientRequests)]
  | .ok false _ | .error _ _ => []

/-- What a step is for the exchange without its connections: it does not see `poll`, and a `sendAndRecv` is a step for each
socket and one for the batch. -/
def exchangeMoves (w : Live) : Step → List Exchange.Step
  | .poll _ _ => []
  | .sendAndRecv sort receives _ =>
    (TCPServer.calls receives w.serving.tcpServer.receiveSockets).map receiveMove ++ publishMoves sort (w.called receives)
  | .sendNext => [.sendNext]
  | .processNext => [.processNext]
  | .sendClientResponse => [.sendClientResponse]

/-! ## The calls of a round are moves of the exchange -/

/-- The listener has no callback, and needs none. -/
theorem socketCall_eq (h : c.socket = listener → c.bytes = []) : Serving.socketCall listener c = OrderServer.call c := by
  unfold Serving.socketCall OrderServer.call OrderServer.sendAndRecv TCPSocket.sendAndRecv TCPSocket.receive
  by_cases hc : c.bytes = []
  · rw [if_pos hc, if_pos hc]
  · rw [if_neg fun he => hc (h he)]

theorem calls_move (hl : ∀ c ∈ calls, c.socket = listener → c.bytes = [])
    (h : callAll (Serving.socketCall listener) calls x.server = .ok recv o) :
    Reaches Exchange.step (fun x i => x.Ready i ∧ x.Fits i) x (calls.map receiveMove) (x.withServer o) := by
  induction calls generalizing x recv with
  | nil =>
    cases h
    exact .start
  | cons c calls ih =>
    obtain ⟨first, o₁, h₁, h⟩ := bind_eq_ok.mp h
    obtain ⟨rest, o₂, h₂, h⟩ := bind_eq_ok.mp h
    cases h
    rw [socketCall_eq (hl c List.mem_cons_self)] at h₁
    have hmove : Exchange.step (receiveMove c) x = .ok () (x.withServer o₁) := focus_of_ok (bind_of_ok h₁)
    have hrun := ih (x := x.withServer o₁) (fun c' hc => hl c' (List.mem_cons_of_mem _ hc)) h₂
    have hready : x.Ready (receiveMove c) := trivial
    exact hrun.append (.call .start ⟨hready, trivial⟩ hmove)

/-! ## Both sides -/

/-- What has come about is the run `ks` of the server with its connections, and the run `js` of the exchange without them. -/
structure Views (listener : SocketId) (strict : Bool) (ks : List Serving.Step) (js : List Exchange.Step) (w : Live) : Prop where
  serving : Reaches Serving.step Serving.Serves
    (.fresh listener (.ofSize ME_MAX_CLIENT_UPDATES) (.ofSize ME_MAX_CLIENT_UPDATES)) ks w.serving
  exchange : Reaches Exchange.step (fun x i => x.Ready i ∧ x.Fits i) (.fresh strict) js w.exchange

theorem Views.poll {events : List Event} {accepted : List Accepted} (h : Views listener strict ks js w)
    (hg : w.Proceeds (.poll events accepted)) (hr : step (.poll events accepted) w = .ok u w') :
    Views listener strict (ks ++ w.servingMoves (.poll events accepted)) (js ++ w.exchangeMoves (.poll events accepted)) w' := by
  obtain ⟨s', hs, rfl⟩ := focus_eq_ok.mp hr
  have hserves : w.serving.Serves (.poll events accepted) := hg
  obtain ⟨hserver, -⟩ := (Serving.unused_run h.serving).poll hserves hs
  refine ⟨.call h.serving hserves hs, ?_⟩
  rw [exchangeMoves, List.append_nil, Live.exchange, withServing, hserver]
  exact h.exchange

theorem Views.sendAndRecv (h : Views listener strict ks js w) (hg : w.Proceeds (.sendAndRecv sort receives sends))
    (hr : step (.sendAndRecv sort receives sends) w = .ok u w') :
    Views listener strict (ks ++ w.servingMoves (.sendAndRecv sort receives sends))
      (js ++ w.exchangeMoves (.sendAndRecv sort receives sends)) w' := by
  obtain ⟨hserves, hlistener, hroom⟩ := hg
  obtain ⟨s', hs, rfl⟩ := focus_eq_ok.mp hr
  refine ⟨.call h.serving hserves hs, ?_⟩
  obtain ⟨_, s₁, hround, hs⟩ := bind_eq_ok.mp hs
  cases hs
  obtain ⟨recv, o, hcalls, hserver, -⟩ := Serving.sendAndRecv_ok (Serving.idle_run h.serving) hserves.2 hround
  have hcalled : w.called receives = .ok recv o := hcalls
  have hquiet : ∀ c ∈ TCPServer.calls receives w.serving.tcpServer.receiveSockets,
      c.socket = w.serving.tcpServer.listenerSocket → c.bytes = [] := fun c hc he => by
    obtain ⟨k, -, rfl⟩ := List.mem_map.mp hc
    rw [← hlistener, ← he]
  have hrun := (calls_move (x := w.exchange) hquiet hcalls).append h.exchange
  rw [exchangeMoves, hcalled, ← List.append_assoc]
  cases recv with
  | false =>
    have hsame : s₁.server = o := hserver
    rw [publishMoves, List.append_nil, Live.exchange, withServing, hsame]
    exact hrun
  | true =>
    rw [hcalled] at hroom
    have hfits : (w.exchange.withServer o).Fits (.recvFinishedCallBack (sort o.fifoSequencer.pendingClientRequests)) := hroom
    have hpublish : Exchange.step (.recvFinishedCallBack (sort o.fifoSequencer.pendingClientRequests)) (w.exchange.withServer o) = _ :=
      focus_of_ok (OrderServer.recvFinishedCallBack_apply (hserves.2 _))
    have hsame : s₁.server = { o with fifoSequencer := o.fifoSequencer.sequenced (sort o.fifoSequencer.pendingClientRequests) } :=
      hserver
    have hready : (w.exchange.withServer o).Ready (.recvFinishedCallBack (sort o.fifoSequencer.pendingClientRequests)) :=
      hserves.2 _
    change Reaches Exchange.step _ _ _ (w.exchange.withServer s₁.server)
    rw [hsame]
    exact .call hrun ⟨hready, hfits⟩ hpublish

/-- A turn of the inner loop, seen without the connections. -/
theorem sendNext_ok {s s' : Serving} (h : Serving.sendNext s = .ok u s') : OrderServer.sendNext s.server = .ok () s'.server := by
  rw [Serving.sendNext, bind_of_ok get_apply] at h
  rw [OrderServer.sendNext, bind_of_ok get_apply]
  cases hnext : s.server.nextResponse with
  | none =>
    rw [hnext] at h
    cases h
    rfl
  | some r =>
    rw [hnext] at h
    obtain ⟨_, s₁, hsend, h⟩ := bind_eq_ok.mp h
    cases h
    obtain ⟨o', ho, rfl⟩ := focus_eq_ok.mp hsend
    rw [(Serving.count_keeps r _).1]
    exact ho

theorem Views.sendNext (h : Views listener strict ks js w) (hg : w.Proceeds .sendNext) (hr : step .sendNext w = .ok u w') :
    Views listener strict (ks ++ w.servingMoves .sendNext) (js ++ w.exchangeMoves .sendNext) w' := by
  obtain ⟨s', hs, rfl⟩ := focus_eq_ok.mp hr
  have hmove : Exchange.step .sendNext w.exchange = .ok () (w.exchange.withServer s'.server) := focus_of_ok (sendNext_ok hs)
  have hserves : w.serving.Serves .sendNext := hg
  have hready : w.exchange.Ready .sendNext := trivial
  exact ⟨.call h.serving hserves hs, .call h.exchange ⟨hready, trivial⟩ hmove⟩

theorem servingMoves_of_none (h : w.serving.server.fifoSequencer.incomingRequests.getNextToRead = none) :
    w.servingMoves .processNext = [] := by rw [servingMoves, h]

theorem servingMoves_of_ok {e : MatchingEngine} (h : w.serving.server.fifoSequencer.incomingRequests.getNextToRead = some r)
    (hp : MatchingEngine.processClientRequest r w.engine = .ok u e) : w.servingMoves .processNext = [.takeRequest] := by
  simp only [servingMoves, h, hp]

theorem servingMoves_of_error {f : Fault} {e : MatchingEngine}
    (h : w.serving.server.fifoSequencer.incomingRequests.getNextToRead = some r)
    (hp : MatchingEngine.processClientRequest r w.engine = .error f e) : w.servingMoves .processNext = [] := by
  simp only [servingMoves, h, hp]

/-- The engine's turn takes a request from the server's point of view, or nothing. -/
theorem Views.processNext (h : Views listener strict ks js w) (hg : w.Proceeds .processNext)
    (hr : step .processNext w = .ok u w') :
    Views listener strict (ks ++ w.servingMoves .processNext) (js ++ w.exchangeMoves .processNext) w' := by
  obtain ⟨x', hx, rfl⟩ := focus_eq_ok.mp hr
  have hready : w.exchange.Ready .processNext := hg
  refine ⟨?_, .call h.exchange ⟨hready, trivial⟩ hx⟩
  obtain ⟨done, waiting, unsent, unread, hstage⟩ := Exchange.stage_run h.exchange
  have hqueue : w.serving.server.fifoSequencer.incomingRequests.Holds done.length waiting := hstage.flow.requests
  have hread := hqueue.getNextToRead_eq
  cases waiting with
  | nil =>
    rw [Exchange.processNext_of_none hread] at hx
    cases hx
    rw [servingMoves_of_none hread, List.append_nil]
    exact h.serving
  | cons r waiting =>
    obtain ⟨q, hq, -⟩ := hqueue.updateReadIndex_eq
    rcases Exchange.processNext_of_next (x := w.exchange) hread with ⟨f, e, hp, hstep⟩ | ⟨e, q', hp, hq', hstep | hstep⟩
    · rw [hstep] at hx
      cases hx
      rw [servingMoves_of_error hread hp, List.append_nil]
      exact h.serving
    · rw [hstep] at hx
      cases hx
      obtain rfl : q = q' := by
        rw [← hq']
        exact (congrArg final hq).symm
      have hserves : w.serving.Serves .takeRequest := by
        rw [Serving.Serves, hread]
        exact Option.some_ne_none r
      have htake : Serving.step .takeRequest w.serving = .ok () (w.serving.withServer (w.exchange.withRequests q).server) :=
        focus_of_ok (focus_of_ok (focus_of_ok hq))
      rw [servingMoves_of_ok hread hp]
      exact .call h.serving hserves htake
    · rw [hstep] at hx
      cases hx

theorem Views.sendClientResponse (h : Views listener strict ks js w) (hg : w.Proceeds .sendClientResponse)
    (hr : step .sendClientResponse w = .ok u w') :
    Views listener strict (ks ++ w.servingMoves .sendClientResponse) (js ++ w.exchangeMoves .sendClientResponse) w' := by
  obtain ⟨x', hx, rfl⟩ := focus_eq_ok.mp hr
  have hready : w.exchange.Ready .sendClientResponse := trivial
  have hfits : w.exchange.Fits .sendClientResponse := hg
  refine ⟨?_, .call h.exchange ⟨hready, hfits⟩ hx⟩
  obtain ⟨done, waiting, unsent, unread, hstage⟩ := Exchange.stage_run h.exchange
  have hqueue : w.serving.server.outgoingResponses.Holds w.serving.server.drained.length unread := hstage.flow.responses.queue
  have hroom : w.serving.server.outgoingResponses.unread.length + 1 < w.serving.server.outgoingResponses.size := hg
  rw [show Exchange.step .sendClientResponse w.exchange = Exchange.sendClientResponse w.exchange from rfl,
    Exchange.sendClientResponse, bind_of_ok get_apply] at hx
  change Reaches Serving.step _ _
    (ks ++ (w.exchange.engine.clientResponses[w.exchange.server.responded.length]?).toList.map .respond) _
  cases hnext : w.exchange.engine.clientResponses[w.exchange.server.responded.length]? with
  | none =>
    rw [hnext] at hx
    cases hx
    rw [Option.toList_none, List.map_nil, List.append_nil]
    exact h.serving
  | some m =>
    rw [hnext] at hx
    cases hx
    have hserves : w.serving.Serves (.respond m) := by
      have hnum : w.serving.server.outgoingResponses.numElements.toNat = w.serving.server.outgoingResponses.unread.length := by
        rw [hqueue.unread_eq]
        exact hqueue.numElements_toNat
      rw [Serving.Serves, hnum]
      exact hroom
    exact .call h.serving hserves rfl

theorem Views.step {i : Step} (h : Views listener strict ks js w) (hg : w.Proceeds i) (hr : step i w = .ok u w') :
    Views listener strict (ks ++ w.servingMoves i) (js ++ w.exchangeMoves i) w' := by
  cases i with
  | poll events accepted => exact h.poll hg hr
  | sendAndRecv sort receives sends => exact h.sendAndRecv hg hr
  | sendNext => exact h.sendNext hg hr
  | processNext => exact h.processNext hg hr
  | sendClientResponse => exact h.sendClientResponse hg hr

theorem views_run {is : List Step} (h : Reaches step Proceeds (fresh listener strict) is w) : Views listener strict
    (trace step servingMoves (fresh listener strict) is) (trace step exchangeMoves (fresh listener strict) is) w := by
  induction h with
  | start => exact ⟨.start, .start⟩
  | call run ok returns ih =>
    rw [run.trace_concat, run.trace_concat]
    exact ih.step ok returns

/-- Whatever the two threads do in between, every run of the exchange with its connections is, step by step, a run of the
server with its connections and a run of the exchange without them: what holds for the runs of either holds for the whole. -/
theorem run_views {is : List Step} (h : Reaches step Proceeds (fresh listener strict) is w) :
    Reaches Serving.step Serving.Serves (.fresh listener (.ofSize ME_MAX_CLIENT_UPDATES) (.ofSize ME_MAX_CLIENT_UPDATES))
        (trace step servingMoves (fresh listener strict) is) w.serving ∧
      Reaches Exchange.step (fun x i => x.Ready i ∧ x.Fits i) (.fresh strict)
        (trace step exchangeMoves (fresh listener strict) is) w.exchange := by
  obtain ⟨hserving, hexchange⟩ := views_run h
  exact ⟨hserving, hexchange⟩

/-- A connection is taken, and then a read of its socket delivers a request. -/
def oneRequest : List Step :=
  [.poll [⟨EPOLLIN, 1⟩] [{ fd := 5, socket := 7 }],
    .sendAndRecv Serving.byTime (fun k => if k = 7 then { bytes := requestBytes 0 1 } else {}) (fun _ => {})]

theorem run_oneRequest : ∃ w, Reaches step Proceeds (fresh 1 true) oneRequest w ∧
    w.exchange.server.admitted.length = 1 ∧ w.exchange.server.outgoingResponses.unread = [] := by
  obtain ⟨connect, hconnect⟩ : ∃ i, i = Step.poll [⟨EPOLLIN, 1⟩] [{ fd := 5, socket := 7 }] := ⟨_, rfl⟩
  obtain ⟨receive, hreceive⟩ : ∃ i, i = Step.sendAndRecv Serving.byTime
    (fun k => if k = 7 then { bytes := requestBytes 0 1 } else {}) (fun _ => {}) := ⟨_, rfl⟩
  have hsteps : oneRequest = [connect] ++ [receive] := by
    rw [hconnect, hreceive]
    rfl
  obtain ⟨w, hrun, hfound⟩ : ∃ w, Reaches step (fun _ _ => true = true) (fresh 1 true) oneRequest w ∧
      w.exchange.server.admitted.length = 1 ∧ w.exchange.server.outgoingResponses.unread = [] :=
    exists_of_execute (by decide +kernel)
  rw [hsteps] at hrun ⊢
  obtain ⟨t, ht, -, hlast⟩ := hrun.last
  obtain ⟨s, hserving, hphase, htcp, -, hserver⟩ :=
    Serving.run_connect (.ofSize ME_MAX_CLIENT_UPDATES) (.ofSize ME_MAX_CLIENT_UPDATES)
  rw [← List.nil_append [Serving.connect]] at hserving
  obtain ⟨s₀, hstart, hserves, hpoll⟩ := hserving.last
  obtain rfl := hstart.unique (.start : Reaches Serving.step Serving.Serves _ [] _)
  have hfirst : Reaches step Proceeds (fresh 1 true) [connect] ((fresh 1 true).withServing s) := by
    have hstep : onServing Serving.connect (fresh 1 true) = .ok () ((fresh 1 true).withServing s) := focus_of_ok hpoll
    rw [hconnect]
    exact .call .start hserves hstep
  obtain rfl := ht.unique hfirst
  have hproceeds : Proceeds ((fresh 1 true).withServing s) receive := by
    rw [hreceive]
    refine ⟨⟨hphase, Serving.sorts_byTime⟩, ?_, ?_⟩
    · rw [withServing, htcp]
      rfl
    · rw [called, withServing, htcp, hserver]
      decide +kernel
  exact ⟨w, .call hfirst hproceeds hlast, hfound⟩

theorem run_views_oneRequest : ∃ w, Reaches step Proceeds (fresh 1 true) oneRequest w ∧
    Reaches Exchange.step (fun x i => x.Ready i ∧ x.Fits i) (.fresh true) (trace step exchangeMoves (fresh 1 true) oneRequest)
      w.exchange ∧ (trace step exchangeMoves (fresh 1 true) oneRequest).length = 2 := by
  obtain ⟨w, hrun, -⟩ := run_oneRequest
  exact ⟨w, hrun, (run_views hrun).2, by decide +kernel⟩

end Live
end TradingEcosystem
