import TradingEcosystem.Exchange.Live

/-! Nothing gets stuck: from wherever a run has come, the two threads can go on until every admitted request is processed
and all that the engine said about them is told. -/
namespace TradingEcosystem
open Program Runs

namespace OrderServer
variable {s s' : OrderServer} {socket : SocketId} {l : List MEClientResponse}

theorem unsent_putSocket {t : TCPSocket} (ht : t.appended = (s.sockets socket).appended) : Unsent s (putSocket socket s t) := by
  refine ⟨rfl, rfl, rfl, rfl, fun k => ?_, id⟩
  by_cases hk : k = socket
  · rw [hk, putSocket_self, ht]
  · rw [putSocket_of_ne hk]

/-- The first response has a socket with room for it. -/
theorem RoomFor.first {r : MEClientResponse} (h : s.RoomFor (r :: l)) :
    ∃ k, s.socketOf r.clientId = some k ∧ (s.sockets k).nextSendValidIndex + OMClientResponse.size ≤ TCPBufferSize := by
  obtain ⟨k, hk, hfits⟩ := h r List.mem_cons_self
  rw [Option.mem_def] at hk
  have hone : 1 ≤ ((r :: l).filter fun r => s.socketOf r.clientId = some k).length :=
    List.length_pos_of_mem (List.mem_filter.mpr ⟨List.mem_cons_self, by rw [hk]; exact decide_eq_true rfl⟩)
  have hmul := Nat.mul_le_mul_left OMClientResponse.size hone
  exact ⟨k, hk, by omega⟩

/-- Empty buffers have room for all that the queue can hold. -/
theorem roomFor_of_empty (hsockets : ∀ r ∈ l, s.HasSocket r.clientId) (hempty : ∀ k, (s.sockets k).nextSendValidIndex = 0)
    (hlen : l.length < ME_MAX_CLIENT_UPDATES) : s.RoomFor l := by
  intro r hr
  obtain ⟨k, hk⟩ := hsockets r hr
  refine ⟨k, hk, ?_⟩
  have hfew : (l.filter fun r => s.socketOf r.clientId = some k).length ≤ l.length := List.length_filter_le _ _
  have hall : OMClientResponse.size * ME_MAX_CLIENT_UPDATES ≤ TCPBufferSize := by decide
  rw [hempty, Nat.zero_add]
  exact (Nat.mul_le_mul_left _ (hfew.trans hlen.le)).trans hall

end OrderServer

namespace Live
open OrderServer MatchingEngine TCPServer Exchange
variable {w w' : Live} {strict : Bool} {listener : SocketId} {p : Phase} {done waiting : List MEClientRequest}
  {unsent unread : List MEClientResponse} {is : List Step} {i : Step} {u : Unit} {r : MEClientRequest} {m : MEClientResponse}
  {calls : List Call}

/-- A step in which no client connects and no byte arrives. -/
def Step.Silent : Step → Prop
  | .poll _ accepted => accepted = []
  | .sendAndRecv _ receives sends => ∀ k, (receives k).bytes = [] ∧ (sends k).bytes = []
  | .sendNext | .processNext | .sendClientResponse => True

/-- The threads can go on from `w` to `w'` while the clients are silent, and meanwhile no request is looked at. -/
structure Leads (w w' : Live) : Prop where
  run : ∃ is, Reaches step Proceeds w is w' ∧ ∀ i ∈ is, i.Silent
  admission : w'.serving.server.toAdmission = w.serving.server.toAdmission

instance : IsPreorder Live Leads where
  refl _ := ⟨⟨[], .start, List.forall_mem_nil _⟩, rfl⟩
  trans _ _ _ h h' := by
    obtain ⟨is, hrun, his⟩ := h.run
    obtain ⟨js, hrun', hjs⟩ := h'.run
    exact ⟨⟨is ++ js, hrun'.append hrun, List.forall_mem_append.mpr ⟨his, hjs⟩⟩, h'.admission.trans h.admission⟩

/-- A state of a run in which the engine goes on, the server's next call is `p`, and the requests and responses are where
`Flow` says. -/
structure Stage (listener : SocketId) (strict : Bool) (p : Phase) (w : Live) (done waiting : List MEClientRequest)
    (unsent unread : List MEClientResponse) : Prop where
  views : ∃ ks js, Views listener strict ks js w
  phase : w.serving.phase = p
  goes : w.engineStop = none
  flow : Flow strict w.exchange done waiting unsent unread
  told : ∃ ms, Told w.serving.server ms

theorem Stage.known (h : Stage listener strict p w done waiting unsent unread) :
    CarriesRouted w.exchange ∧ Sized w.exchange ∧ w.serving.Idle ∧ w.serving.Metered := by
  obtain ⟨ks, js, hserving, hexchange⟩ := h.views
  obtain ⟨_, _, _, _, hstage⟩ := stage_run hexchange
  exact ⟨hstage.carries, hstage.sized, Serving.idle_run hserving, Serving.metered_run hserving⟩

theorem Stage.viewed (h : Stage listener strict p w done waiting unsent unread) (hg : w.Proceeds i)
    (hr : Live.step i w = .ok u w') : ∃ ks js, Views listener strict ks js w' := by
  obtain ⟨ks, js, hviews⟩ := h.views
  exact ⟨_, _, hviews.step hg hr⟩

theorem Leads.step (hg : w.Proceeds i) (hr : Live.step i w = .ok u w') (hi : i.Silent)
    (hadmission : w'.serving.server.toAdmission = w.serving.server.toAdmission) : Leads w w' :=
  ⟨⟨[i], .call .start hg hr, List.forall_mem_singleton.mpr hi⟩, hadmission⟩

/-! ## A turn of the server's loop -/

/-- `poll` finds nothing. -/
theorem Stage.poll (h : Stage listener strict .poll w done waiting unsent unread) :
    ∃ w', Leads w w' ∧ Stage listener strict .sendAndRecv w' done waiting unsent unread := by
  have hg : w.Proceeds (.poll [] []) :=
    ⟨h.phase, Nat.zero_le _, fun e he => absurd he List.not_mem_nil, List.nodup_nil, fun a ha => absurd ha List.not_mem_nil⟩
  have hpoll : Serving.step (.poll [] []) w.serving = .ok () { w.serving with phase := .sendAndRecv } := by
    have hnothing : Serving.poll [] [] w.serving = .ok () w.serving := rfl
    exact bind_of_ok hnothing
  have hr : Live.step (.poll [] []) w = .ok () (w.withServing { w.serving with phase := .sendAndRecv }) := focus_of_ok hpoll
  exact ⟨_, .step hg hr rfl rfl, h.viewed hg hr, rfl, h.goes, h.flow, h.told⟩

/-- The calls of a round that reads nothing. -/
theorem calls_quiet (listener : SocketId) (o : OrderServer) (hq : ∀ c ∈ calls, c.bytes = []) :
    ∃ o', callAll (Serving.socketCall listener) calls o = .ok false o' ∧ o'.toAdmission = o.toAdmission ∧
      o'.fifoSequencer = o.fifoSequencer ∧ Unsent o o' := by
  induction calls generalizing o with
  | nil => exact ⟨o, rfl, rfl, rfl, refl_of Unsent o⟩
  | cons c calls ih =>
    have hbytes := hq c List.mem_cons_self
    have hcall : Serving.socketCall listener c o =
        .ok false (putSocket c.socket o ((o.sockets c.socket).flushed c.took)) := by
      rw [Serving.socketCall, TCPSocket.sendAndRecv, TCPSocket.receive, hbytes, if_pos rfl]
      rfl
    obtain ⟨o', hrest, hadmission, hsequencer, hunsent⟩ :=
      ih (putSocket c.socket o ((o.sockets c.socket).flushed c.took)) fun c' hc => hq c' (List.mem_cons_of_mem _ hc)
    have hfirst : Unsent o (putSocket c.socket o ((o.sockets c.socket).flushed c.took)) := unsent_putSocket rfl
    refine ⟨o', ?_, hadmission, hsequencer, trans_of Unsent hfirst hunsent⟩
    rw [callAll, bind_of_ok hcall, bind_of_ok hrest]
    rfl

/-- `sendAndRecv` reads nothing, and every buffer is empty then. -/
theorem Stage.sendAndRecv (h : Stage listener strict .sendAndRecv w done waiting unsent unread) :
    ∃ w', Leads w w' ∧ Stage listener strict .drain w' done waiting unsent unread ∧
      ∀ k, (w'.serving.server.sockets k).nextSendValidIndex = 0 := by
  -- the kernel takes all that is in a buffer
  obtain ⟨input, hinput⟩ : ∃ f : SocketId → Input, f = fun k => { took := (w.serving.server.sockets k).nextSendValidIndex } :=
    ⟨_, rfl⟩
  have hbytes : ∀ k, (input k).bytes = [] := fun k => by rw [hinput]
  obtain ⟨-, -, hidle, -⟩ := h.known
  have hquiet : ∀ c ∈ TCPServer.calls input w.serving.tcpServer.receiveSockets, c.bytes = [] := fun c hc => by
    obtain ⟨k, -, rfl⟩ := List.mem_map.mp hc
    exact hbytes k
  obtain ⟨o', hcalls, hadmission, hsequencer, hunsent⟩ :=
    calls_quiet w.serving.tcpServer.listenerSocket w.serving.server hquiet
  have hnothing : RoomToPublish (w.called input) := by
    rw [called, hcalls]
    trivial
  have hg : w.Proceeds (.sendAndRecv Serving.byTime input input) :=
    ⟨⟨h.phase, Serving.sorts_byTime⟩, hbytes _, hnothing⟩
  have hround : Serving.step (.sendAndRecv Serving.byTime input input) w.serving =
      .ok () { w.serving.withServer o' with drainedTo := fun _ => 0, phase := .drain } := by
    have hserver : Serving.onServer (TCPServer.sendAndRecv (Serving.socketCall w.serving.tcpServer.listenerSocket)
        (do let s ← get
            OrderServer.recvFinishedCallBack (Serving.byTime s.fifoSequencer.pendingClientRequests))
        (TCPServer.calls input w.serving.tcpServer.receiveSockets) (TCPServer.calls input w.serving.tcpServer.sendSockets))
        w.serving = .ok () (w.serving.withServer o') := by
      refine focus_of_ok ?_
      rw [TCPServer.sendAndRecv, bind_of_ok hcalls, hidle.sendSockets]
      rfl
    have hwhole : Serving.sendAndRecv Serving.byTime input input w.serving =
        .ok () { w.serving.withServer o' with drainedTo := fun _ => 0 } := by
      rw [Serving.sendAndRecv, bind_of_ok get_apply, bind_of_ok hserver]
      rfl
    rw [Serving.step, bind_of_ok hwhole]
    rfl
  have hr : Live.step (.sendAndRecv Serving.byTime input input) w = .ok () (w.withServing _) := focus_of_ok hround
  have hadmits : Admits w.serving.server o' := by
    refine ⟨⟨[], ?_, ?_⟩, by rw [hsequencer], by rw [hsequencer]⟩
    · rw [hadmission, List.append_nil]
    · rw [hsequencer, List.map_nil, List.append_nil]
  obtain ⟨ms, ht⟩ := h.told
  have hstage : Stage listener strict .drain _ done waiting unsent unread :=
    ⟨h.viewed hg hr, rfl, h.goes, h.flow.sendAndRecv hadmits hunsent, ms, ht.congr hunsent⟩
  obtain ⟨-, -, -, hmetered⟩ := hstage.known
  exact ⟨_, .step hg hr (fun k => ⟨hbytes k, hbytes k⟩) hadmission, hstage, hmetered.index⟩

/-- A turn of the inner loop that has room for all that is in the queue. -/
theorem Stage.sendNext (h : Stage listener strict .drain w done waiting unsent (m :: unread))
    (hroom : w.serving.server.RoomFor (m :: unread)) :
    ∃ w', Leads w w' ∧ Stage listener strict .drain w' done waiting unsent unread ∧ w'.serving.server.RoomFor unread := by
  obtain ⟨k, hk, hfit⟩ := hroom.first
  obtain ⟨o', hsend, -, -, hsent⟩ := sendResponse_ok hk hfit h.flow.responses.queue
  have hnext : w.serving.server.nextResponse = some m := nextResponse_cons h.flow.responses
  have hserver : Serving.onServer (sendResponse m) w.serving = .ok () (w.serving.withServer o') := focus_of_ok hsend
  have hturn : Serving.step .sendNext w.serving = .ok () (Serving.count m (w.serving.withServer o')) := by
    rw [Serving.step, Serving.sendNext, bind_of_ok get_apply, hnext]
    exact bind_of_ok hserver
  obtain ⟨hcount, hphase⟩ := Serving.count_keeps m (w.serving.withServer o')
  obtain ⟨s', hs'⟩ : ∃ s', s' = Serving.count m (w.serving.withServer o') := ⟨_, rfl⟩
  rw [← hs'] at hturn hcount hphase
  have hadmission : s'.server.toAdmission = w.serving.server.toAdmission := by
    rw [hcount]
    exact hsent.admission
  have hg : w.Proceeds .sendNext := h.phase
  have hr : Live.step .sendNext w = .ok () (w.withServing s') := focus_of_ok hturn
  have hmove : Exchange.step .sendNext w.exchange = .ok () (w.withServing s').exchange := focus_of_ok (Live.sendNext_ok hturn)
  obtain ⟨ms, ht⟩ := h.told
  obtain ⟨ms', hflow, ht'⟩ := h.flow.sendNext ht hmove
  refine ⟨w.withServing s', .step hg hr trivial hadmission, ⟨h.viewed hg hr, hphase.trans h.phase, h.goes, hflow, ms', ht'⟩, ?_⟩
  change s'.server.RoomFor unread
  rw [hcount]
  exact hroom.sent hsent hk

/-- The inner loop sends what it finds and ends. -/
theorem Stage.drain (h : Stage listener strict .drain w done waiting unsent unread) (hroom : w.serving.server.RoomFor unread) :
    ∃ w', Leads w w' ∧ Stage listener strict .poll w' done waiting unsent [] := by
  induction unread generalizing w with
  | nil =>
    have hnext : w.serving.server.nextResponse = none := nextResponse_nil h.flow.responses
    have hsend : Serving.step .sendNext w.serving = .ok () { w.serving with phase := .poll } := by
      rw [Serving.step, Serving.sendNext, bind_of_ok get_apply, hnext]
      rfl
    have hr : Live.step .sendNext w = .ok () (w.withServing { w.serving with phase := .poll }) := focus_of_ok hsend
    have hg : w.Proceeds .sendNext := h.phase
    exact ⟨_, .step hg hr trivial rfl, h.viewed hg hr, rfl, h.goes, h.flow, h.told⟩
  | cons m unread ih =>
    obtain ⟨y, hleads, hy, hroom'⟩ := h.sendNext hroom
    obtain ⟨z, hleads', hz⟩ := ih hy hroom'
    exact ⟨z, trans_of Leads hleads hleads', hz⟩

/-- From the end of a `sendAndRecv` on all that is in the queue goes out. -/
theorem Stage.send (h : Stage listener strict .drain w done waiting unsent unread)
    (hempty : ∀ k, (w.serving.server.sockets k).nextSendValidIndex = 0) :
    ∃ w', Leads w w' ∧ Stage listener strict .poll w' done waiting unsent [] := by
  obtain ⟨hcarries, hsized, -, -⟩ := h.known
  refine h.drain (roomFor_of_empty (fun m hm => ?_) hempty ?_)
  · refine hcarries.routed.responses m ?_
    rw [h.flow.responses.queue.unread_eq]
    exact hm
  · rw [← hsized.responses]
    exact h.flow.responses.queue.room

theorem Stage.round (h : Stage listener strict .sendAndRecv w done waiting unsent unread) :
    ∃ w', Leads w w' ∧ Stage listener strict .poll w' done waiting unsent [] := by
  obtain ⟨y, hleads, hy, hempty⟩ := h.sendAndRecv
  obtain ⟨z, hleads', hz⟩ := hy.send hempty
  exact ⟨z, trans_of Leads hleads hleads', hz⟩

/-- A whole turn of the loop. -/
theorem Stage.turn (h : Stage listener strict .poll w done waiting unsent unread) :
    ∃ w', Leads w w' ∧ Stage listener strict .poll w' done waiting unsent [] := by
  obtain ⟨y, hleads, hy⟩ := h.poll
  obtain ⟨z, hleads', hz⟩ := hy.round
  exact ⟨z, trans_of Leads hleads hleads', hz⟩

/-! ## The engine's turns in between -/

/-- All that the engine has said goes out, one by one, so that the queue never holds more than one response. -/
theorem Stage.respond (h : Stage listener strict .poll w done waiting unsent []) :
    ∃ w', Leads w w' ∧ Stage listener strict .poll w' done waiting [] [] := by
  induction unsent generalizing w with
  | nil => exact ⟨w, refl_of Leads w, h⟩
  | cons m unsent ih =>
    obtain ⟨-, hsized, -, -⟩ := h.known
    have hg : w.Proceeds .sendClientResponse := by
      change w.exchange.server.outgoingResponses.unread.length + 1 < w.exchange.server.outgoingResponses.size
      rw [h.flow.responses.queue.unread_eq, hsized.responses]
      decide
    obtain ⟨hmove, hflow⟩ := h.flow.sendClientResponse hg
    have hr : Live.step .sendClientResponse w = .ok () (w.withExchange _) := focus_of_ok hmove
    obtain ⟨ms, ht⟩ := h.told
    have hstage : Stage listener strict .poll _ done waiting unsent [m] :=
      ⟨h.viewed hg hr, h.phase, h.goes, hflow, ms, ht.same rfl rfl rfl rfl⟩
    obtain ⟨y, hleads, hy⟩ := hstage.turn
    obtain ⟨z, hleads', hz⟩ := ih hy
    exact ⟨z, trans_of Leads (trans_of Leads (.step hg hr trivial rfl) hleads) hleads', hz⟩

/-- The engine processed the requests `done` and stopped at `r` for what `r` is; these are admitted requests, and the first ones
that were published. -/
structure Halted (strict : Bool) (w : Live) (done : List MEClientRequest) (r : MEClientRequest) : Prop where
  stopped : ∃ f e, w.engineStop = some f ∧ processClientRequest r e = .error f w.engine ∧
    Reaches processClientRequest (fun _ _ => True) (MatchingEngine.fresh strict) done e
  published : done ++ [r] <+: w.serving.server.fifoSequencer.published.map (·.request)
  admitted : (done ++ [r]).Subperm (w.serving.server.admitted.map (·.2.meClientRequest))

theorem halted_of_flow (h : Flow strict w.exchange done waiting unsent unread) (hstop : w.engineStop ≠ none) :
    ∃ r, Halted strict w done r := by
  obtain ⟨f, hf⟩ := Option.ne_none_iff_exists'.mp hstop
  obtain ⟨r, e, hfirst, hrun, hp⟩ := h.stopped f hf
  obtain ⟨rest, rfl⟩ := List.head?_eq_some_iff.mp hfirst
  have hbegins : done ++ [r] <+: done ++ r :: rest := ⟨rest, by rw [List.append_assoc, List.singleton_append]⟩
  refine ⟨r, ⟨f, e, hf, hp, hrun⟩, ?_, ?_⟩
  · rw [show w.serving.server.fifoSequencer.published.map (·.request) = done ++ r :: rest from h.published]
    exact hbegins
  · exact (hbegins.sublist.trans (List.sublist_append_left _ _)).subperm.trans h.admitted.subperm

/-- The engine takes the next request, and all that it says about it goes out, unless it stops there. -/
theorem Stage.processNext (h : Stage listener strict .poll w done (r :: waiting) [] []) :
    ∃ w', Leads w w' ∧ ((∃ done r, Halted strict w' done r) ∨ Stage listener strict .poll w' (done ++ [r]) waiting [] []) := by
  have hg : w.Proceeds .processNext := by
    refine ⟨h.goes, ?_⟩
    rw [h.flow.produced, List.append_nil]
  obtain ⟨x', l, hmove, hflow⟩ := h.flow.processNext hg
  have hr : Live.step .processNext w = .ok () (w.withExchange x') := focus_of_ok hmove
  obtain ⟨q, hserver⟩ := server_processNext w.exchange
  rw [hmove, final_ok] at hserver
  have hleads : Leads w (w.withExchange x') := .step hg hr trivial (congrArg (·.toAdmission) hserver)
  rcases hflow with ⟨hflow, hstop⟩ | ⟨hflow, hstop⟩
  · exact ⟨_, hleads, .inl ⟨done, halted_of_flow hflow hstop⟩⟩
  · obtain ⟨ms, ht⟩ := h.told
    have ht' : Told (w.withExchange x').serving.server ms := by
      change Told x'.server ms
      rw [hserver]
      exact ht.same rfl rfl rfl rfl
    have hstage : Stage listener strict .poll (w.withExchange x') (done ++ [r]) waiting l [] :=
      ⟨h.viewed hg hr, h.phase, hstop, hflow, ms, ht'⟩
    obtain ⟨y, hleads', hy⟩ := hstage.respond
    exact ⟨y, trans_of Leads hleads hleads', .inr hy⟩

/-- All that is in the queue of requests is processed, unless the engine stops. -/
theorem Stage.process (h : Stage listener strict .poll w done waiting [] []) :
    ∃ w', Leads w w' ∧ ((∃ done r, Halted strict w' done r) ∨ Stage listener strict .poll w' (done ++ waiting) [] [] []) := by
  induction waiting generalizing w done with
  | nil =>
    rw [List.append_nil]
    exact ⟨w, refl_of Leads w, .inr h⟩
  | cons r waiting ih =>
    obtain ⟨y, hleads, hhalted | hy⟩ := h.processNext
    · exact ⟨y, hleads, .inl hhalted⟩
    · obtain ⟨z, hleads', hz⟩ := ih hy
      rw [List.append_assoc] at hz
      exact ⟨z, trans_of Leads hleads hleads', hz⟩

/-! ## Everything arrives -/

/-- Each admitted request is processed, and `ms` tells all that the engine said. -/
structure Settled (strict : Bool) (w : Live) (done : List MEClientRequest) (ms : List OMClientResponse) : Prop where
  processed : Reaches processClientRequest (fun _ _ => True) (MatchingEngine.fresh strict) done w.engine
  each : done.Perm (w.serving.server.admitted.map (·.2.meClientRequest))
  published : w.serving.server.fifoSequencer.published.map (·.request) = done
  told : Told w.serving.server ms
  all : ms.map (·.meClientResponse) = w.engine.clientResponses

theorem Stage.settled (h : Stage listener strict p w done [] [] []) : ∃ ms, Settled strict w done ms := by
  obtain ⟨-, -, hidle, -⟩ := h.known
  obtain ⟨ms, ht⟩ := h.told
  have heach := h.flow.admitted
  rw [show w.exchange.server.fifoSequencer.pendingClientRequests = [] from hidle.pending, List.map_nil, List.append_nil,
    List.append_nil] at heach
  have hpublished := h.flow.published
  rw [List.append_nil] at hpublished
  refine ⟨ms, h.flow.running h.goes, heach, hpublished, ht, ?_⟩
  have hproduced : w.engine.clientResponses = w.serving.server.responded ++ [] := h.flow.produced
  have hresponded : w.serving.server.responded = w.serving.server.drained ++ [] := h.flow.responses.responded
  rw [ht.drained, hproduced, hresponded, List.append_nil, List.append_nil]

/-- The inner loop is not about to overrun a buffer with what is in the queue. -/
def Drainable (w : Live) : Prop :=
  w.serving.phase = .drain → w.serving.server.RoomFor w.serving.server.outgoingResponses.unread

/-- The server's thread comes back to `poll`. -/
theorem Stage.toPoll (h : Stage listener strict p w done waiting unsent unread) (hroom : w.Drainable) :
    ∃ w', Leads w w' ∧ Stage listener strict .poll w' done waiting unsent [] := by
  cases p with
  | poll => exact h.turn
  | sendAndRecv => exact h.round
  | drain =>
    have hunread : w.serving.server.outgoingResponses.unread = unread := h.flow.responses.queue.unread_eq
    have hfits := hroom h.phase
    rw [hunread] at hfits
    exact h.drain hfits

/-- From every state of every run of the exchange with its connections from which the inner loop overruns no buffer the two
threads can go on in the order of their loops, with no byte from a client, until each request admitted so far is processed, in the
order of publication, and every response is in the bytes for its client, in the order in which the engine gave them; unless
the engine stops at one of the requests. -/
theorem run_settles (h : Reaches step Proceeds (fresh listener strict) is w) (hroom : w.Drainable) :
    ∃ js w', Reaches step Proceeds (fresh listener strict) (is ++ js) w' ∧ (∀ j ∈ js, j.Silent) ∧
      w'.serving.server.toAdmission = w.serving.server.toAdmission ∧
      ((∃ done r, Halted strict w' done r) ∨ ∃ done ms, Settled strict w' done ms) := by
  have hviews := views_run h
  obtain ⟨done, waiting, unsent, unread, hstage⟩ := stage_run hviews.exchange
  by_cases hgoes : w.engineStop = none
  · have hw : Stage listener strict w.serving.phase w done waiting unsent unread :=
      ⟨⟨_, _, hviews⟩, rfl, hgoes, hstage.flow, hstage.told⟩
    obtain ⟨y, hleads, hy⟩ := hw.toPoll hroom
    obtain ⟨z, hleads', hz⟩ := hy.respond
    obtain ⟨v, hleads'', hv⟩ := hz.process
    have hall := trans_of Leads hleads (trans_of Leads hleads' hleads'')
    obtain ⟨ks, hks, hsilent⟩ := hall.run
    exact ⟨ks, v, hks.append h, hsilent, hall.admission, hv.imp_right fun hlast => ⟨_, hlast.settled⟩⟩
  · refine ⟨[], w, ?_, List.forall_mem_nil _, rfl, .inl ⟨done, halted_of_flow hstage.flow hgoes⟩⟩
    rwa [List.append_nil]

/-- The request is admitted, and the engine has not said anything yet. -/
theorem run_settles_oneRequest : ∃ (w w' : Live) (js : List Step), Reaches step Proceeds (fresh 1 true) oneRequest w ∧
    w.serving.server.admitted.length = 1 ∧ Reaches step Proceeds (fresh 1 true) (oneRequest ++ js) w' ∧
    (∀ j ∈ js, j.Silent) ∧ ((∃ done r, Halted true w' done r) ∨ ∃ done ms, Settled true w' done ms) := by
  obtain ⟨w, hrun, hadmitted, hnone⟩ := run_oneRequest
  have hroom : w.Drainable := fun _ => by
    rw [show w.serving.server.outgoingResponses.unread = [] from hnone]
    exact fun m hm => absurd hm List.not_mem_nil
  obtain ⟨js, w', hmore, hsilent, -, hend⟩ := run_settles hrun hroom
  exact ⟨w, w', js, hrun, hadmitted, hmore, hsilent, hend⟩

end Live
end TradingEcosystem
