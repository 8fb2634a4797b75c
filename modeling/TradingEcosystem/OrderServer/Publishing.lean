import TradingEcosystem.OrderServer.Polling

/-! Every request that a `sendAndRecv` of the TCP server accepts is published before it returns,
since no socket is ever in the list that is gone through after the publishing. -/
namespace TradingEcosystem
open Program Runs

namespace OrderServer
variable {s s' : OrderServer} {socket listener : SocketId} {rxTime : Nanos} {c : Call} {calls : List Call} {recv : Bool}

/-- The requests accepted meanwhile wait to be published. -/
structure Admits (s s' : OrderServer) : Prop where
  waiting : ∃ m, s'.admitted = s.admitted ++ m ∧ s'.fifoSequencer.pendingClientRequests.map (·.request) =
    s.fifoSequencer.pendingClientRequests.map (·.request) ++ m.map (·.2.meClientRequest)
  published : s'.fifoSequencer.published = s.fifoSequencer.published
  incomingRequests : s'.fifoSequencer.incomingRequests = s.fifoSequencer.incomingRequests

instance : IsPreorder OrderServer Admits where
  refl s := ⟨⟨[], by simp, by simp⟩, rfl, rfl⟩
  trans s t s' h h' := by
    obtain ⟨m, hm, hp⟩ := h.waiting
    obtain ⟨m', hm', hp'⟩ := h'.waiting
    refine ⟨⟨m ++ m', ?_, ?_⟩, h'.published.trans h.published, h'.incomingRequests.trans h.incomingRequests⟩
    · rw [hm', hm, List.append_assoc]
    · rw [hp', hp, List.map_append, List.append_assoc]

/-- Sockets have no part in it. -/
theorem admits_putSocket (s : OrderServer) (t : TCPSocket) : Admits s (putSocket socket s t) :=
  ⟨⟨[], (List.append_nil _).symm, (List.append_nil _).symm⟩, rfl, rfl⟩

theorem admits_onSocket (socket : SocketId) (x : SocketM Unit) : Returns Admits (onSocket socket x) := by
  have hframe : Frame Admits (onSocket socket x) := .focus fun s => admits_putSocket s _
  exact hframe.returns

theorem admits_examine (socket : SocketId) (rxTime : Nanos) (request : OMClientRequest) :
    Returns Admits (examine socket rxTime request) := by
  intro s u s' h
  rcases examine_cases socket rxTime request s with ⟨-, -, he⟩ | ⟨-, -, -, he⟩ | ⟨-, he⟩
  · rw [he] at h
    cases h
    by_cases ha : s.toAdmission.Accepts (socket, request)
    · refine ⟨⟨[(socket, request)], ?_, ?_⟩, ?_, ?_⟩
      · rw [afterExamine_toAdmission, Admission.after_admitted, if_pos ha]
      · rw [afterExamine, if_pos ha]
        exact List.map_append
      · rw [afterExamine, if_pos ha]
        rfl
      · rw [afterExamine, if_pos ha]
        rfl
    · refine ⟨⟨[], ?_, ?_⟩, ?_, ?_⟩
      · rw [afterExamine_toAdmission, Admission.after_admitted, if_neg ha, List.append_nil]
      · rw [afterExamine, if_neg ha, List.map_nil, List.append_nil]
      · rw [afterExamine, if_neg ha]
      · rw [afterExamine, if_neg ha]
  · rw [he] at h
    cases h
  · rw [he] at h
    cases h

theorem admits_recvLoop (socket : SocketId) (rxTime : Nanos) (turns i : Nat) : Returns Admits (recvLoop socket rxTime turns i) := by
  induction turns generalizing i with
  | zero => exact .throw _
  | succ turns ih =>
    exact .bind .get fun s => .ite (.bind (admits_examine socket rxTime _) fun _ => ih _) (.pure _)

theorem admits_recvCallback (socket : SocketId) (rxTime : Nanos) : Returns Admits (recvCallback socket rxTime) := by
  refine .bind .get fun s => .ite (.bind (admits_recvLoop socket rxTime _ _) fun i => ?_) (.pure _)
  exact admits_onSocket socket _

end OrderServer

namespace Serving
open OrderServer TCPServer
variable {s s' t : Serving} {o o' : OrderServer} {listener : SocketId} {c : Call} {calls : List Call} {recv : Bool} {e : Event}
  {events : List Event} {accepted : List Accepted} {is : List Step} {i : Step} {u : Unit}
  {sort : List RecvTimeClientRequest → List RecvTimeClientRequest} {receives sends : SocketId → Input}
  {clientRequests : LFQueue MEClientRequest} {clientResponses : LFQueue MEClientResponse}

/-! ## The calls of a round -/

theorem admits_socketCall (listener : SocketId) (c : Call) : Returns Admits (socketCall listener c) := by
  refine .bind (.ite (.pure _) (.bind (admits_onSocket _ _) fun _ => .ite (.pure _) (admits_recvCallback _ _))) fun _ => ?_
  exact .bind (admits_onSocket _ _) fun _ => .pure _

/-- A call that tells of no bytes has no callback to run. -/
theorem socketCall_false (h : socketCall listener c o = .ok false o') :
    o'.fifoSequencer = o.fifoSequencer ∧ o'.toAdmission = o.toAdmission := by
  obtain ⟨u, o₁, hreceive, h⟩ := bind_eq_ok.mp h
  obtain ⟨u', o₂, hflush, h⟩ := bind_eq_ok.mp h
  injection h with hrecv hlast
  have hbytes : c.bytes = [] := not_not.mp (of_decide_eq_false hrecv)
  rw [TCPSocket.receive, if_pos hbytes] at hreceive
  cases hreceive
  have hsame : Frame (Fixes fun o : OrderServer => (o.fifoSequencer, o.toAdmission)) (onSocket c.socket (TCPSocket.flush c.took)) :=
    .focus fun _ => rfl
  have he := hsame.of_ok hflush
  simp only [Fixes, Prod.mk.injEq] at he
  rw [← hlast]
  exact he

theorem callAll_admits (h : callAll (socketCall listener) calls o = .ok recv o') :
    Admits o o' ∧ (recv = false → o'.fifoSequencer = o.fifoSequencer ∧ o'.toAdmission = o.toAdmission) := by
  induction calls generalizing o recv with
  | nil =>
    cases h
    exact ⟨refl_of Admits _, fun _ => ⟨rfl, rfl⟩⟩
  | cons c calls ih =>
    obtain ⟨first, o₁, h₁, h⟩ := bind_eq_ok.mp h
    obtain ⟨rest, o₂, h₂, h⟩ := bind_eq_ok.mp h
    cases h
    obtain ⟨hadmits, hsame⟩ := ih h₂
    refine ⟨trans_of Admits (admits_socketCall listener c _ first o₁ h₁) hadmits, fun hno => ?_⟩
    obtain ⟨rfl, rfl⟩ := Bool.or_eq_false_iff.mp hno
    obtain ⟨hseq, htables⟩ := socketCall_false h₁
    obtain ⟨hseq', htables'⟩ := hsame rfl
    exact ⟨hseq'.trans hseq, htables'.trans htables⟩

/-! ## No socket is registered for writing -/

theorem reported_out (h : Reported e) : e.events &&& EPOLLOUT = 0 := by
  have hmask : EPOLLOUT = ~~~(EPOLLIN ||| EPOLLERR ||| EPOLLHUP) &&& EPOLLOUT := by decide
  rw [hmask, ← UInt32.and_assoc, h, UInt32.zero_and]

theorem sendSockets_handle (h : Reported e) (t : TCPServer) : (t.handle e).1.sendSockets = t.sendSockets := by
  unfold handle
  simp only [reported_out h, ne_eq, not_true_eq_false, if_false]
  split_ifs <;> rfl

theorem sendSockets_handleAll (h : ∀ e ∈ events, Reported e) (t : TCPServer) :
    (t.handleAll events).1.sendSockets = t.sendSockets := by
  induction events generalizing t with
  | nil => rfl
  | cons e events ih =>
    rw [handleAll]
    exact (ih (fun e he => h e (List.mem_cons_of_mem _ he)) _).trans (sendSockets_handle (h e (List.mem_cons_self ..)) t)

/-- Between two calls of the loop nothing waits to be published, and no socket is registered for
writing. -/
structure Idle (s : Serving) : Prop where
  pending : s.server.fifoSequencer.pendingClientRequests = []
  sendSockets : s.tcpServer.sendSockets = []

/-- Taking connections and addressing sockets does not touch what `Idle` speaks about. -/
def idleView (s : Serving) := (s.server.fifoSequencer.pendingClientRequests, s.tcpServer.sendSockets)

theorem frame_accept (a : Accepted) : Frame (Fixes idleView) (accept a) := by
  refine .ite (.throw _) (.bind (.modify fun s => rfl) fun _ => .ite (.throw _) (.modify fun s => rfl))

theorem frame_sendNext : Frame (Fixes idleView) sendNext := by
  have hsend : ∀ r, Frame (Fixes fun o : OrderServer => o.fifoSequencer.pendingClientRequests) (sendResponse r) :=
    frame_sendResponse (fun _ _ _ _ _ => rfl) fun _ _ => .focus fun _ => rfl
  refine .bind (fun s => rfl) fun s => ?_
  split
  · exact .modify fun s => rfl
  · refine .bind (.focus fun s => ?_) fun _ => .modify fun s => ?_
    · exact congrArg (·, s.tcpServer.sendSockets) (hsend _ s.server)
    · unfold count
      split <;> rfl

/-- What `poll` does once `epoll_wait` has filled the array. -/
theorem poll_ok (h : poll events accepted s = .ok u s') :
    ∃ t new, s.tcpServer.handleAll events = (t, new) ∧
      (if new then forM accepted accept else pure () : ServingM Unit) { s with tcpServer := t } = .ok () s' := by
  unfold poll at h
  split_ifs at h
  · exact ⟨_, _, rfl, h⟩
  · cases h

theorem Idle.poll (h : Idle s) (hg : Serves s (.poll events accepted)) (hp : step (.poll events accepted) s = .ok u s') : Idle s' := by
  obtain ⟨_, s₁, hpoll, hp⟩ := bind_eq_ok.mp hp
  cases hp
  obtain ⟨t, new, hlists, hpoll⟩ := poll_ok hpoll
  have hsame := sendSockets_handleAll (fun e he => (hg.2.2.1 e he).1) s.tcpServer
  rw [hlists] at hsame
  have hrest := (Frame.ite (Frame.forM accepted frame_accept) (Frame.pure _)).of_ok hpoll
  simp only [Fixes, idleView, Prod.mk.injEq] at hrest
  exact ⟨hrest.1.trans h.pending, (hrest.2.trans hsame).trans h.sendSockets⟩

/-- A round from an idle server: what was accepted is published, and nothing else. -/
structure Publishes (o o' : OrderServer) : Prop where
  pending : o'.fifoSequencer.pendingClientRequests = []
  each : ∃ m published, o'.admitted = o.admitted ++ m ∧ o'.fifoSequencer.published = o.fifoSequencer.published ++ published ∧
    (published.map (·.request)).Perm (m.map (·.2.meClientRequest)) ∧
    o'.fifoSequencer.incomingRequests = o.fifoSequencer.incomingRequests.writeAll (published.map (·.request))

theorem Idle.sendAndRecv (h : Idle s) (hsort : ∀ pending, FIFOSequencer.Sorts pending (sort pending))
    (hr : Serving.sendAndRecv sort receives sends s = .ok u s') :
    Publishes s.server s'.server ∧ s'.tcpServer = s.tcpServer := by
  rw [Serving.sendAndRecv, bind_of_ok (get_apply)] at hr
  obtain ⟨_, s₁, hserver, hr⟩ := bind_eq_ok.mp hr
  cases hr
  obtain ⟨o', hround, rfl⟩ := focus_eq_ok.mp hserver
  clear hserver
  change Publishes s.server o' ∧ s.tcpServer = s.tcpServer
  refine ⟨?_, rfl⟩
  obtain ⟨recv, o₁, h₁, hround⟩ := bind_eq_ok.mp hround
  obtain ⟨hadmits, hsame⟩ := callAll_admits h₁
  obtain ⟨_, o₂, h₂, hround⟩ := bind_eq_ok.mp hround
  -- the second loop has no socket to go through
  rw [h.sendSockets] at hround
  cases hround
  obtain ⟨m, hm, hpending⟩ := hadmits.waiting
  rw [h.pending, List.map_nil, List.nil_append] at hpending
  cases recv with
  | false =>
    cases h₂
    obtain ⟨hseq, htables⟩ := hsame rfl
    refine ⟨by rw [hseq]; exact h.pending, ⟨[], [], ?_, ?_, .refl _, ?_⟩⟩
    · rw [htables, List.append_nil]
    · rw [hseq, List.append_nil]
    · rw [hseq]
      rfl
  | true =>
    have hsorts := hsort o₁.fifoSequencer.pendingClientRequests
    rw [if_pos rfl, bind_of_ok (get_apply), recvFinishedCallBack_apply hsorts] at h₂
    cases h₂
    refine ⟨rfl, ⟨m, sort o₁.fifoSequencer.pendingClientRequests, hm, ?_, ?_, ?_⟩⟩
    · rw [← hadmits.published]
      rfl
    · rw [← hpending]
      exact hsorts.perm.map _
    · rw [← hadmits.incomingRequests]
      rfl

theorem Idle.step (h : Idle s) (hg : Serves s i) (hr : step i s = .ok u s') : Idle s' := by
  cases i with
  | poll events accepted => exact h.poll hg hr
  | sendAndRecv sort receives sends =>
    obtain ⟨_, s₁, hround, hr⟩ := bind_eq_ok.mp hr
    cases hr
    obtain ⟨hpublishes, htcp⟩ := h.sendAndRecv hg.2 hround
    exact ⟨hpublishes.pending, (congrArg TCPServer.sendSockets htcp).trans h.sendSockets⟩
  | sendNext =>
    have hrest := frame_sendNext.of_ok hr
    simp only [Fixes, idleView, Prod.mk.injEq] at hrest
    exact ⟨hrest.1.trans h.pending, hrest.2.trans h.sendSockets⟩
  | respond clientResponse =>
    cases hr
    exact ⟨h.pending, h.sendSockets⟩
  | takeRequest =>
    obtain ⟨o', ho, rfl⟩ := focus_eq_ok.mp hr
    obtain ⟨q, hq, rfl⟩ := focus_eq_ok.mp ho
    obtain ⟨_, _, rfl⟩ := focus_eq_ok.mp hq
    exact ⟨h.pending, h.sendSockets⟩

theorem idle_run (h : Reaches step Serves (fresh listener clientRequests clientResponses) is s) : Idle s :=
  h.invariant (I := fun _ s => Idle s) ⟨rfl, rfl⟩ fun _ _ _ _ hs hg hr => hs.step hg hr

/-- Whenever a `sendAndRecv` returns, nothing is pending, and what it has written to the queue of the
engine is each of the requests accepted in it, once. -/
theorem run_publishes (h : Reaches step Serves (fresh listener clientRequests clientResponses) is s)
    (hg : Serves s (.sendAndRecv sort receives sends)) (hr : step (.sendAndRecv sort receives sends) s = .ok u s') :
    Publishes s.server s'.server := by
  obtain ⟨_, s₁, hround, hr⟩ := bind_eq_ok.mp hr
  cases hr
  exact ((idle_run h).sendAndRecv hg.2 hround).1

/-- An insertion sort by the receive time. -/
def byTime (pending : List RecvTimeClientRequest) : List RecvTimeClientRequest :=
  pending.insertionSort fun r r' => r.recvTime ≤ r'.recvTime

theorem sorts_byTime (pending : List RecvTimeClientRequest) : FIFOSequencer.Sorts pending (byTime pending) := by
  have htotal : Std.Total fun r r' : RecvTimeClientRequest => r.recvTime ≤ r'.recvTime := ⟨fun _ _ => Int64.le_total ..⟩
  have htrans : IsTrans RecvTimeClientRequest fun r r' => r.recvTime ≤ r'.recvTime := ⟨fun _ _ _ => Int64.le_trans⟩
  exact ⟨List.perm_insertionSort _ _, (List.pairwise_insertionSort _ _).imp Int64.not_lt.mpr⟩

/-- The listener is ready, and there is one connection. -/
def connect : Step := .poll [⟨EPOLLIN, 1⟩] [{ fd := 5, socket := 7 }]

/-- A server with the connection at socket 7. -/
theorem run_connect (clientRequests : LFQueue MEClientRequest) (clientResponses : LFQueue MEClientResponse) :
    ∃ s, Reaches step Serves (fresh 1 clientRequests clientResponses) [connect] s ∧ s.phase = .sendAndRecv ∧
      s.tcpServer = { listenerSocket := 1, receiveSockets := [7] } ∧ (∀ k, s.drainedTo k = 0) ∧
      s.server = OrderServer.putSocket 7 (.fresh clientRequests clientResponses) {} := by
  have hserves : Serves (fresh 1 clientRequests clientResponses) connect := by
    refine ⟨rfl, le_rfl, ?_, by simp, ?_⟩
    · rw [List.forall_mem_singleton]
      exact ⟨show EPOLLIN &&& ~~~(EPOLLIN ||| EPOLLERR ||| EPOLLHUP) = 0 by decide, .inl rfl⟩
    · rw [List.forall_mem_singleton]
      exact ⟨show (7 : Nat) ≠ 1 by decide, by simp [fresh]⟩
  have hstep : step connect (fresh 1 clientRequests clientResponses) = .ok () { fresh 1 clientRequests clientResponses with
      phase := .sendAndRecv
      tcpServer := { listenerSocket := 1, receiveSockets := [7] }
      server := OrderServer.putSocket 7 (.fresh clientRequests clientResponses) {} } := by
    rfl
  exact ⟨_, .call .start hserves hstep, rfl, rfl, fun _ => rfl, rfl⟩

/-- A connection is taken, and then a read of its socket delivers two requests. -/
theorem run_publishes_twoRequests : ∃ s s' : Serving, Publishes s.server s'.server ∧ s'.server.admitted.length = 2 ∧
    s'.server.fifoSequencer.published.length = 2 := by
  obtain ⟨receive, hreceive⟩ : ∃ i, i = Step.sendAndRecv byTime
    (fun _ => { bytes := requestBytes 0 1 ++ requestBytes 0 2 }) (fun _ => {}) := ⟨_, rfl⟩
  obtain ⟨s', hrun, hadmitted, hpublished⟩ : ∃ s', Reaches step (fun _ _ => true = true) (fresh 1 (.ofSize 4) (.ofSize 4))
      ([connect] ++ [receive]) s' ∧ s'.server.admitted.length = 2 ∧ s'.server.fifoSequencer.published.length = 2 := by
    rw [hreceive]
    exact exists_of_execute (by decide +kernel)
  obtain ⟨s, hconnected, hphase, -⟩ := run_connect (.ofSize 4) (.ofSize 4)
  obtain ⟨t, ht, -, hstep⟩ := hrun.last
  obtain rfl := ht.unique hconnected
  rw [hreceive] at hstep
  exact ⟨t, s', run_publishes hconnected ⟨hphase, sorts_byTime⟩ hstep, hadmitted, hpublished⟩

end Serving
end TradingEcosystem
