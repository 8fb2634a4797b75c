import TradingEcosystem.Exchange
import TradingEcosystem.MatchingEngine.Delivery
import TradingEcosystem.OrderServer.Publishing
import TradingEcosystem.OrderServer.Outbound

/-! What becomes of the requests in the exchange: each admitted one is processed once, and what the engine says
about it goes out once, as long as neither queue is overfull. -/
namespace TradingEcosystem
open Program Runs

namespace OrderServer
variable {s s' : OrderServer} {l : List MEClientResponse} {ms : List OMClientResponse} {u : Unit}

theorem admits_sendAndRecv (socket : SocketId) (bytes : List UInt8) (rxTime : Nanos) (took : Nat) :
    Returns Admits (step (.sendAndRecv socket bytes rxTime took)) := by
  have hreceive : Returns Admits (TCPSocket.receive (onSocket socket) (recvCallback socket rxTime) bytes) :=
    .ite (.pure _) (.bind (admits_onSocket _ _) fun _ => admits_recvCallback _ _)
  exact .bind (.bind hreceive fun _ => .bind (admits_onSocket _ _) fun _ => .pure _) fun _ => .pure _

/-- A turn of the loop that returns has sent the first response that waits. -/
theorem sendNext_ok (hw : Waiting s l) (ht : Told s ms) (h : sendNext s = .ok u s') :
    s'.toAdmission = s.toAdmission ∧ s'.fifoSequencer = s.fifoSequencer ∧ s'.responded = s.responded ∧
      Waiting s' l.tail ∧ ∃ ms', Told s' ms' := by
  cases l with
  | nil =>
    rw [sendNext, bind_of_ok get_apply, nextResponse_nil hw] at h
    cases h
    exact ⟨rfl, rfl, rfl, hw, ms, ht⟩
  | cons r l =>
    have hnext : sendNext s = sendResponse r s := by
      rw [sendNext, bind_of_ok get_apply, nextResponse_cons hw]
    rw [hnext] at h
    have hsequencer : Frame (Fixes fun s : OrderServer => s.fifoSequencer) (sendResponse r) :=
      frame_sendResponse (fun _ _ _ _ _ => rfl) (fun _ _ => .focus fun _ => rfl) r
    cases hsocket : s.socketOf r.clientId with
    | none =>
      obtain ⟨f, hf, -⟩ := sendResponse_of_none hsocket
      rw [hf] at h
      cases h
    | some socket =>
      by_cases hroom : (s.sockets socket).nextSendValidIndex + OMClientResponse.size ≤ TCPBufferSize
      · obtain ⟨t, hsend, hq, -, hone⟩ := sendResponse_ok hsocket hroom hw.queue
        have hsame := hsequencer.of_ok h
        rw [hsend] at h
        cases h
        exact ⟨hone.admission, hsame, hone.responded, hw.sent hone hq, _, ht.sent hone hsocket⟩
      · obtain ⟨t, hfull⟩ := sendResponse_of_full hsocket (Nat.lt_of_not_le hroom)
        rw [hfull] at h
        cases h

/-- Nothing is sent, and clients keep their sockets. -/
theorem Told.same (h : Told s ms) (hadmission : s'.toAdmission = s.toAdmission) (hsockets : s'.sockets = s.sockets)
    (hdrained : s'.drained = s.drained) (hcounters : s'.cidNextOutgoingSeqNum = s.cidNextOutgoingSeqNum) : Told s' ms := by
  obtain ⟨hd, hb, ha, hn, hc⟩ := h
  rw [← hadmission] at hb ha
  exact ⟨hd.trans hdrained.symm, hb, fun k => (congrArg (fun f => (f k).appended) hsockets).trans (ha k), hn,
    fun c => (congrFun hcounters c).trans (hc c)⟩

end OrderServer

namespace Exchange
open OrderServer MatchingEngine
variable {x x' : Exchange} {strict : Bool} {done waiting : List MEClientRequest} {unsent unread : List MEClientResponse}
  {ms : List OMClientResponse} {is : List Step} {i : Step} {u : Unit} {r : MEClientRequest}

/-- Neither queue gets overfull: a batch is published when there is room for all of it, and a response is sent when there
is room for one more. -/
def Fits (x : Exchange) : Step → Prop
  | .recvFinishedCallBack _ => x.server.fifoSequencer.incomingRequests.unread.length +
      x.server.fifoSequencer.pendingClientRequests.length < x.server.fifoSequencer.incomingRequests.size
  | .sendClientResponse => x.server.outgoingResponses.unread.length + 1 < x.server.outgoingResponses.size
  | .sendAndRecv .. | .processNext | .sendNext => True

instance (x : Exchange) (i : Step) : Decidable (Fits x i) :=
  match i with
  | .recvFinishedCallBack _ | .sendClientResponse => Nat.decLt ..
  | .sendAndRecv .. | .processNext | .sendNext => instDecidableTrue

/-- Where the requests and the responses are. The engine processed `done`, the requests `waiting` are in its queue, and
the rest of the admitted ones is pending. Of the responses of the engine the last ones are `unsent`, those before
are `unread` in the other queue, and the first ones are on their way to their clients. -/
structure Flow (strict : Bool) (x : Exchange) (done waiting : List MEClientRequest) (unsent unread : List MEClientResponse) :
    Prop where
  admitted : (done ++ waiting ++ x.server.fifoSequencer.pendingClientRequests.map (·.request)).Perm
    (x.server.admitted.map (·.2.meClientRequest))
  published : x.server.fifoSequencer.published.map (·.request) = done ++ waiting
  requests : x.server.fifoSequencer.incomingRequests.Holds done.length waiting
  running : x.engineStop = none → Reaches processClientRequest (fun _ _ => True) (MatchingEngine.fresh strict) done x.engine
  stopped : ∀ f, x.engineStop = some f → ∃ r e, waiting.head? = some r ∧
    Reaches processClientRequest (fun _ _ => True) (MatchingEngine.fresh strict) done e ∧
    processClientRequest r e = .error f x.engine
  produced : x.engine.clientResponses = x.server.responded ++ unsent
  responses : Waiting x.server unread

theorem flow_fresh (strict : Bool) : Flow strict (fresh strict) [] [] [] [] where
  admitted := .refl _
  published := rfl
  requests := LFQueue.holds_ofSize (by decide) (by decide)
  running _ := .start
  stopped _ h := by cases h
  produced := rfl
  responses := ⟨rfl, LFQueue.holds_ofSize (by decide) (by decide)⟩

theorem told_fresh (strict : Bool) : Told (fresh strict).server [] :=
  ⟨rfl, fun _ hm => absurd hm List.not_mem_nil, fun _ => rfl, fun _ => rfl, fun _ => rfl⟩

theorem Flow.sendAndRecv {s' : OrderServer} (h : Flow strict x done waiting unsent unread) (hadmits : Admits x.server s')
    (hunsent : Unsent x.server s') : Flow strict (x.withServer s') done waiting unsent unread where
  admitted := by
    obtain ⟨m, hm, hpending⟩ := hadmits.waiting
    simp only [withServer, hm, hpending, List.map_append]
    rw [← List.append_assoc]
    exact h.admitted.append_right _
  published := by
    simp only [withServer, hadmits.published]
    exact h.published
  requests := by
    simp only [withServer, hadmits.incomingRequests]
    exact h.requests
  running := h.running
  stopped := h.stopped
  produced := by
    simp only [withServer, hunsent.responded]
    exact h.produced
  responses := h.responses.congr hunsent

theorem Flow.recvFinishedCallBack {sorted : List RecvTimeClientRequest} (h : Flow strict x done waiting unsent unread)
    (hs : FIFOSequencer.Sorts x.server.fifoSequencer.pendingClientRequests sorted) (hfits : Fits x (.recvFinishedCallBack sorted)) :
    Flow strict (x.withServer { x.server with fifoSequencer := x.server.fifoSequencer.sequenced sorted }) done
      (waiting ++ sorted.map (·.request)) unsent unread where
  admitted := by
    simp only [withServer, FIFOSequencer.sequenced, List.map_nil, List.append_nil]
    rw [← List.append_assoc]
    exact ((hs.perm.map _).append_left _).trans h.admitted
  published := by
    simp only [withServer, FIFOSequencer.sequenced, List.map_append, h.published, List.append_assoc]
  requests := by
    have hroom : waiting.length + (sorted.map (·.request)).length < x.server.fifoSequencer.incomingRequests.size := by
      rw [List.length_map, hs.perm.length_eq, ← h.requests.unread_eq]
      exact hfits
    exact h.requests.writeAll hroom
  running := h.running
  stopped f hf := by
    obtain ⟨r, e, hr, hrest⟩ := h.stopped f hf
    exact ⟨r, e, by rw [List.head?_append, hr]; rfl, hrest⟩
  produced := h.produced
  responses := ⟨h.responses.responded, h.responses.queue⟩

/-- The engine takes the request at the front of the queue, or stops there. -/
theorem Flow.processNext (h : Flow strict x done (r :: waiting) unsent unread) (hready : Ready x .processNext) :
    ∃ x' l, step .processNext x = .ok () x' ∧
      ((Flow strict x' done (r :: waiting) l unread ∧ x'.engineStop ≠ none) ∨
        (Flow strict x' (done ++ [r]) waiting l unread ∧ x'.engineStop = none)) := by
  obtain ⟨hstop, hsent⟩ := hready
  have hnil : unsent = [] := by
    have hlen := congrArg List.length h.produced
    rw [List.length_append] at hlen
    exact List.length_eq_zero_iff.mp (by omega)
  obtain ⟨q', hq', hholds, -⟩ := h.requests.updateReadIndex_eq
  rcases processNext_of_next h.requests.getNextToRead_eq with ⟨f, e, hp, hstep⟩ | ⟨e, q, hp, hq, hstep⟩
  · -- the engine stops, and the request stays where it is
    obtain ⟨l, hl⟩ : x.engine.clientResponses <+: e.clientResponses := by
      have hgrows := Delivery.responses_request r x.engine
      rwa [hp] at hgrows
    have hstopped : some f ≠ none := Option.some_ne_none f
    refine ⟨_, l, hstep, .inl ⟨⟨h.admitted, h.published, h.requests, fun hn => absurd hn hstopped, fun f' hf' => ?_, ?_,
      h.responses⟩, hstopped⟩⟩
    · cases hf'
      exact ⟨r, x.engine, rfl, h.running hstop, hp⟩
    · rw [← hl, h.produced, hnil, List.append_nil]
  · obtain rfl : q = q' := by rw [← hq, hq', final_ok]
    obtain ⟨l, hl⟩ : x.engine.clientResponses <+: e.clientResponses := by
      have hgrows := Delivery.responses_request r x.engine
      rwa [hp] at hgrows
    have hreturns : step .processNext x = .ok () { x.withRequests q with engine := e } := by
      rw [show step .processNext = Exchange.processNext from rfl, Exchange.processNext, bind_of_ok get_apply,
        h.requests.getNextToRead_eq]
      dsimp only [List.head?_cons]
      rw [hp]
      exact (bind_of_ok (modify_apply _)).trans (focus_of_ok hq')
    have hsplit : done ++ r :: waiting = (done ++ [r]) ++ waiting := by simp
    refine ⟨_, l, hreturns, .inr ⟨⟨?_, ?_, ?_, fun _ => .call (h.running hstop) trivial hp, fun f hf => ?_, ?_,
      h.responses.responded, h.responses.queue⟩, hstop⟩⟩
    · rw [← hsplit]
      exact h.admitted
    · rw [← hsplit]
      exact h.published
    · rw [List.length_append]
      exact hholds
    · exact absurd (hf.symm.trans hstop) (Option.some_ne_none f)
    · rw [← hl, h.produced, hnil, List.append_nil]
      rfl

/-- The first unsent response is written to the queue. -/
theorem Flow.sendClientResponse {m : MEClientResponse} (h : Flow strict x done waiting (m :: unsent) unread)
    (hfits : Fits x .sendClientResponse) :
    step .sendClientResponse x = .ok () (x.withServer { x.server with
        outgoingResponses := x.server.outgoingResponses.write m, responded := x.server.responded ++ [m] }) ∧
      Flow strict (x.withServer { x.server with
        outgoingResponses := x.server.outgoingResponses.write m, responded := x.server.responded ++ [m] })
        done waiting unsent (unread ++ [m]) := by
  have hget : x.engine.clientResponses[x.server.responded.length]? = some m := by
    rw [h.produced, List.getElem?_append_right (Nat.le_refl _), Nat.sub_self]
    rfl
  have hroom : unread.length + 1 < x.server.outgoingResponses.size := by
    rw [← h.responses.queue.unread_eq]
    exact hfits
  refine ⟨?_, h.admitted, h.published, h.requests, h.running, h.stopped, ?_, ?_, ?_⟩
  · rw [show step .sendClientResponse x = Exchange.sendClientResponse x from rfl, Exchange.sendClientResponse,
      bind_of_ok get_apply, hget]
    rfl
  · simp only [withServer, h.produced, List.append_assoc, List.singleton_append]
  · simp only [withServer, h.responses.responded, List.append_assoc]
  · exact h.responses.queue.write_of_room hroom

theorem Flow.sendNext (h : Flow strict x done waiting unsent unread) (ht : Told x.server ms)
    (hr : step .sendNext x = .ok u x') : ∃ ms', Flow strict x' done waiting unsent unread.tail ∧ Told x'.server ms' := by
  obtain ⟨s', hs, rfl⟩ := focus_eq_ok.mp hr
  obtain ⟨hadmission, hsequencer, hresponded, hwaiting, ms', ht'⟩ := sendNext_ok h.responses ht hs
  refine ⟨ms', ⟨?_, ?_, ?_, h.running, h.stopped, ?_, hwaiting⟩, ht'⟩
  · simp only [withServer, hadmission, hsequencer]
    exact h.admitted
  · simp only [withServer, hsequencer]
    exact h.published
  · simp only [withServer, hsequencer]
    exact h.requests
  · simp only [withServer, hresponded]
    exact h.produced

/-- Every step moves requests and responses on by one place at most, and loses none. -/
theorem Flow.step (h : Flow strict x done waiting unsent unread) (ht : Told x.server ms) (hready : Ready x i)
    (hfits : Fits x i) (hr : Exchange.step i x = .ok u x') :
    ∃ done' waiting' unsent' unread' ms', Flow strict x' done' waiting' unsent' unread' ∧ Told x'.server ms' := by
  cases i with
  | sendAndRecv socket bytes rxTime took =>
    obtain ⟨s', hs, rfl⟩ := focus_eq_ok.mp hr
    have hunsent := (unsent_step (.inl ⟨socket, bytes, rxTime, took, rfl⟩)).of_ok hs
    exact ⟨done, waiting, unsent, unread, ms, h.sendAndRecv (admits_sendAndRecv _ _ _ _ _ _ _ hs) hunsent, ht.congr hunsent⟩
  | recvFinishedCallBack sorted =>
    rw [show Exchange.step (.recvFinishedCallBack sorted) x = _ from focus_of_ok (OrderServer.recvFinishedCallBack_apply hready)] at hr
    cases hr
    exact ⟨done, _, unsent, unread, ms, h.recvFinishedCallBack hready hfits, ht.same rfl rfl rfl rfl⟩
  | processNext =>
    have hsame : Told x'.server ms := by
      obtain ⟨q, hq⟩ := server_processNext x
      rw [hr, final_ok] at hq
      rw [hq]
      exact ht.same rfl rfl rfl rfl
    cases waiting with
    | nil =>
      rw [processNext_of_none h.requests.getNextToRead_eq] at hr
      cases hr
      exact ⟨done, [], unsent, unread, ms, h, ht⟩
    | cons r waiting =>
      obtain ⟨x₁, l, hstep, ⟨h', -⟩ | ⟨h', -⟩⟩ := h.processNext hready
      · rw [hstep] at hr
        cases hr
        exact ⟨done, r :: waiting, l, unread, ms, h', hsame⟩
      · rw [hstep] at hr
        cases hr
        exact ⟨done ++ [r], waiting, l, unread, ms, h', hsame⟩
  | sendClientResponse =>
    cases unsent with
    | nil =>
      have hget : x.engine.clientResponses[x.server.responded.length]? = none := by
        rw [h.produced, List.append_nil, List.getElem?_eq_none (Nat.le_refl _)]
      rw [show step .sendClientResponse x = Exchange.sendClientResponse x from rfl, Exchange.sendClientResponse,
        bind_of_ok get_apply, hget] at hr
      cases hr
      exact ⟨done, waiting, [], unread, ms, h, ht⟩
    | cons m unsent =>
      obtain ⟨hstep, h'⟩ := h.sendClientResponse hfits
      rw [hstep] at hr
      cases hr
      exact ⟨done, waiting, unsent, unread ++ [m], ms, h', ht.same rfl rfl rfl rfl⟩
  | sendNext =>
    obtain ⟨ms', h', ht'⟩ := h.sendNext ht hr
    exact ⟨done, waiting, unsent, unread.tail, ms', h', ht'⟩

/-- In every run in which neither queue gets overfull, whatever the threads do in between: each admitted request is pending,
in the queue of the engine or processed, in one of these places and once; the engine is where the processed ones alone
bring it; and each of its responses is unsent, in the other queue or in the bytes for the socket of its client, once and
in the order in which the engine gave them. -/
theorem run_exactlyOnce (h : Reaches step (fun x i => Ready x i ∧ Fits x i) (fresh strict) is x) :
    ∃ done waiting unsent unread ms, Flow strict x done waiting unsent unread ∧ Told x.server ms := by
  induction h with
  | start => exact ⟨[], [], [], [], [], flow_fresh strict, told_fresh strict⟩
  | call run ok returns ih =>
    obtain ⟨done, waiting, unsent, unread, ms, hflow, ht⟩ := ih
    exact hflow.step ht ok.1 ok.2 returns

/-- Client 3 sells and client 4 buys in one batch. The fill is sent to the seller last, and not yet. -/
def oneBatch : List Step :=
  [.sendAndRecv 7 (orderBytes 3 .SELL 10) 0 0, .sendAndRecv 8 (orderBytes 4 .BUY 5) 0 0,
    .recvFinishedCallBack [arrived 3 .SELL 10 0, arrived 4 .BUY 5 1], .processNext, .sendClientResponse, .sendNext, .processNext,
    .sendClientResponse, .sendClientResponse, .sendNext, .sendNext]

theorem run_exactlyOnce_oneBatch : ∃ x done waiting unsent unread ms,
    Reaches step (fun x i => Ready x i ∧ Fits x i) (fresh true) oneBatch x ∧ x.server.admitted.length = 2 ∧
    x.server.drained.length = 3 ∧ Flow true x done waiting unsent unread ∧ Told x.server ms := by
  obtain ⟨x, hrun, hlen⟩ : ∃ x, Reaches step (fun x i => Ready x i ∧ Fits x i) (fresh true) oneBatch x ∧
      x.server.admitted.length = 2 ∧ x.server.drained.length = 3 := exists_of_guarded (by decide +kernel)
  obtain ⟨done, waiting, unsent, unread, ms, hflow, ht⟩ := run_exactlyOnce hrun
  exact ⟨x, done, waiting, unsent, unread, ms, hrun, hlen.1, hlen.2, hflow, ht⟩

end Exchange
end TradingEcosystem
