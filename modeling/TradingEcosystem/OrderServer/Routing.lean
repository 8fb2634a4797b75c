import TradingEcosystem.OrderServer.Admission
import TradingEcosystem.OrderServer.Responses

/-! Where a response goes: a client gets a socket with its first request and keeps it, and the
loop of `run` finds the socket of every client that has one. -/
namespace TradingEcosystem.OrderServer
open Program Runs
variable {s s' t : OrderServer} {socket : SocketId} {r : MEClientResponse} {c : ClientId} {f : Fault} {u : Unit}
  {data : List UInt8}

/-- `cid_tcp_socket_` has an entry for the client, and it is not null. -/
def HasSocket (s : OrderServer) (c : ClientId) : Prop := ∃ socket, s.socketOf c = some socket

/-! ## Receiving -/

/-- A request that becomes pending is one of a client with a socket, and clients keep theirs. -/
structure Took (s s' : OrderServer) : Prop where
  incomingRequests : s'.fifoSequencer.incomingRequests = s.fifoSequencer.incomingRequests
  outgoingResponses : s'.outgoingResponses = s.outgoingResponses
  responded : s'.responded = s.responded
  kept : ∀ c, s.HasSocket c → s'.HasSocket c
  pending : ∀ r ∈ s'.fifoSequencer.pendingClientRequests,
    r ∈ s.fifoSequencer.pendingClientRequests ∨ s'.HasSocket r.request.clientId

instance : IsPreorder OrderServer Took where
  refl _ := ⟨rfl, rfl, rfl, fun _ => id, fun _ => .inl⟩
  trans s s' s'' h h' := by
    refine ⟨h'.incomingRequests.trans h.incomingRequests, h'.outgoingResponses.trans h.outgoingResponses,
      h'.responded.trans h.responded, fun c hc => h'.kept c (h.kept c hc), fun r hr => ?_⟩
    rcases h'.pending r hr with hr | hr
    · exact (h.pending r hr).imp_right (h'.kept _)
    · exact .inr hr

theorem hasSocket_after {a : Admission} {x : SocketId × OMClientRequest} (ha : a.Accepts x) :
    ∃ socket, (a.after x).socketOf x.2.meClientRequest.clientId = some socket := by
  obtain ⟨-, hbound, -⟩ := Admission.after_self (c := ⟨_, ha.1⟩) ha rfl
  exact ⟨x.1, Admission.socketOf_eq_some.mpr ⟨ha.1, hbound⟩⟩

theorem took_examine (socket : SocketId) (rxTime : Nanos) (request : OMClientRequest) :
    Frame Took (examine socket rxTime request) := by
  intro s
  have hrest := frame_examine socket rxTime request s
  have htables := final_examine_toAdmission socket rxTime request s
  have hkept : ∀ c, s.HasSocket c → (final (examine socket rxTime request s)).HasSocket c := by
    rintro c ⟨k, hk⟩
    unfold HasSocket
    rw [htables]
    exact ⟨k, Admission.socketOf_after hk _⟩
  refine ⟨by rw [hrest], by rw [hrest], by rw [hrest], hkept, fun r hr => ?_⟩
  rcases examine_cases socket rxTime request s with ⟨-, -, h⟩ | ⟨-, -, -, h⟩ | ⟨-, h⟩
  · rw [h, final_ok] at hr ⊢
    by_cases ha : s.toAdmission.Accepts (socket, request)
    · rw [afterExamine, if_pos ha] at hr
      rcases List.mem_append.mp hr with hr | hr
      · exact .inl hr
      · rw [List.mem_singleton.mp hr]
        exact .inr (hasSocket_after ha)
    · rw [afterExamine, if_neg ha] at hr
      exact .inl hr
  · rw [h] at hr
    exact .inl hr
  · rw [h] at hr
    exact .inl hr

theorem took_sendAndRecv (socket : SocketId) (bytes : List UInt8) (rxTime : Nanos) (took : Nat) :
    Frame Took (OrderServer.sendAndRecv socket bytes rxTime took) :=
  frame_sendAndRecv took_examine (fun _ _ _ _ => ⟨rfl, rfl, rfl, fun _ => id, fun _ => .inl⟩) socket bytes rxTime took

/-! ## Sending -/

/-- A turn of the loop of `run`. -/
def sendNext : ServerM Unit := do
  let s ← get
  match s.nextResponse with
  | none => return ()
  | some clientResponse => sendResponse clientResponse

theorem drainLoop_succ (turns : Nat) (s : OrderServer) : drainLoop (turns + 1) s =
    if s.nextResponse = none then .ok () s else (do sendNext; drainLoop turns : ServerM Unit) s := by
  rw [drainLoop, bind_of_ok (get_apply)]
  cases h : s.nextResponse with
  | none => rfl
  | some r =>
    have hnext : sendNext s = sendResponse r s := by
      rw [sendNext, bind_of_ok (get_apply), h]
    rw [if_neg (Option.some_ne_none r)]
    exact bind_apply_congr hnext.symm

/-- Bytes are appended for a socket, and nothing else. -/
structure Appended (s s' : OrderServer) : Prop where
  admission : s'.toAdmission = s.toAdmission
  sequencer : s'.fifoSequencer = s.fifoSequencer
  responded : s'.responded = s.responded
  outgoingResponses : s'.outgoingResponses = s.outgoingResponses
  received : ∀ k, (s'.sockets k).nextRcvValidIndex = (s.sockets k).nextRcvValidIndex

/-- A turn of the loop, which may have released the slot that it read. -/
structure Turned (s s' : OrderServer) : Prop where
  admission : s'.toAdmission = s.toAdmission
  sequencer : s'.fifoSequencer = s.fifoSequencer
  responded : s'.responded = s.responded
  outgoingResponses : s'.outgoingResponses = s.outgoingResponses ∨
    (∃ r, s.outgoingResponses.getNextToRead = some r) ∧
      s'.outgoingResponses = final (LFQueue.updateReadIndex s.outgoingResponses)
  received : ∀ k, (s'.sockets k).nextRcvValidIndex = (s.sockets k).nextRcvValidIndex

theorem Appended.trans (h : Appended s t) (h' : Appended t s') : Appended s s' where
  admission := h'.admission.trans h.admission
  sequencer := h'.sequencer.trans h.sequencer
  responded := h'.responded.trans h.responded
  outgoingResponses := h'.outgoingResponses.trans h.outgoingResponses
  received k := (h'.received k).trans (h.received k)

theorem Appended.turned (h : Appended s s') : Turned s s' :=
  ⟨h.admission, h.sequencer, h.responded, .inl h.outgoingResponses, h.received⟩

/-- Appending bytes succeeds or overruns the buffer. -/
theorem onSocket_send_cases (socket : SocketId) (data : List UInt8) (s : OrderServer) :
    (∃ s', onSocket socket (TCPSocket.send data) s = .ok () s' ∧ Appended s s') ∨
      ∃ s', onSocket socket (TCPSocket.send data) s = .error .overrun s' ∧ Appended s s' := by
  have happended : ∀ c : TCPSocket, c.nextRcvValidIndex = (s.sockets socket).nextRcvValidIndex →
      Appended s (putSocket socket s c) := fun c hc => by
    refine ⟨rfl, rfl, rfl, rfl, fun k => ?_⟩
    by_cases hk : k = socket
    · rw [hk, putSocket_self, hc]
    · rw [putSocket_of_ne hk]
  by_cases hroom : (s.sockets socket).nextSendValidIndex + data.length ≤ TCPBufferSize
  · exact .inl ⟨_, focus_of_ok (TCPSocket.send_of_room hroom), happended _ rfl⟩
  · exact .inr ⟨_, focus_of_error (TCPSocket.send_of_full hroom), happended _ rfl⟩

/-- Releasing a slot succeeds unless the queue says that it holds nothing. -/
theorem updateReadIndex_cases {T : Type} (q : LFQueue T) : (∃ q', LFQueue.updateReadIndex q = .ok () q') ∨
    ∃ q', LFQueue.updateReadIndex q = .error LFQueue.invalidElement q' := by
  unfold LFQueue.updateReadIndex
  dsimp only
  split_ifs
  · exact .inl ⟨_, rfl⟩
  · exact .inr ⟨_, rfl⟩

/-- How a response to a client with a socket can fail to go out. -/
def NotSent (f : Fault) : Prop := f = .overrun ∨ f = LFQueue.invalidElement

theorem NotSent.ne_noSocket (h : NotSent f) (c : ClientId) : f ≠ noSocket c := by
  rcases h with rfl | rfl
  · exact nofun
  · intro he
    injection he with hmsg
    have hfirst := congrArg (fun msg : String => msg.toList.head?) hmsg
    simp at hfirst

theorem sendResponse_cases (hc : s.HasSocket r.clientId) (hread : s.outgoingResponses.getNextToRead = some r) :
    (∃ s', sendResponse r s = .ok () s' ∧ Turned s s') ∨
      ∃ f s', sendResponse r s = .error f s' ∧ NotSent f ∧ Turned s s' := by
  obtain ⟨socket, hsocket⟩ := hc
  obtain ⟨cid, -, hsend⟩ := sendResponse_of_socket hsocket
  rw [hsend]
  rcases onSocket_send_cases socket (Codec.u64.encode (s.nextSeqNum r)) s with
    ⟨s₁, h₁, happ₁⟩ | ⟨s₁, h₁, happ₁⟩
  · rw [bind_of_ok h₁]
    rcases onSocket_send_cases socket r.encode s₁ with ⟨s₂, h₂, happ₂⟩ | ⟨s₂, h₂, happ₂⟩
    · obtain ⟨hadmission, hsequencer, hresponded, hqueue, hreceived⟩ := happ₁.trans happ₂
      rw [bind_of_ok h₂, release]
      rcases updateReadIndex_cases s₂.outgoingResponses with ⟨q, hq⟩ | ⟨q, hq⟩
      · have hresponses : onResponses LFQueue.updateReadIndex s₂ = .ok () { s₂ with outgoingResponses := q } :=
          focus_of_ok hq
        rw [bind_of_ok hresponses]
        refine .inl ⟨_, rfl, hadmission, hsequencer, hresponded, .inr ⟨⟨r, hread⟩, ?_⟩, hreceived⟩
        rw [← hqueue, hq]
        rfl
      · have hresponses : onResponses LFQueue.updateReadIndex s₂ =
            .error LFQueue.invalidElement { s₂ with outgoingResponses := q } := focus_of_error hq
        refine .inr ⟨_, _, bind_of_error hresponses, .inr rfl, hadmission, hsequencer, hresponded, .inr ⟨⟨r, hread⟩, ?_⟩, hreceived⟩
        rw [← hqueue, hq]
        rfl
    · exact .inr ⟨_, s₂, bind_of_error h₂, .inl rfl, (happ₁.trans happ₂).turned⟩
  · exact .inr ⟨_, s₁, bind_of_error h₁, .inl rfl, happ₁.turned⟩

/-- The responses in the queue are for clients with a socket. -/
def Routable (s : OrderServer) : Prop := LFQueue.Filled (fun r => s.HasSocket r.clientId) s.outgoingResponses

theorem nextResponse_getNextToRead (h : s.nextResponse = some r) : s.outgoingResponses.getNextToRead = some r := by
  unfold nextResponse at h
  split_ifs at h
  exact h

theorem Turned.filled {P : MEClientResponse → Prop} (h : Turned s s') (hs : s.outgoingResponses.Filled P) :
    s'.outgoingResponses.Filled P := by
  rcases h.outgoingResponses with hq | ⟨⟨r, hread⟩, hq⟩
  · rw [hq]
    exact hs
  · rw [hq]
    exact hs.updateReadIndex hread

theorem Routable.turned (hs : s.Routable) (h : Turned s s') : s'.Routable := by
  unfold Routable HasSocket
  rw [h.admission]
  exact h.filled hs

/-- A turn of the loop finds the socket that it asks for. -/
theorem sendNext_cases (hs : s.Routable) :
    (∃ s', sendNext s = .ok () s' ∧ Turned s s') ∨ ∃ f s', sendNext s = .error f s' ∧ NotSent f ∧ Turned s s' := by
  rw [sendNext, bind_of_ok (get_apply)]
  cases hnext : s.nextResponse with
  | none => exact .inl ⟨s, rfl, rfl, rfl, rfl, .inl rfl, fun _ => rfl⟩
  | some r =>
    have hread := nextResponse_getNextToRead hnext
    exact sendResponse_cases (hs.of_getNextToRead hread) hread

/-- The whole loop never fails the assertion on a socket. -/
theorem drain_routable (hs : s.Routable) (h : drain s = .error f s') (c : ClientId) : f ≠ noSocket c := by
  have hloop : ∀ turns s, s.Routable → drainLoop turns s = .error f s' → f ≠ noSocket c := by
    intro turns
    induction turns with
    | zero =>
      intro s _ h
      cases h
      exact nofun
    | succ turns ih =>
      intro s hs h
      rw [drainLoop_succ] at h
      split_ifs at h
      rcases sendNext_cases hs with ⟨s₁, h₁, ht⟩ | ⟨f₁, s₁, h₁, hf, -⟩
      · rw [bind_of_ok h₁] at h
        exact ih s₁ (hs.turned ht) h
      · rw [bind_of_error h₁] at h
        cases h
        exact hf.ne_noSocket c
  exact hloop _ s hs ((bind_of_ok (get_apply)).symm.trans h)

end TradingEcosystem.OrderServer
