import TradingEcosystem.OrderServer.Faults

/-! How many responses the loop of `run` can append for one socket: its buffer is emptied only by the
next `sendAndRecv` of the TCP server, and `TCPSocket::send` does not look at what is left of it. -/
namespace TradingEcosystem
open Program Runs

namespace OrderServer
open TCPServer
variable {s s' o o' : OrderServer} {socket listener k : SocketId} {c : Call} {calls : List Call} {recv : Bool} {u : Unit}
  {r : MEClientResponse}

/-! ## The turns of the inner loop -/

/-- A client without a socket stops the server before anything is appended. -/
theorem sendResponse_of_none (h : s.socketOf r.clientId = none) : ∃ f, sendResponse r s = .error f s ∧ f ≠ .overrun := by
  unfold Admission.socketOf at h
  split_ifs at h with hr
  · have hindex : clientIndex r.clientId s = .ok ⟨r.clientId.toNat, hr⟩ s := by
      rw [clientIndex, dif_pos hr]
      rfl
    have htcp : tcpSocket r.clientId ⟨r.clientId.toNat, hr⟩ s = .error (noSocket r.clientId) s := by
      rw [tcpSocket, bind_of_ok (get_apply), h]
      rfl
    refine ⟨noSocket r.clientId, ?_, Fault.noConfusion⟩
    rw [sendResponse, bind_of_ok hindex, bind_of_error htcp]
  · have hindex : clientIndex r.clientId s = .error .outOfRange s := by
      rw [clientIndex, dif_neg hr]
      rfl
    exact ⟨.outOfRange, bind_of_error hindex, Fault.noConfusion⟩

/-- A message that does not fit into the buffer overruns it with one of its parts. -/
theorem sendResponse_of_full (hsocket : s.socketOf r.clientId = some socket)
    (hfull : TCPBufferSize < (s.sockets socket).nextSendValidIndex + OMClientResponse.size) :
    ∃ s', sendResponse r s = .error .overrun s' := by
  obtain ⟨cid, -, hsend⟩ := sendResponse_of_socket hsocket
  have hsize := length_parts s r
  rw [hsend]
  by_cases hroom : (s.sockets socket).nextSendValidIndex + (Codec.u64.encode (s.nextSeqNum r)).length ≤ TCPBufferSize
  · obtain ⟨c, hc, -, hindex⟩ : ∃ c, onSocket socket (TCPSocket.send (Codec.u64.encode (s.nextSeqNum r))) s =
        .ok () (putSocket socket s c) ∧ _ := onSocket_send hroom
    have hself : (putSocket socket s c).sockets socket = c := putSocket_self ..
    rw [bind_of_ok hc]
    exact ⟨_, bind_of_error (focus_of_error (TCPSocket.send_of_full (by rw [hself]; omega)))⟩
  · exact ⟨_, bind_of_error (focus_of_error (TCPSocket.send_of_full hroom))⟩

/-- A turn overruns a buffer exactly if the message does not fit into the buffer of its socket. -/
theorem sendResponse_overruns_iff : (∃ s', sendResponse r s = .error .overrun s') ↔
    ∃ k, s.socketOf r.clientId = some k ∧ TCPBufferSize < (s.sockets k).nextSendValidIndex + OMClientResponse.size := by
  constructor
  · rintro ⟨s', h⟩
    cases hsocket : s.socketOf r.clientId with
    | none =>
      obtain ⟨f, hf, hne⟩ := sendResponse_of_none hsocket
      rw [hf] at h
      cases h
      exact absurd rfl hne
    | some k =>
      refine ⟨k, rfl, not_le.mp fun hroom => ?_⟩
      obtain ⟨cid, c, -, hsend, -⟩ := sendResponse_of_room hsocket hroom
      rw [hsend] at h
      exact raises_release r cid _ _ _ h
  · rintro ⟨k, hsocket, hfull⟩
    exact sendResponse_of_full hsocket hfull

/-- A turn that returns has appended a whole message for the socket of the client. -/
theorem sendResponse_advances (h : sendResponse r s = .ok u s') :
    ∃ k, s.socketOf r.clientId = some k ∧ s'.toAdmission = s.toAdmission ∧
      (s.sockets k).nextSendValidIndex + OMClientResponse.size ≤ TCPBufferSize ∧
      (s'.sockets k).nextSendValidIndex = (s.sockets k).nextSendValidIndex + OMClientResponse.size ∧
      ∀ k', k' ≠ k → s'.sockets k' = s.sockets k' := by
  cases hsocket : s.socketOf r.clientId with
  | none =>
    obtain ⟨f, hf, -⟩ := sendResponse_of_none hsocket
    rw [hf] at h
    cases h
  | some k =>
    have hroom : (s.sockets k).nextSendValidIndex + OMClientResponse.size ≤ TCPBufferSize := not_lt.mp fun hfull => by
      obtain ⟨_, hover⟩ := sendResponse_of_full hsocket hfull
      rw [hover] at h
      cases h
    obtain ⟨cid, c, -, hsend, -, hindex⟩ := sendResponse_of_room hsocket hroom
    have hrest : Frame (Fixes fun s : OrderServer => (s.toAdmission, s.sockets)) (release r cid) :=
      .bind (.focus fun _ => rfl) fun _ => .modify fun _ => rfl
    rw [hsend] at h
    have hsame := hrest.of_ok h
    simp only [Fixes, Prod.mk.injEq] at hsame
    refine ⟨k, rfl, hsame.1, hroom, ?_, fun k' hk => ?_⟩
    · rw [hsame.2, putSocket_self]
      exact hindex
    · rw [hsame.2, putSocket_of_ne hk]

/-! ## The calls of a round -/

/-- Receiving on a socket sends nothing, and binds clients to that socket only. -/
structure Binds (socket : SocketId) (s s' : OrderServer) : Prop where
  sending : SendsNothing s s'
  bound : ∀ cid k, s'.cidTcpSocket cid = some k → s.cidTcpSocket cid = some k ∨ k = socket

instance (socket : SocketId) : IsPreorder OrderServer (Binds socket) where
  refl s := ⟨refl_of SendsNothing s, fun _ _ => .inl⟩
  trans s t s' h h' := by
    refine ⟨trans_of SendsNothing h.sending h'.sending, fun cid k hk => ?_⟩
    rcases h'.bound cid k hk with hk | hk
    · exact h.bound cid k hk
    · exact .inr hk

theorem binds_examine (socket : SocketId) (rxTime : Nanos) (request : OMClientRequest) :
    Frame (Binds socket) (examine socket rxTime request) := by
  intro s
  have hrest := frame_examine socket rxTime request s
  have htables := final_examine_toAdmission socket rxTime request s
  refine ⟨fun k => by rw [hrest.sockets], fun cid k hk => ?_⟩
  rw [htables] at hk
  exact Admission.bound_of_after hk

theorem binds_putSocket {t : TCPSocket} (h : t.sendSide = (s.sockets socket).sendSide) : Binds socket s (putSocket socket s t) :=
  ⟨sendsNothing_putSocket h, fun _ _ => .inl⟩

theorem binds_receive (listener : SocketId) (c : Call) : Frame (Binds c.socket) (TCPSocket.receive (onSocket c.socket)
    (if c.socket = listener then return () else recvCallback c.socket c.rxTime) c.bytes) := by
  have hmove : ∀ i, Frame (Binds c.socket) (onSocket c.socket (moveLeftover i)) := fun i =>
    .focus fun s => binds_putSocket (sendSide_moveLeftover i _)
  have hrecv : Frame (Binds c.socket) (onSocket c.socket (TCPSocket.recvmsg c.bytes)) := .focus fun s => binds_putSocket rfl
  refine .ite (.pure _) (.bind hrecv fun _ => .ite (.pure _) ?_)
  exact frame_recvCallback (binds_examine c.socket) hmove c.rxTime

/-- The buffers of the sockets in `ks` are empty, the others as they were, and clients were bound
to sockets in `ks` only. -/
structure Flushed (ks : List SocketId) (s s' : OrderServer) : Prop where
  index : ∀ k, (s'.sockets k).nextSendValidIndex = if k ∈ ks then 0 else (s.sockets k).nextSendValidIndex
  bound : ∀ cid k, s'.cidTcpSocket cid = some k → s.cidTcpSocket cid = some k ∨ k ∈ ks

theorem SendsNothing.index (h : SendsNothing s s') (k : SocketId) :
    (s'.sockets k).nextSendValidIndex = (s.sockets k).nextSendValidIndex := congrArg (·.2.1) (h k)

theorem flushed_call (h : Serving.socketCall listener c o = .ok recv o') : Flushed [c.socket] o o' := by
  obtain ⟨_, o₁, hreceive, h⟩ := bind_eq_ok.mp h
  obtain ⟨_, o₂, hflush, h⟩ := bind_eq_ok.mp h
  cases h
  obtain ⟨_, ht, rfl⟩ := focus_eq_ok.mp hflush
  cases ht
  have hbinds := (binds_receive listener c).of_ok hreceive
  refine ⟨fun k => ?_, fun cid k hk => (hbinds.bound cid k hk).imp_right List.mem_singleton.mpr⟩
  by_cases hk : k = c.socket
  · rw [hk, putSocket_self, if_pos (List.mem_singleton.mpr rfl)]
    rfl
  · rw [putSocket_of_ne hk, if_neg (List.mem_singleton.not.mpr hk), hbinds.sending.index]

theorem flushed_callAll (h : callAll (Serving.socketCall listener) calls o = .ok recv o') :
    Flushed (calls.map (·.socket)) o o' := by
  induction calls generalizing o recv with
  | nil =>
    cases h
    exact ⟨fun k => (if_neg (List.not_mem_nil)).symm, fun _ _ => .inl⟩
  | cons c calls ih =>
    obtain ⟨first, o₁, h₁, h⟩ := bind_eq_ok.mp h
    obtain ⟨rest, o₂, h₂, h⟩ := bind_eq_ok.mp h
    cases h
    have hfirst := flushed_call h₁
    have hrest := ih h₂
    refine ⟨fun k => ?_, fun cid k hk => ?_⟩
    · rw [hrest.index, hfirst.index, List.map_cons]
      by_cases hk : k ∈ calls.map (·.socket)
      · rw [if_pos hk, if_pos (List.mem_cons_of_mem _ hk)]
      · by_cases hc : k = c.socket
        · simp [hc]
        · simp only [List.mem_cons, List.not_mem_nil, hc, hk, if_false, or_self]
    · rcases hrest.bound cid k hk with hk | hk
      · exact (hfirst.bound cid k hk).imp_right fun h => by rw [List.mem_singleton.mp h]; exact List.mem_cons_self
      · exact .inr (List.mem_cons_of_mem _ hk)

end OrderServer

namespace Serving
open OrderServer TCPServer
variable {s s' t : Serving} {listener k : SocketId} {events : List Event} {accepted : List Accepted} {a : Accepted} {is : List Step}
  {i : Step} {u : Unit} {r : MEClientResponse} {sort : List RecvTimeClientRequest → List RecvTimeClientRequest}
  {receives sends : SocketId → Input} {clientRequests : LFQueue MEClientRequest} {clientResponses : LFQueue MEClientResponse}

/-- Every response appended since the last `sendAndRecv` is in the buffer of its socket, and nothing
else; the sockets of clients are gone through in every `sendAndRecv`. -/
structure Metered (s : Serving) : Prop where
  index : ∀ k, (s.server.sockets k).nextSendValidIndex = OMClientResponse.size * s.drainedTo k
  fits : ∀ k, (s.server.sockets k).nextSendValidIndex ≤ TCPBufferSize
  received : ∀ k, 0 < s.drainedTo k → k ∈ s.tcpServer.receiveSockets
  bound : ∀ cid k, s.server.cidTcpSocket cid = some k → k ∈ s.tcpServer.receiveSockets

theorem metered_fresh (listener : SocketId) (clientRequests : LFQueue MEClientRequest)
    (clientResponses : LFQueue MEClientResponse) : Metered (fresh listener clientRequests clientResponses) where
  index _ := rfl
  fits _ := Nat.zero_le _
  received _ hk := absurd hk (Nat.lt_irrefl 0)
  bound _ _ hk := nomatch hk

/-! ## `poll` -/

theorem subset_pushNew (socket : SocketId) (l : List SocketId) : l ⊆ pushNew socket l := by
  unfold pushNew
  split_ifs
  · exact List.Subset.refl l
  · exact List.subset_append_left l _

theorem subset_handle (e : Event) (t : TCPServer) : t.receiveSockets ⊆ (t.handle e).1.receiveSockets := by
  have hreceive : ∀ (p : Prop) [Decidable p] (t : TCPServer),
      t.receiveSockets ⊆ (if p then t.receiveFrom e.socket else t).receiveSockets := fun p _ t => by
    split_ifs
    · exact subset_pushNew _ _
    · exact List.Subset.refl _
  have hsend : ∀ (p : Prop) [Decidable p] (t : TCPServer),
      t.receiveSockets ⊆ (if p then t.sendTo e.socket else t).receiveSockets := fun p _ t => by
    split_ifs <;> exact List.Subset.refl _
  unfold handle
  split
  · exact List.Subset.refl _
  · refine List.Subset.trans (hreceive (e.events &&& EPOLLIN ≠ 0) t) ?_
    exact List.Subset.trans (hsend (e.events &&& EPOLLOUT ≠ 0) _) <| hreceive (e.events &&& (EPOLLERR ||| EPOLLHUP) ≠ 0) _

theorem subset_handleAll (events : List Event) (t : TCPServer) : t.receiveSockets ⊆ (t.handleAll events).1.receiveSockets := by
  induction events generalizing t with
  | nil => exact List.Subset.refl _
  | cons e events ih => exact List.Subset.trans (subset_handle e t) (ih _)

/-- More sockets to receive from. -/
theorem Metered.widen (h : Metered s) {t : TCPServer} (ht : s.tcpServer.receiveSockets ⊆ t.receiveSockets) :
    Metered { s with tcpServer := t } :=
  ⟨h.index, h.fits, fun k hk => ht (h.received k hk), fun cid k hk => ht (h.bound cid k hk)⟩

theorem Metered.accept (h : Metered s) (hnew : s.drainedTo a.socket = 0) (hr : accept a s = .ok u s') :
    Metered s' ∧ s'.drainedTo = s.drainedTo := by
  have hput : Metered (s.withServer (putSocket a.socket s.server {})) := by
    refine ⟨fun k => ?_, fun k => ?_, h.received, h.bound⟩
    · dsimp only [withServer]
      by_cases hk : k = a.socket
      · rw [hk, putSocket_self, hnew]
        rfl
      · rw [putSocket_of_ne hk]
        exact h.index k
    · dsimp only [withServer]
      by_cases hk : k = a.socket
      · rw [hk, putSocket_self]
        exact Nat.zero_le _
      · rw [putSocket_of_ne hk]
        exact h.fits k
  unfold Serving.accept at hr
  split_ifs at hr with hconfigured hadded
  · cases hr
  · cases hr
  · cases hr
    exact ⟨hput.widen (subset_pushNew _ _), rfl⟩

theorem Metered.acceptAll (h : Metered s) (hnew : ∀ a ∈ accepted, s.drainedTo a.socket = 0)
    (hr : (forM accepted Serving.accept : ServingM Unit) s = .ok u s') : Metered s' := by
  induction accepted generalizing s with
  | nil =>
    cases hr
    exact h
  | cons a accepted ih =>
    rw [List.forM_cons] at hr
    obtain ⟨_, t, ha, hr⟩ := bind_eq_ok.mp hr
    obtain ⟨ht, hsame⟩ := h.accept (hnew a List.mem_cons_self) ha
    exact ih ht (fun b hb => by rw [hsame]; exact hnew b (List.mem_cons_of_mem _ hb)) hr

theorem Metered.poll (h : Metered s) (hg : Serves s (.poll events accepted)) (hr : step (.poll events accepted) s = .ok u s') :
    Metered s' := by
  obtain ⟨_, s₁, hpoll, hr⟩ := bind_eq_ok.mp hr
  cases hr
  obtain ⟨t, new, hlists, hpoll⟩ := poll_ok hpoll
  have hwide := subset_handleAll events s.tcpServer
  rw [hlists] at hwide
  have hnew : ∀ a ∈ accepted, s.drainedTo a.socket = 0 := fun a ha =>
    Nat.eq_zero_of_not_pos fun hpos => (hg.2.2.2.2 a ha).2 (h.received _ hpos)
  have hs₁ : Metered s₁ := by
    cases new with
    | false =>
      cases hpoll
      exact h.widen hwide
    | true => exact (h.widen hwide).acceptAll hnew hpoll
  exact ⟨hs₁.index, hs₁.fits, hs₁.received, hs₁.bound⟩

/-! ## The other steps -/

theorem sockets_calls (input : SocketId → Input) (l : List SocketId) : (TCPServer.calls input l).map (·.socket) = l :=
  (List.map_map ..).trans (List.map_id l)

/-- A `sendAndRecv` of the TCP server empties every buffer that is not empty. -/
theorem Metered.sendAndRecv (h : Metered s) (hidle : Idle s) (hr : Serving.sendAndRecv sort receives sends s = .ok u s') :
    Metered s' := by
  rw [Serving.sendAndRecv, bind_of_ok (get_apply)] at hr
  obtain ⟨_, s₁, hserver, hr⟩ := bind_eq_ok.mp hr
  cases hr
  obtain ⟨o', hround, rfl⟩ := focus_eq_ok.mp hserver
  clear hserver
  obtain ⟨recv, o₁, h₁, hround⟩ := bind_eq_ok.mp hround
  obtain ⟨_, o₂, h₂, hround⟩ := bind_eq_ok.mp hround
  -- the second loop has no socket to go through
  rw [hidle.sendSockets] at hround
  cases hround
  have hflushed := flushed_callAll h₁
  rw [sockets_calls] at hflushed
  have hpublish : ∀ o : OrderServer, Frame (Fixes fun o : OrderServer => (o.sockets, o.cidTcpSocket))
      (recvFinishedCallBack (sort o.fifoSequencer.pendingClientRequests)) := fun o => .focus fun _ => rfl
  have hsame := (Frame.ite (.bind .get hpublish) (.pure _)).of_ok h₂
  simp only [Fixes, Prod.mk.injEq] at hsame
  have hzero : ∀ k, (o'.sockets k).nextSendValidIndex = 0 := fun k => by
    rw [hsame.1, hflushed.index]
    by_cases hk : k ∈ s.tcpServer.receiveSockets
    · rw [if_pos hk]
    · rw [if_neg hk, h.index, Nat.eq_zero_of_not_pos fun hpos => hk (h.received k hpos), Nat.mul_zero]
  refine ⟨hzero, fun k => (hzero k).trans_le (Nat.zero_le _), fun k hk => absurd hk (Nat.lt_irrefl 0), fun cid k hk => ?_⟩
  change o'.cidTcpSocket cid = some k at hk
  rw [hsame.2] at hk
  exact (hflushed.bound cid k hk).elim (h.bound cid k) id

theorem count_of_socket (h : s.server.socketOf r.clientId = some k) :
    count r s = { s with drainedTo := Function.update s.drainedTo k (s.drainedTo k + 1) } := by rw [count, h]

theorem Metered.sendNext (h : Metered s) (hr : Serving.sendNext s = .ok u s') : Metered s' := by
  rw [Serving.sendNext, bind_of_ok (get_apply)] at hr
  cases hnext : s.server.nextResponse with
  | none =>
    rw [hnext] at hr
    cases hr
    exact ⟨h.index, h.fits, h.received, h.bound⟩
  | some r =>
    rw [hnext] at hr
    obtain ⟨_, s₁, hsend, hr⟩ := bind_eq_ok.mp hr
    cases hr
    obtain ⟨o', ho, rfl⟩ := focus_eq_ok.mp hsend
    obtain ⟨k, hk, hadmission, hroom, hindex, hothers⟩ := sendResponse_advances ho
    have hsocket : (s.withServer o').server.socketOf r.clientId = some k := (congrArg (·.socketOf r.clientId) hadmission).trans hk
    obtain ⟨hr, hbound⟩ := Admission.socketOf_eq_some.mp hk
    rw [count_of_socket hsocket]
    refine ⟨fun k' => ?_, fun k' => ?_, fun k' hk' => ?_, fun cid k' hk' => ?_⟩
    · dsimp only [withServer]
      by_cases he : k' = k
      · rw [he, hindex, h.index, Function.update_self]
        rfl
      · rw [hothers k' he, h.index, Function.update_of_ne he]
    · dsimp only [withServer]
      by_cases he : k' = k
      · rw [he, hindex]
        exact hroom
      · rw [hothers k' he]
        exact h.fits k'
    · by_cases he : k' = k
      · rw [he]
        exact h.bound _ k hbound
      · dsimp only at hk'
        rw [Function.update_of_ne he] at hk'
        exact h.received k' hk'
    · dsimp only [withServer] at hk'
      rw [hadmission] at hk'
      exact h.bound cid k' hk'

theorem Metered.step (h : Metered s) (hidle : Idle s) (hg : Serves s i) (hr : step i s = .ok u s') : Metered s' := by
  cases i with
  | poll events accepted => exact h.poll hg hr
  | sendAndRecv sort receives sends =>
    obtain ⟨_, s₁, hround, hr⟩ := bind_eq_ok.mp hr
    cases hr
    have hs₁ := h.sendAndRecv hidle hround
    exact ⟨hs₁.index, hs₁.fits, hs₁.received, hs₁.bound⟩
  | sendNext => exact h.sendNext hr
  | respond clientResponse =>
    cases hr
    exact ⟨h.index, h.fits, h.received, h.bound⟩
  | takeRequest =>
    obtain ⟨o', ho, rfl⟩ := focus_eq_ok.mp hr
    obtain ⟨q, hq, rfl⟩ := focus_eq_ok.mp ho
    exact ⟨h.index, h.fits, h.received, h.bound⟩

theorem metered_run (h : Reaches step Serves (fresh listener clientRequests clientResponses) is s) : Metered s := by
  have hboth := h.invariant (I := fun _ s => Idle s ∧ Metered s) ⟨⟨rfl, rfl⟩, metered_fresh _ _ _⟩
    fun _ _ _ _ hs hg hr => ⟨hs.1.step hg hr, hs.2.step hs.1 hg hr⟩
  exact hboth.2

/-! ## When a buffer is overrun -/

/-- The buffer that the next turn of the inner loop appends to holds less than it can of the
responses since the last `sendAndRecv`. -/
def Roomy (s : Serving) : Step → Prop
  | .sendNext => ∀ r k, s.server.nextResponse = some r → s.server.socketOf r.clientId = some k →
      s.drainedTo k < TCPBufferSize / OMClientResponse.size
  | .poll .. | .sendAndRecv .. | .respond _ | .takeRequest => True

theorem Metered.room_iff (h : Metered s) (k : SocketId) :
    (s.server.sockets k).nextSendValidIndex + OMClientResponse.size ≤ TCPBufferSize ↔
      s.drainedTo k < TCPBufferSize / OMClientResponse.size := by
  have hsize : 0 < OMClientResponse.size := by decide
  rw [h.index, ← Nat.mul_succ, Nat.lt_iff_add_one_le, Nat.le_div_iff_mul_le hsize, Nat.mul_comm]

theorem Metered.sendNext_overruns_iff (h : Metered s) : (∃ s', Serving.sendNext s = .error .overrun s') ↔ ¬ Roomy s .sendNext := by
  rw [Serving.sendNext, bind_of_ok (get_apply)]
  cases hnext : s.server.nextResponse with
  | none =>
    refine ⟨fun ⟨_, hs⟩ => (nomatch hs), fun hn => absurd (fun r k hr _ => ?_) hn⟩
    rw [hnext] at hr
    cases hr
  | some r =>
    have hcount : ∀ _ : Unit, Raises (· ≠ .overrun) (modify (count r) : ServingM Unit) := fun _ => .modify (count r)
    have hfirst := Raises.stops_bind_iff (x := onServer (sendResponse r)) (s := s) hcount
    have hserver : (∃ s', onServer (sendResponse r) s = .error .overrun s') ↔
        ∃ o', sendResponse r s.server = .error .overrun o' := by
      constructor
      · rintro ⟨_, hs⟩
        obtain ⟨o', ho, -⟩ := focus_eq_error.mp hs
        exact ⟨o', ho⟩
      · rintro ⟨o', ho⟩
        exact ⟨_, focus_of_error ho⟩
    refine (hfirst.trans (hserver.trans sendResponse_overruns_iff)).trans ⟨?_, fun hn => ?_⟩
    · rintro ⟨k, hk, hfull⟩ hroomy
      exact absurd ((h.room_iff k).mpr (hroomy r k hnext hk)) (not_le.mpr hfull)
    · by_contra hno
      refine hn fun r' k hr' hk => ?_
      rw [hnext] at hr'
      cases hr'
      exact (h.room_iff k).mp (not_lt.mp fun hfull => hno ⟨k, hk, hfull⟩)

theorem Metered.overruns_iff (h : Metered s) (i : Step) : (∃ s', Serving.step i s = .error .overrun s') ↔ ¬ Roomy s i := by
  have hother : i ≠ .sendNext → Roomy s i → ((∃ s', Serving.step i s = .error .overrun s') ↔ ¬ Roomy s i) := fun hi hroomy =>
    ⟨fun ⟨_, hs⟩ => (raises_step hi _ _ _ hs).elim, fun hn => absurd hroomy hn⟩
  cases i with
  | sendNext => exact h.sendNext_overruns_iff
  | poll | sendAndRecv | respond | takeRequest => exact hother nofun trivial

/-- The state after every beginning of a run has its valid bytes within the buffers, and no call of
the run writes behind one. -/
def Inside (init : Serving) (is : List Step) : Prop :=
  (∀ js t, js <+: is → Reaches step Serves init js t → ∀ k, (t.server.sockets k).nextSendValidIndex ≤ TCPBufferSize) ∧
    ∀ js i t t', js ++ [i] <+: is → Reaches step Serves init js t → step i t ≠ .error .overrun t'

/-- A call of a completed run had room. -/
theorem roomy_of_reaches (h : Reaches step Serves (fresh listener clientRequests clientResponses) is s) :
    Reaches step (fun s i => Serves s i ∧ Roomy s i) (fresh listener clientRequests clientResponses) is s := by
  induction h with
  | start => exact .start
  | @call is s s' i run ok returns ih =>
    refine .call ih ⟨ok, by_contra fun hn => ?_⟩ returns
    obtain ⟨_, hover⟩ := ((metered_run run).overruns_iff i).mpr hn
    rw [returns] at hover
    cases hover

/-- In a run no buffer is overrun if and only if every turn of the inner loop has room. -/
theorem run_inside_iff (h : Observes step Serves (fresh listener clientRequests clientResponses) is s) :
    Inside (fresh listener clientRequests clientResponses) is ↔
      Observes step (fun s i => Serves s i ∧ Roomy s i) (fresh listener clientRequests clientResponses) is s := by
  constructor
  · intro hinside
    cases h with
    | done run => exact .done (roomy_of_reaches run)
    | @stopped is s s' i f run ok stops =>
      refine .stopped (roomy_of_reaches run) ⟨ok, by_contra fun hn => ?_⟩ stops
      obtain ⟨t', hover⟩ := ((metered_run run).overruns_iff i).mpr hn
      exact hinside.2 is i s t' (List.prefix_refl _) run hover
  · intro hroomy
    refine ⟨fun js t _ run => (metered_run run).fits, fun js i t t' hp run hover => ?_⟩
    have hroom : Roomy t i → False := fun hroom => ((metered_run run).overruns_iff i).mp ⟨t', hover⟩ hroom
    have hcompleted : ∀ {ks u}, Reaches step (fun s i => Serves s i ∧ Roomy s i)
        (fresh listener clientRequests clientResponses) ks u → js ++ [i] <+: ks → False := fun hks hp => by
      obtain ⟨u', hu'⟩ := hks.shorter hp
      obtain ⟨u, hu, hok, -⟩ := hu'.last
      obtain rfl := hu.unique run
      exact hroom hok.2
    cases hroomy with
    | done hks => exact hcompleted hks hp
    | @stopped ks u u' j f hks hok _ =>
      rcases List.prefix_concat_iff.mp hp with he | hp
      · obtain ⟨rfl, hi⟩ := List.append_inj' he rfl
        obtain rfl := List.singleton_injective hi
        obtain rfl := hks.unique run
        exact hroom hok.2
      · exact hcompleted hks hp

/-- The inner loop has appended `n` responses to the client 0 since the last `sendAndRecv`, and the
queue is empty again. -/
structure Appending (n : Nat) (s : Serving) : Prop where
  phase : s.phase = .drain
  socket : s.server.socketOf 0 = some 7
  index : (s.server.sockets 7).nextSendValidIndex = OMClientResponse.size * n
  queue : ∃ m, s.server.outgoingResponses.Holds m []
  size : 1 < s.server.outgoingResponses.size

/-- A response to the client 0. -/
def acceptedResponse : MEClientResponse := { type := .ACCEPTED, clientId := 0, clientOrderId := 0 }

/-- After a connection and the first request of client 0, `n` times a response is written and sent. -/
def appending : Nat → List Step
  | 0 => [connect] ++ [.sendAndRecv byTime (fun _ => { bytes := requestBytes 0 1 }) fun _ => {}]
  | n + 1 => appending n ++ [.respond acceptedResponse] ++ [.sendNext]

/-- The exchange has queues of this size. -/
def exchangeServer : Serving := fresh 1 (.ofSize ME_MAX_CLIENT_UPDATES) (.ofSize ME_MAX_CLIENT_UPDATES)

theorem run_appending_zero : ∃ s, Reaches step Serves exchangeServer (appending 0) s ∧ Appending 0 s := by
  obtain ⟨s', hrun, hphase, hsocket, hindex, hsize, hwrite, hread, hcount⟩ : ∃ s', Reaches step (fun _ _ => true = true)
      exchangeServer (appending 0) s' ∧ s'.phase = .drain ∧ s'.server.socketOf 0 = some 7 ∧
      (s'.server.sockets 7).nextSendValidIndex = 0 ∧ s'.server.outgoingResponses.size = ME_MAX_CLIENT_UPDATES ∧
      s'.server.outgoingResponses.nextWriteIndex = 0 ∧ s'.server.outgoingResponses.nextReadIndex = 0 ∧
      s'.server.outgoingResponses.numElements = 0 := exists_of_execute (by decide +kernel)
  obtain ⟨s, hconnected, hnext, -⟩ := run_connect (.ofSize ME_MAX_CLIENT_UPDATES) (.ofSize ME_MAX_CLIENT_UPDATES)
  obtain ⟨t, ht, -, hstep⟩ := hrun.last
  obtain rfl := ht.unique hconnected
  have hqueue : s'.server.outgoingResponses.Holds 0 [] := by
    refine ⟨?_, ?_, hread, hwrite, fun k a hk => (nomatch hk), hcount⟩
    · rw [hsize]
      decide
    · rw [hsize]
      decide
  exact ⟨s', .call hconnected ⟨hnext, sorts_byTime⟩ hstep, hphase, hsocket, hindex, ⟨0, hqueue⟩, by rw [hsize]; decide⟩

/-- A response is written to the queue, and is the next one to be sent. -/
theorem Appending.respond {n : Nat} (h : Appending n s) : ∃ s', Serves s (.respond acceptedResponse) ∧
    step (.respond acceptedResponse) s = .ok () s' ∧ s'.phase = .drain ∧ s'.server.nextResponse = some acceptedResponse ∧
    s'.server.toAdmission = s.server.toAdmission ∧ s'.server.sockets = s.server.sockets ∧
    s'.server.outgoingResponses.size = s.server.outgoingResponses.size ∧
    ∃ m, s'.server.outgoingResponses.Holds m [acceptedResponse] := by
  obtain ⟨m, hq⟩ := h.queue
  have hsize := h.size
  have hroom : s.server.outgoingResponses.numElements.toNat + 1 < s.server.outgoingResponses.size := by
    rw [hq.numElements_toNat]
    exact hsize
  have hwritten := hq.write_of_room (a := acceptedResponse) hsize
  refine ⟨_, hroom, rfl, h.phase, ?_, rfl, rfl, rfl, m, hwritten⟩
  exact (if_neg hwritten.numElements_ne_zero).trans hwritten.getNextToRead_eq

theorem Appending.sendNext {n : Nat} (h : Appending n s) (hn : n < TCPBufferSize / OMClientResponse.size)
    (hr : Reaches step Serves exchangeServer (appending n) s) :
    ∃ s', Reaches step Serves exchangeServer (appending (n + 1)) s' ∧ Appending (n + 1) s' := by
  obtain ⟨t, hserves, hrespond, hphase, hnext, hadmission, hsockets, hsize, m, hq⟩ := h.respond
  have hsocket : t.server.socketOf acceptedResponse.clientId = some 7 :=
    (congrArg (·.socketOf acceptedResponse.clientId) hadmission).trans h.socket
  have hindex : (t.server.sockets 7).nextSendValidIndex = OMClientResponse.size * n := by rw [hsockets, h.index]
  have hroom : (t.server.sockets 7).nextSendValidIndex + OMClientResponse.size ≤ TCPBufferSize := by
    rw [hindex, ← Nat.mul_succ, Nat.mul_comm]
    exact (Nat.le_div_iff_mul_le (by decide)).mp hn
  obtain ⟨o', ho, hheld, hosize, hsent⟩ := sendResponse_ok hsocket hroom hq
  have hsend : step .sendNext t = .ok () (count acceptedResponse (t.withServer o')) := by
    have hserver : onServer (sendResponse acceptedResponse) t = .ok () (t.withServer o') := focus_of_ok ho
    rw [step, Serving.sendNext, bind_of_ok (get_apply), hnext]
    exact bind_of_ok hserver
  have hcount : count acceptedResponse (t.withServer o') = { t.withServer o' with
      drainedTo := Function.update t.drainedTo 7 (t.drainedTo 7 + 1) } :=
    count_of_socket ((congrArg (·.socketOf acceptedResponse.clientId) hsent.admission).trans hsocket)
  refine ⟨_, .call (.call hr hserves hrespond) hphase hsend, ?_⟩
  rw [hcount]
  refine ⟨hphase, (congrArg (·.socketOf 0) hsent.admission).trans hsocket, ?_, ⟨m + 1, hheld⟩, ?_⟩
  · exact hsent.index.trans (by rw [hindex, Nat.mul_succ])
  · exact h.size.trans_eq (hosize.trans hsize).symm

theorem run_appending {n : Nat} (hn : n ≤ TCPBufferSize / OMClientResponse.size) :
    ∃ s, Reaches step Serves exchangeServer (appending n) s ∧ Appending n s := by
  induction n with
  | zero => exact run_appending_zero
  | succ n ih =>
    obtain ⟨s, hr, hs⟩ := ih (Nat.le_of_succ_le hn)
    exact hs.sendNext hn hr

/-- Two responses are appended without a `sendAndRecv` between them. -/
theorem run_inside_twoResponses : Inside exchangeServer (appending 2) := by
  obtain ⟨s, hr, -⟩ := run_appending (n := 2) (by decide)
  exact (run_inside_iff (.done hr)).mpr (.done (roomy_of_reaches hr))

/-- The queue never holds more than one response, and still the inner loop overruns the buffer: there
is no `sendAndRecv` while it finds one. -/
theorem run_overruns : ∃ is s s', Reaches step Serves exchangeServer is s ∧ Serves s .sendNext ∧
    step .sendNext s = .error .overrun s' := by
  obtain ⟨s, hr, hs⟩ := run_appending (n := TCPBufferSize / OMClientResponse.size) (Nat.le_refl _)
  obtain ⟨t, hserves, hrespond, hphase, hnext, hadmission, hsockets, -, m, hq⟩ := hs.respond
  have hsocket : t.server.socketOf acceptedResponse.clientId = some 7 :=
    (congrArg (·.socketOf acceptedResponse.clientId) hadmission).trans hs.socket
  obtain ⟨o', hover⟩ := sendResponse_of_full hsocket (by rw [hsockets, hs.index]; decide)
  have hstop : onServer (sendResponse acceptedResponse) t = .error .overrun (t.withServer o') := focus_of_error hover
  refine ⟨_, t, t.withServer o', .call hr hserves hrespond, hphase, ?_⟩
  rw [step, Serving.sendNext, bind_of_ok (get_apply), hnext]
  exact bind_of_error hstop

end Serving
end TradingEcosystem
