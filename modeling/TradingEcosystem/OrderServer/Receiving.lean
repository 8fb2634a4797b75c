import TradingEcosystem.OrderServer

/-! What one examined request does to the tables, and what a receive does in terms of the
requests whose frames it completes. -/
namespace TradingEcosystem
open Program Runs Framing

namespace Admission
variable {a : Admission} {x : SocketId × OMClientRequest}

/-- The client of a request is in range, the request came on the client's socket and carries the
number expected next. -/
def Accepts (a : Admission) (x : SocketId × OMClientRequest) : Prop :=
  ∃ h : x.2.meClientRequest.clientId.toNat < ME_MAX_NUM_CLIENTS,
    (OrderServer.bindSocket ⟨_, h⟩ x.1 a).cidTcpSocket ⟨_, h⟩ = some x.1 ∧ x.2.seqNum = a.cidNextExpSeqNum ⟨_, h⟩

instance (a : Admission) (x : SocketId × OMClientRequest) : Decidable (a.Accepts x) :=
  inferInstanceAs (Decidable (∃ _ : _, _))

/-- The tables after a request was examined. -/
def after (a : Admission) (x : SocketId × OMClientRequest) : Admission :=
  if h : x.2.meClientRequest.clientId.toNat < ME_MAX_NUM_CLIENTS then
    let b := OrderServer.bindSocket ⟨_, h⟩ x.1 (OrderServer.look x.1 x.2 a)
    if a.Accepts x then OrderServer.accept ⟨_, h⟩ x.1 x.2 b else b
  else OrderServer.look x.1 x.2 a

@[simp] theorem bindSocket_cidNextExpSeqNum (cid : Fin ME_MAX_NUM_CLIENTS) (socket : SocketId) :
    (OrderServer.bindSocket cid socket a).cidNextExpSeqNum = a.cidNextExpSeqNum := by
  unfold OrderServer.bindSocket
  split <;> rfl

@[simp] theorem bindSocket_admitted (cid : Fin ME_MAX_NUM_CLIENTS) (socket : SocketId) :
    (OrderServer.bindSocket cid socket a).admitted = a.admitted := by
  unfold OrderServer.bindSocket
  split <;> rfl

@[simp] theorem bindSocket_examined (cid : Fin ME_MAX_NUM_CLIENTS) (socket : SocketId) :
    (OrderServer.bindSocket cid socket a).examined = a.examined := by
  unfold OrderServer.bindSocket
  split <;> rfl

theorem bindSocket_cidTcpSocket (cid : Fin ME_MAX_NUM_CLIENTS) (socket : SocketId) :
    (OrderServer.bindSocket cid socket a).cidTcpSocket =
      Function.update a.cidTcpSocket cid (some ((a.cidTcpSocket cid).getD socket)) := by
  unfold OrderServer.bindSocket
  split
  · rename_i h
    rw [h]
    rfl
  · rename_i h
    obtain ⟨k, hk⟩ := Option.ne_none_iff_exists'.mp h
    rw [hk, Option.getD_some, ← hk, Function.update_eq_self]

@[simp] theorem after_examined (a : Admission) (x : SocketId × OMClientRequest) : (a.after x).examined = a.examined ++ [x] := by
  unfold after
  split_ifs <;> simp [OrderServer.accept, OrderServer.look]

theorem after_admitted (a : Admission) (x : SocketId × OMClientRequest) :
    (a.after x).admitted = if a.Accepts x then a.admitted ++ [x] else a.admitted := by
  unfold after
  split_ifs with h ha ha
  · simp [OrderServer.accept, OrderServer.look]
  · simp [OrderServer.look]
  · exact absurd ha.1 h
  · rfl

/-- A client in range is bound to the socket of its request, if it had none. -/
theorem after_cidTcpSocket (hr : x.2.meClientRequest.clientId.toNat < ME_MAX_NUM_CLIENTS) : (a.after x).cidTcpSocket =
    Function.update a.cidTcpSocket ⟨_, hr⟩ (some ((a.cidTcpSocket ⟨_, hr⟩).getD x.1)) := by
  unfold after
  rw [dif_pos hr]
  split_ifs <;> exact bindSocket_cidTcpSocket _ _

theorem after_cidTcpSocket_of_out (hr : ¬ x.2.meClientRequest.clientId.toNat < ME_MAX_NUM_CLIENTS) :
    (a.after x).cidTcpSocket = a.cidTcpSocket := by
  unfold after
  rw [dif_neg hr]
  rfl

variable {cid : Fin ME_MAX_NUM_CLIENTS} {socket : SocketId}

/-- A bound client stays bound to its socket. -/
theorem after_bound (h : a.cidTcpSocket cid = some socket) (x : SocketId × OMClientRequest) :
    (a.after x).cidTcpSocket cid = some socket := by
  by_cases hr : x.2.meClientRequest.clientId.toNat < ME_MAX_NUM_CLIENTS
  · rw [after_cidTcpSocket hr, Function.update_apply]
    split_ifs with hc
    · rw [← hc, h]
      rfl
    · exact h
  · rw [after_cidTcpSocket_of_out hr]
    exact h

/-- A client that is bound was so, or is bound to the socket of the request. -/
theorem bound_of_after (h : (a.after x).cidTcpSocket cid = some socket) : a.cidTcpSocket cid = some socket ∨ socket = x.1 := by
  by_cases hr : x.2.meClientRequest.clientId.toNat < ME_MAX_NUM_CLIENTS
  · rw [after_cidTcpSocket hr, Function.update_apply] at h
    split_ifs at h with hc
    · rw [← hc] at h
      cases hold : a.cidTcpSocket cid with
      | none =>
        rw [hold] at h
        exact .inr (Option.some.inj h).symm
      | some k =>
        rw [hold] at h
        exact .inl h
    · exact .inl h
  · rw [after_cidTcpSocket_of_out hr] at h
    exact .inl h

end Admission

namespace OrderServer
variable {s s' t : OrderServer} {socket : SocketId} {rxTime : Nanos} {request : OMClientRequest} {bytes : List UInt8}
  {f : Fault} {u : Unit}

@[simp] theorem putSocket_self (socket : SocketId) (s : OrderServer) (c : TCPSocket) :
    (putSocket socket s c).sockets socket = c := Function.update_self ..

theorem putSocket_of_ne {k : SocketId} (h : k ≠ socket) (s : OrderServer) (c : TCPSocket) :
    (putSocket socket s c).sockets k = s.sockets k := Function.update_of_ne h ..

@[simp] theorem withAdmission_toAdmission (s : OrderServer) (a : Admission) : (s.withAdmission a).toAdmission = a := rfl

@[simp] theorem withAdmission_withAdmission (s : OrderServer) (a b : Admission) :
    (s.withAdmission a).withAdmission b = s.withAdmission b := rfl

theorem modifyAdmission_apply (f : Admission → Admission) (s : OrderServer) :
    modifyAdmission f s = .ok () (s.withAdmission (f s.toAdmission)) := rfl

theorem acceptExpected_apply (cid : Fin ME_MAX_NUM_CLIENTS) (socket : SocketId) (rxTime : Nanos) (request : OMClientRequest)
    (s : OrderServer) : acceptExpected cid socket rxTime request s =
      if s.cidTcpSocket cid = some socket ∧ request.seqNum = s.cidNextExpSeqNum cid then
        onSequencer (FIFOSequencer.addClientRequest rxTime request.meClientRequest)
          (s.withAdmission (accept cid socket request s.toAdmission))
      else .ok () s := by
  rw [acceptExpected, bind_of_ok (get_apply), Program.ite_apply, Program.ite_apply]
  by_cases hsocket : s.cidTcpSocket cid = some socket
  · rw [if_neg (not_not_intro hsocket)]
    by_cases hseq : request.seqNum = s.cidNextExpSeqNum cid
    · rw [if_neg (not_not_intro hseq), if_pos ⟨hsocket, hseq⟩]
      rfl
    · rw [if_pos hseq, if_neg fun h => hseq h.2]
      rfl
  · rw [if_pos hsocket, if_neg fun h => hsocket h.1]
    rfl

/-- The client of a request is one of the tables. -/
abbrev InRange (request : OMClientRequest) : Prop := request.meClientRequest.clientId.toNat < ME_MAX_NUM_CLIENTS

/-- A request from a client out of range stops the server, one that is not accepted is passed
over, and any other goes to the sequencer. -/
theorem examine_apply (socket : SocketId) (rxTime : Nanos) (request : OMClientRequest) (s : OrderServer) :
    examine socket rxTime request s =
      if InRange request then
        if s.toAdmission.Accepts (socket, request) then
          onSequencer (FIFOSequencer.addClientRequest rxTime request.meClientRequest)
            (s.withAdmission (s.toAdmission.after (socket, request)))
        else .ok () (s.withAdmission (s.toAdmission.after (socket, request)))
      else .error .outOfRange (s.withAdmission (s.toAdmission.after (socket, request))) := by
  rw [examine, bind_of_ok (modifyAdmission_apply _ _)]
  by_cases h : InRange request
  · obtain ⟨cid, hcid⟩ : ∃ cid : Fin ME_MAX_NUM_CLIENTS, cid = ⟨_, h⟩ := ⟨_, rfl⟩
    have hindex : ∀ s, clientIndex request.meClientRequest.clientId s = .ok cid s := fun s => by
      rw [clientIndex, dif_pos h, hcid]
      rfl
    obtain ⟨b, hb⟩ : ∃ b, b = bindSocket cid socket (look socket request s.toAdmission) := ⟨_, rfl⟩
    have hafter : s.toAdmission.after (socket, request) =
        if s.toAdmission.Accepts (socket, request) then accept cid socket request b else b := by
      rw [Admission.after, dif_pos h, hb, hcid]
    have haccepts : s.toAdmission.Accepts (socket, request) ↔
        b.cidTcpSocket cid = some socket ∧ request.seqNum = b.cidNextExpSeqNum cid := by
      rw [hb, Admission.bindSocket_cidTcpSocket, Admission.bindSocket_cidNextExpSeqNum, hcid]
      rw [Admission.Accepts, exists_prop_of_true h, Admission.bindSocket_cidTcpSocket]
      rfl
    have hbound : (s.withAdmission (look socket request s.toAdmission)).withAdmission
        (bindSocket cid socket (s.withAdmission (look socket request s.toAdmission)).toAdmission) = s.withAdmission b := by
      rw [hb]
      rfl
    rw [bind_of_ok (hindex _), bind_of_ok (modifyAdmission_apply _ _), hbound, acceptExpected_apply, if_pos h, hafter]
    by_cases ha : s.toAdmission.Accepts (socket, request)
    · rw [if_pos ha, if_pos ha]
      exact if_pos (haccepts.mp ha)
    · rw [if_neg ha, if_neg ha]
      exact if_neg (haccepts.not.mp ha)
  · have hindex : ∀ s, clientIndex request.meClientRequest.clientId s = .error .outOfRange s := fun s => by
      rw [clientIndex, dif_neg h]
      rfl
    rw [bind_of_error (hindex _), if_neg h, Admission.after, dif_neg h]

/-- The sequencer has room for one more request. -/
def HasRoom (s : OrderServer) : Prop := s.fifoSequencer.pendingClientRequests.length < ME_MAX_PENDING_REQUESTS

/-- The server after an examined request, if the sequencer had room. -/
def afterExamine (socket : SocketId) (rxTime : Nanos) (request : OMClientRequest) (s : OrderServer) : OrderServer :=
  { s.withAdmission (s.toAdmission.after (socket, request)) with
    fifoSequencer :=
      if s.toAdmission.Accepts (socket, request) then
        s.fifoSequencer.push
          { recvTime := rxTime, request := request.meClientRequest, no := s.fifoSequencer.added.length }
      else s.fifoSequencer }

@[simp] theorem afterExamine_toAdmission (s : OrderServer) :
    (s.afterExamine socket rxTime request).toAdmission = s.toAdmission.after (socket, request) := rfl

@[simp] theorem afterExamine_sockets (s : OrderServer) : (s.afterExamine socket rxTime request).sockets = s.sockets := rfl

theorem examine_of_room (hr : InRange request) (h : s.toAdmission.Accepts (socket, request) → s.HasRoom) :
    examine socket rxTime request s = .ok () (s.afterExamine socket rxTime request) := by
  rw [examine_apply, if_pos hr]
  by_cases ha : s.toAdmission.Accepts (socket, request)
  · rw [if_pos ha, afterExamine, if_pos ha]
    exact focus_of_ok (FIFOSequencer.addClientRequest_of_room (h ha))
  · rw [if_neg ha, afterExamine, if_neg ha]
    rfl

theorem examine_of_full (hr : InRange request) (ha : s.toAdmission.Accepts (socket, request)) (h : ¬ s.HasRoom) :
    examine socket rxTime request s =
      .error FIFOSequencer.tooManyPendingRequests (s.withAdmission (s.toAdmission.after (socket, request))) := by
  rw [examine_apply, if_pos hr, if_pos ha]
  exact focus_of_error (FIFOSequencer.addClientRequest_of_full (Nat.le_of_not_lt h))

/-- When an examined request stops the server. -/
theorem examine_cases (socket : SocketId) (rxTime : Nanos) (request : OMClientRequest) (s : OrderServer) :
    (InRange request ∧ (s.toAdmission.Accepts (socket, request) → s.HasRoom) ∧
      examine socket rxTime request s = .ok () (s.afterExamine socket rxTime request)) ∨
    (InRange request ∧ s.toAdmission.Accepts (socket, request) ∧ ¬ s.HasRoom ∧ examine socket rxTime request s =
      .error FIFOSequencer.tooManyPendingRequests (s.withAdmission (s.toAdmission.after (socket, request)))) ∨
    (¬ InRange request ∧ examine socket rxTime request s =
      .error .outOfRange (s.withAdmission (s.toAdmission.after (socket, request)))) := by
  by_cases hr : InRange request
  · by_cases hroom : s.toAdmission.Accepts (socket, request) → s.HasRoom
    · exact .inl ⟨hr, hroom, examine_of_room hr hroom⟩
    · obtain ⟨ha, hfull⟩ := Classical.not_imp.mp hroom
      exact .inr (.inl ⟨hr, ha, hfull, examine_of_full hr ha hfull⟩)
  · refine .inr (.inr ⟨hr, ?_⟩)
    rw [examine_apply]
    exact if_neg hr

theorem final_examine_toAdmission (socket : SocketId) (rxTime : Nanos) (request : OMClientRequest) (s : OrderServer) :
    (final (examine socket rxTime request s)).toAdmission = s.toAdmission.after (socket, request) := by
  rcases examine_cases socket rxTime request s with ⟨-, -, h⟩ | ⟨-, -, -, h⟩ | ⟨-, h⟩ <;> rw [h] <;> rfl

/-- Examining requests changes the tables and the pending requests only. -/
def SameButRequests (s s' : OrderServer) : Prop :=
  s' = { s with toAdmission := s'.toAdmission, fifoSequencer := { s.fifoSequencer with
    pendingClientRequests := s'.fifoSequencer.pendingClientRequests, added := s'.fifoSequencer.added } }

instance : IsPreorder OrderServer SameButRequests where
  refl _ := rfl
  trans s s' s'' h h' := by
    rw [SameButRequests] at h h' ⊢
    rw [h] at h'
    exact h'

theorem frame_examine (socket : SocketId) (rxTime : Nanos) (request : OMClientRequest) :
    Frame SameButRequests (examine socket rxTime request) := by
  intro s
  rcases examine_cases socket rxTime request s with ⟨-, -, h⟩ | ⟨-, -, -, h⟩ | ⟨-, h⟩
  · rw [h, final_ok, afterExamine]
    split <;> rfl
  · rw [h]
    rfl
  · rw [h]
    rfl

/-! ## A receive -/

/-- The requests of the complete frames in front of a stream. -/
def requests (stream : List UInt8) : List OMClientRequest :=
  (frames OMClientRequest.size stream).map OMClientRequest.codec.decode

theorem requests_append (l m : List UInt8) :
    requests (l ++ m) = requests l ++ requests (leftover OMClientRequest.size l ++ m) := by
  rw [requests, frames_append (by decide), List.map_append]
  rfl

/-- The loop of `recvCallback` without its indices. -/
def examineAll (socket : SocketId) (rxTime : Nanos) (l : List OMClientRequest) : ServerM Unit :=
  forM l (examine socket rxTime)

theorem frame_examineAll (socket : SocketId) (rxTime : Nanos) (l : List OMClientRequest) :
    Frame SameButRequests (examineAll socket rxTime l) := .forM l fun r => frame_examine socket rxTime r

theorem SameButRequests.sockets (h : SameButRequests s s') : s'.sockets = s.sockets := by rw [h]

/-- From index `i` on the loop examines the requests behind `i` and ends in front of what is
less than a frame. -/
theorem recvLoop_eq (rxTime : Nanos) {turns i m : Nat} (hm : m / OMClientRequest.size < turns)
    (hs : (s.sockets socket).nextRcvValidIndex = i + m) :
    recvLoop socket rxTime turns i s =
      (do examineAll socket rxTime (requests (slice (s.sockets socket).inboundData i m))
          return i + OMClientRequest.size * (m / OMClientRequest.size) : ServerM Nat) s := by
  have hsize : 0 < OMClientRequest.size := by decide
  induction turns generalizing i m s with
  | zero => exact absurd hm (Nat.not_lt_zero _)
  | succ turns ih =>
    rw [recvLoop, bind_of_ok (get_apply), Program.ite_apply, hs]
    by_cases hlt : m < OMClientRequest.size
    · rw [if_neg (by omega), requests, frames_of_lt (by rw [length_slice]; exact hlt), Nat.div_eq_of_lt hlt]
      rfl
    · obtain ⟨k, rfl⟩ : ∃ k, m = OMClientRequest.size + k := ⟨m - OMClientRequest.size, by omega⟩
      have hlen : (slice (s.sockets socket).inboundData i OMClientRequest.size).length = OMClientRequest.size := length_slice ..
      rw [Nat.add_div_left _ hsize] at hm ⊢
      rw [if_pos (by omega), slice_add, requests, frames_append_frame hsize hlen, List.map_cons]
      rw [examineAll, List.forM_cons, bind_assoc]
      refine bind_congr_of_ok fun u t ht => ?_
      have hsockets : t.sockets = s.sockets := ((frame_examine socket rxTime _).of_ok ht).sockets
      have hend : i + OMClientRequest.size * (k / OMClientRequest.size + 1) =
          i + OMClientRequest.size + OMClientRequest.size * (k / OMClientRequest.size) := by
        rw [Nat.mul_add, Nat.mul_one]
        omega
      rw [hend, ih (m := k) (by omega) (by rw [hsockets, hs, Nat.add_assoc]), hsockets]
      rfl

/-- A socket whose parsed bytes were dropped and which was not used otherwise. -/
structure Parsed (t t' : TCPSocket) : Prop where
  inbound : t'.inbound = leftover OMClientRequest.size t.inbound
  sending : t'.outboundData = t.outboundData ∧ t'.nextSendValidIndex = t.nextSendValidIndex
  appended : t'.appended = t.appended
  taken : t'.taken = t.taken

/-- The move of the leftover: the ranges do not overlap, since less than a frame is left and at
least a frame was parsed. -/
theorem moveLeftover_ok {t : TCPSocket} (h : OMClientRequest.size ≤ t.nextRcvValidIndex) :
    ∃ t', moveLeftover (0 + OMClientRequest.size * (t.nextRcvValidIndex / OMClientRequest.size)) t = .ok () t' ∧
      Parsed t t' := by
  have hsize : 0 < OMClientRequest.size := by decide
  obtain ⟨i, hi⟩ : ∃ i, i = OMClientRequest.size * (t.nextRcvValidIndex / OMClientRequest.size) := ⟨_, rfl⟩
  have hmod : t.nextRcvValidIndex % OMClientRequest.size + i = t.nextRcvValidIndex := by
    rw [hi]
    exact Nat.mod_add_div ..
  have hlt := Nat.mod_lt t.nextRcvValidIndex hsize
  have hone : 1 ≤ t.nextRcvValidIndex / OMClientRequest.size := (Nat.one_le_div_iff hsize).mpr h
  have hframe : OMClientRequest.size ≤ i := by
    rw [hi]
    exact Nat.le_mul_of_pos_right _ hone
  have hno : ¬ i < t.nextRcvValidIndex - i := by omega
  rw [Nat.zero_add, ← hi, moveLeftover, bind_of_ok (get_apply), if_neg hno]
  refine ⟨_, rfl, ?_, ⟨rfl, rfl⟩, rfl, rfl⟩
  have hdrop : t.inbound.drop i = slice t.inboundData i (t.nextRcvValidIndex - i) := by
    have hsplit : t.nextRcvValidIndex = i + (t.nextRcvValidIndex - i) := by omega
    rw [TCPSocket.inbound, hsplit, slice_add, List.drop_left' (length_slice ..), Nat.zero_add, Nat.add_sub_cancel_left]
  rw [leftover, TCPSocket.length_inbound, ← hi, hdrop]
  have hover := slice_overwrite t.inboundData 0 (slice t.inboundData i (t.nextRcvValidIndex - i))
  rwa [length_slice] at hover

/-- The callback examines the requests whose frames are complete and keeps the rest. -/
theorem recvCallback_ok (h : examineAll socket rxTime (requests (s.sockets socket).inbound) s = .ok u t) :
    ∃ c, recvCallback socket rxTime s = .ok () (putSocket socket t c) ∧ Parsed (s.sockets socket) c := by
  have hsockets : t.sockets = s.sockets := ((frame_examineAll socket rxTime _).of_ok h).sockets
  rw [recvCallback, bind_of_ok (get_apply)]
  by_cases hn : OMClientRequest.size ≤ (s.sockets socket).nextRcvValidIndex
  · obtain ⟨c, hc, hp⟩ := moveLeftover_ok hn
    have hloop := recvLoop_eq rxTime (Nat.lt_succ_self _) (Nat.zero_add (s.sockets socket).nextRcvValidIndex).symm
    refine ⟨c, ?_, hp⟩
    rw [if_pos hn, bind_of_ok (hloop.trans (bind_of_ok h))]
    exact focus_of_ok (by rw [hsockets]; exact hc)
  · have hlt : (s.sockets socket).inbound.length < OMClientRequest.size := by
      rw [TCPSocket.length_inbound]
      omega
    rw [requests, frames_of_lt hlt] at h
    cases h
    refine ⟨s.sockets socket, ?_, (leftover_of_lt hlt).symm, ⟨rfl, rfl⟩, rfl, rfl⟩
    rw [if_neg hn, putSocket, Function.update_eq_self]
    rfl

theorem recvCallback_error (h : examineAll socket rxTime (requests (s.sockets socket).inbound) s = .error f t) :
    recvCallback socket rxTime s = .error f t := by
  rw [recvCallback, bind_of_ok (get_apply)]
  by_cases hn : OMClientRequest.size ≤ (s.sockets socket).nextRcvValidIndex
  · have hloop := recvLoop_eq rxTime (Nat.lt_succ_self _) (Nat.zero_add (s.sockets socket).nextRcvValidIndex).symm
    rw [if_pos hn, bind_of_error (hloop.trans (bind_of_error h))]
  · have hlt : (s.sockets socket).inbound.length < OMClientRequest.size := by
      rw [TCPSocket.length_inbound]
      omega
    rw [requests, frames_of_lt hlt] at h
    cases h

/-- The server after the bytes of a `recvmsg` were stored. -/
def deliver (socket : SocketId) (bytes : List UInt8) (s : OrderServer) : OrderServer :=
  putSocket socket s (TCPSocket.delivered bytes (s.sockets socket))

@[simp] theorem deliver_self (s : OrderServer) : (deliver socket bytes s).sockets socket = TCPSocket.delivered bytes (s.sockets socket) :=
  putSocket_self ..

/-- A receive ends as examining the requests does whose frames it completes. -/
theorem receive_ok (hshort : (s.sockets socket).nextRcvValidIndex < OMClientRequest.size)
    (h : examineAll socket rxTime (requests ((s.sockets socket).inbound ++ bytes)) (deliver socket bytes s) = .ok u t) :
    ∃ c, TCPSocket.receive (onSocket socket) (recvCallback socket rxTime) bytes s = .ok () (putSocket socket t c) ∧
      Parsed (TCPSocket.delivered bytes (s.sockets socket)) c := by
  by_cases hb : bytes = []
  · have hlt : (s.sockets socket).inbound.length < OMClientRequest.size := by rwa [TCPSocket.length_inbound]
    rw [hb, List.append_nil, requests, frames_of_lt hlt, deliver, TCPSocket.delivered_nil] at h
    cases h
    rw [hb, TCPSocket.delivered_nil, TCPSocket.receive, if_pos rfl]
    refine ⟨s.sockets socket, ?_, (leftover_of_lt hlt).symm, ⟨rfl, rfl⟩, rfl, rfl⟩
    simp [putSocket]
  · have hrecv : onSocket socket (TCPSocket.recvmsg bytes) s = .ok () (deliver socket bytes s) := focus_of_ok rfl
    rw [← TCPSocket.inbound_delivered, ← deliver_self] at h
    obtain ⟨c, hc, hp⟩ := recvCallback_ok h
    rw [deliver_self] at hp
    exact ⟨c, by rw [TCPSocket.receive, if_neg hb, bind_of_ok hrecv, hc], hp⟩

theorem receive_error (hshort : (s.sockets socket).nextRcvValidIndex < OMClientRequest.size)
    (h : examineAll socket rxTime (requests ((s.sockets socket).inbound ++ bytes)) (deliver socket bytes s) = .error f t) :
    TCPSocket.receive (onSocket socket) (recvCallback socket rxTime) bytes s = .error f t := by
  by_cases hb : bytes = []
  · have hlt : (s.sockets socket).inbound.length < OMClientRequest.size := by rwa [TCPSocket.length_inbound]
    rw [hb, List.append_nil, requests, frames_of_lt hlt] at h
    cases h
  · have hrecv : onSocket socket (TCPSocket.recvmsg bytes) s = .ok () (deliver socket bytes s) := focus_of_ok rfl
    rw [← TCPSocket.inbound_delivered, ← deliver_self] at h
    rw [TCPSocket.receive, if_neg hb, bind_of_ok hrecv, recvCallback_error h]

theorem final_onSocket (socket : SocketId) (x : SocketM Unit) (s : OrderServer) :
    final (onSocket socket x s) = putSocket socket s (final (x (s.sockets socket))) := by rw [onSocket, final_focus]

/-- After the receive the bytes to be sent are given to the kernel. -/
theorem sendAndRecv_of_receive_ok {took : Nat}
    (h : TCPSocket.receive (onSocket socket) (recvCallback socket rxTime) bytes s = .ok u t) :
    OrderServer.sendAndRecv socket bytes rxTime took s =
      .ok (decide (bytes ≠ [])) (putSocket socket t (TCPSocket.flushed took (t.sockets socket))) := by
  have hflush : onSocket socket (TCPSocket.flush took) t =
      .ok () (putSocket socket t (TCPSocket.flushed took (t.sockets socket))) := focus_of_ok rfl
  rw [OrderServer.sendAndRecv, TCPSocket.sendAndRecv, bind_of_ok h, bind_of_ok hflush]
  rfl

theorem step_of_receive_ok {took : Nat}
    (h : TCPSocket.receive (onSocket socket) (recvCallback socket rxTime) bytes s = .ok u t) :
    step (.sendAndRecv socket bytes rxTime took) s = .ok () (putSocket socket t (TCPSocket.flushed took (t.sockets socket))) :=
  bind_of_ok (sendAndRecv_of_receive_ok h)

theorem step_of_receive_error {took : Nat}
    (h : TCPSocket.receive (onSocket socket) (recvCallback socket rxTime) bytes s = .error f t) :
    step (.sendAndRecv socket bytes rxTime took) s = .error f t :=
  bind_of_error (bind_of_error h)

theorem recvFinishedCallBack_apply {sorted : List RecvTimeClientRequest}
    (h : FIFOSequencer.Sorts s.fifoSequencer.pendingClientRequests sorted) :
    OrderServer.recvFinishedCallBack sorted s = .ok () { s with fifoSequencer := s.fifoSequencer.sequenced sorted } := by
  rw [OrderServer.recvFinishedCallBack, onSequencer, focus_of_ok (FIFOSequencer.sequenceAndPublish_apply h)]

/-! ## What every step keeps -/

section Callback
variable {R : OrderServer → OrderServer → Prop} [IsPreorder OrderServer R]
  (hexamine : ∀ rxTime request, Frame R (examine socket rxTime request))

include hexamine

theorem frame_recvLoop (rxTime : Nanos) (turns i : Nat) : Frame R (recvLoop socket rxTime turns i) := by
  induction turns generalizing i with
  | zero => exact .throw _
  | succ turns ih =>
    refine .bind .get fun s => .ite (.bind (hexamine _ _) fun _ => ih _) (.pure _)

theorem frame_recvCallback (hmove : ∀ i, Frame R (onSocket socket (moveLeftover i))) (rxTime : Nanos) :
    Frame R (recvCallback socket rxTime) := by
  refine .bind .get fun s => .ite (.bind ?_ hmove) (.pure _)
  exact frame_recvLoop hexamine rxTime _ _

end Callback

theorem sendSide_moveLeftover (i : Nat) (c : TCPSocket) : (final (moveLeftover i c)).sendSide = c.sendSide := by
  rw [moveLeftover, bind_of_ok (get_apply), Program.ite_apply]
  split_ifs <;> rfl

theorem appended_moveLeftover (i : Nat) (c : TCPSocket) : (final (moveLeftover i c)).appended = c.appended :=
  congrArg (·.2.2.1) (sendSide_moveLeftover i c)

section Frames
variable {R : OrderServer → OrderServer → Prop} [IsPreorder OrderServer R]
  (hexamine : ∀ socket rxTime request, Frame R (examine socket rxTime request))
  (hsocket : ∀ socket s t, R s (putSocket socket s t))
  (hpublish : ∀ sorted, Frame R (OrderServer.recvFinishedCallBack sorted))
  (hsending : ∀ s q f l l', R s { s with outgoingResponses := q, cidNextOutgoingSeqNum := f, responded := l, drained := l' })

include hexamine in
/-- A socket that receives and flushes is given no bytes to send. -/
theorem frame_sendAndRecv
    (hunsent : ∀ socket s (t : TCPSocket), t.appended = (s.sockets socket).appended → R s (putSocket socket s t))
    (socket : SocketId) (bytes : List UInt8) (rxTime : Nanos) (took : Nat) :
    Frame R (OrderServer.sendAndRecv socket bytes rxTime took) := by
  have hmove : ∀ i, Frame R (onSocket socket (moveLeftover i)) := fun i =>
    .focus fun s => hunsent _ _ _ (appended_moveLeftover i _)
  have hcallback : Frame R (recvCallback socket rxTime) := frame_recvCallback (hexamine socket) hmove rxTime
  refine .bind (.ite (.pure _) (.bind ?_ fun _ => hcallback)) fun _ => .bind ?_ fun _ => .pure _
  · exact .focus fun s => hunsent _ _ _ rfl
  · exact .focus fun s => hunsent _ _ _ rfl

include hsending in
theorem frame_sendResponse (hsend : ∀ socket data, Frame R (onSocket socket (TCPSocket.send data))) (r : MEClientResponse) :
    Frame R (sendResponse r) := by
  refine .bind ?_ fun cid => .bind ?_ fun socket => .bind .get fun s => ?_
  · unfold clientIndex
    split
    · exact .pure _
    · exact .throw _
  · refine .bind .get fun s => ?_
    split
    · exact .throw _
    · exact .pure _
  · refine .bind (hsend _ _) fun _ => .bind (hsend _ _) fun _ => ?_
    exact .bind (.focus fun s => hsending s _ _ _ _) fun _ => .modify fun s => hsending s _ _ _ _

include hsending in
theorem frame_drain (hsend : ∀ socket data, Frame R (onSocket socket (TCPSocket.send data))) : Frame R OrderServer.drain := by
  have hloop : ∀ turns, Frame R (drainLoop turns) := fun turns => by
    induction turns with
    | zero => exact .throw _
    | succ turns ih =>
      refine .bind .get fun s => ?_
      split
      · exact .pure _
      · exact .bind (frame_sendResponse hsending hsend _) fun _ => ih
  exact .bind .get fun s => hloop _

include hsocket

omit [IsPreorder OrderServer R] in
theorem frame_onSocket (socket : SocketId) (x : SocketM Unit) : Frame R (onSocket socket x) :=
  .focus fun s => hsocket socket s _

include hexamine hpublish hsending in
theorem frame_step (i : Step) : Frame R (step i) := by
  cases i with
  | send socket data => exact frame_onSocket hsocket _ _
  | sendAndRecv socket bytes rxTime took =>
    refine .bind (frame_sendAndRecv hexamine (fun socket s t _ => hsocket socket s t) _ _ _ _) fun _ => .pure _
  | recvFinishedCallBack sorted => exact hpublish sorted
  | respond clientResponse => exact .modify fun s => hsending s _ _ _ _
  | drain => exact frame_drain hsending fun socket data => frame_onSocket hsocket socket _

end Frames

end OrderServer
end TradingEcosystem
