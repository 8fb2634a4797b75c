import TradingEcosystem.OrderServer.Admission

/-! What a rejected request leaves behind: the first request of a client binds it to its socket
before the number of the request is looked at. -/
namespace TradingEcosystem
open Program Runs Framing

/-- A decoded request with the socket and the time it was received at. -/
structure Message where
  socket : SocketId
  rxTime : Nanos
  request : OMClientRequest

namespace Admission
variable {a : Admission} {m : Message} {ms : List Message}

/-- A request of a client in range that is passed over. -/
structure Rejects (a : Admission) (m : Message) : Prop where
  inRange : m.request.meClientRequest.clientId.toNat < ME_MAX_NUM_CLIENTS
  refused : ¬ a.Accepts (m.socket, m.request)

/-- Every one of the messages is rejected when its turn comes. -/
def RejectsAll : Admission → List Message → Prop
  | _, [] => True
  | a, m :: ms => a.Rejects m ∧ (a.after (m.socket, m.request)).RejectsAll ms

/-- The client of a message has its socket. -/
def Bound (a : Admission) (m : Message) : Prop :=
  ∃ h : m.request.meClientRequest.clientId.toNat < ME_MAX_NUM_CLIENTS, a.cidTcpSocket ⟨_, h⟩ ≠ none

/-- A rejected request does nothing but bind its client. -/
theorem after_rejected (h : a.Rejects m) : a.after (m.socket, m.request) =
    OrderServer.bindSocket ⟨_, h.inRange⟩ m.socket (OrderServer.look m.socket m.request a) := by
  rw [after, dif_pos h.inRange, if_neg h.refused]

theorem after_rejected_next (h : a.Rejects m) : (a.after (m.socket, m.request)).cidNextExpSeqNum = a.cidNextExpSeqNum := by
  rw [after_rejected h, bindSocket_cidNextExpSeqNum]
  rfl

/-- It has no effect on a client that has its socket, ... -/
theorem after_rejected_socket (h : a.Rejects m) (hb : a.Bound m) :
    (a.after (m.socket, m.request)).cidTcpSocket = a.cidTcpSocket := by
  obtain ⟨hr, hne⟩ := hb
  obtain ⟨k, hk⟩ := Option.ne_none_iff_exists'.mp hne
  rw [after_rejected h, bindSocket_cidTcpSocket]
  change Function.update a.cidTcpSocket _ (some ((a.cidTcpSocket _).getD m.socket)) = _
  rw [hk, Option.getD_some, ← hk, Function.update_eq_self]

/-- ... and any other client has one after it. -/
theorem bound_after_rejected (h : a.Rejects m) : (a.after (m.socket, m.request)).Bound m := by
  refine ⟨h.inRange, ?_⟩
  rw [after_rejected h, bindSocket_cidTcpSocket, Function.update_self]
  exact Option.some_ne_none _

theorem Bound.after (h : a.Bound m) (x : SocketId × OMClientRequest) : (a.after x).Bound m := by
  obtain ⟨hr, hne⟩ := h
  obtain ⟨k, hk⟩ := Option.ne_none_iff_exists'.mp hne
  exact ⟨hr, by rw [after_bound hk x]; exact Option.some_ne_none k⟩

theorem bound_congr {b : Admission} (h : b.cidTcpSocket = a.cidTcpSocket) : b.Bound m ↔ a.Bound m := by
  rw [Bound, Bound, h]

/-- The acceptance of requests depends on the two tables only. -/
theorem accepts_congr {b : Admission} (hs : b.cidTcpSocket = a.cidTcpSocket) (hn : b.cidNextExpSeqNum = a.cidNextExpSeqNum)
    (y : SocketId × OMClientRequest) : b.Accepts y ↔ a.Accepts y := by
  simp only [Accepts, bindSocket_cidTcpSocket, hs, hn]

/-- A client without a socket can send its next request on any socket; once it is bound, on one only. -/
theorem accepts_differs {b : Admission} (hr : m.request.meClientRequest.clientId.toNat < ME_MAX_NUM_CLIENTS)
    (ha : ¬ a.Bound m) (hb : b.Bound m) : ∃ y, a.Accepts y ∧ ¬ b.Accepts y := by
  have hnone : a.cidTcpSocket ⟨_, hr⟩ = none := by
    by_contra hne
    exact ha ⟨hr, hne⟩
  obtain ⟨_, hne⟩ := hb
  obtain ⟨k, hk⟩ := Option.ne_none_iff_exists'.mp hne
  refine ⟨(k + 1, { m.request with seqNum := a.cidNextExpSeqNum ⟨_, hr⟩ }), ⟨hr, ?_, rfl⟩, fun ⟨_, hsocket, _⟩ => ?_⟩
  · rw [bindSocket_cidTcpSocket, Function.update_self, hnone]
    rfl
  · rw [bindSocket_cidTcpSocket, Function.update_self, hk, Option.getD_some] at hsocket
    exact absurd (Option.some.inj hsocket) (Nat.succ_ne_self k).symm

end Admission

namespace OrderServer
variable {s s' : OrderServer} {m : Message} {ms : List Message}

/-- The messages are examined one after another. -/
def examineEach (ms : List Message) : ServerM Unit := forM ms fun m => examine m.socket m.rxTime m.request

/-- Neither the tables nor the pending requests tell the two states apart. -/
structure NoTrace (s s' : OrderServer) : Prop where
  sockets : s'.cidTcpSocket = s.cidTcpSocket
  expected : s'.cidNextExpSeqNum = s.cidNextExpSeqNum
  outgoing : s'.cidNextOutgoingSeqNum = s.cidNextOutgoingSeqNum
  pending : s'.fifoSequencer.pendingClientRequests = s.fifoSequencer.pendingClientRequests

/-- Messages that are rejected one after another: the only table that may change is that of the
sockets, where every client that had none has one then. -/
theorem examineEach_rejected (h : s.RejectsAll ms) : ∃ s', examineEach ms s = .ok () s' ∧
    s'.cidNextExpSeqNum = s.cidNextExpSeqNum ∧ s'.cidNextOutgoingSeqNum = s.cidNextOutgoingSeqNum ∧
    s'.fifoSequencer = s.fifoSequencer ∧ (∀ m ∈ ms, s'.Bound m) ∧ (∀ m, s.Bound m → s'.Bound m) ∧
    ((∀ m ∈ ms, s.Bound m) → s'.cidTcpSocket = s.cidTcpSocket) := by
  induction ms generalizing s with
  | nil => exact ⟨s, rfl, rfl, rfl, rfl, by simp, fun _ hb => hb, fun _ => rfl⟩
  | cons m ms ih =>
    obtain ⟨hm, hms⟩ := h
    obtain ⟨s₁, hs₁⟩ : ∃ s₁, s₁ = s.afterExamine m.socket m.rxTime m.request := ⟨_, rfl⟩
    have hfirst : examine m.socket m.rxTime m.request s = .ok () s₁ := by
      rw [hs₁]
      exact examine_of_room hm.inRange fun ha => absurd ha hm.refused
    have htables : s₁.toAdmission = s.after (m.socket, m.request) := by rw [hs₁, afterExamine_toAdmission]
    have hseq : s₁.fifoSequencer = s.fifoSequencer := by
      rw [hs₁, afterExamine, if_neg hm.refused]
    have hout : s₁.cidNextOutgoingSeqNum = s.cidNextOutgoingSeqNum := by
      rw [hs₁]
      rfl
    obtain ⟨s', hrest, hn, ho, hf, hall, hkeep, hsame⟩ := ih (s := s₁) (by rw [htables]; exact hms)
    refine ⟨s', ?_, ?_, ho.trans hout, hf.trans hseq, ?_, fun k hk => hkeep k ?_, fun hb => ?_⟩
    · rw [examineEach, List.forM_cons, bind_of_ok hfirst]
      exact hrest
    · rw [hn, htables, Admission.after_rejected_next hm]
    · refine List.forall_mem_cons.mpr ⟨hkeep m ?_, hall⟩
      rw [htables]
      exact Admission.bound_after_rejected hm
    · rw [htables]
      exact hk.after _
    · obtain ⟨hbm, hbms⟩ := List.forall_mem_cons.mp hb
      rw [hsame fun k hk => by rw [htables]; exact (hbms k hk).after _, htables, Admission.after_rejected_socket hm hbm]

/-- What a `recvCallback` decodes, as messages. -/
def received (socket : SocketId) (rxTime : Nanos) (s : OrderServer) : List Message :=
  (requests (s.sockets socket).inbound).map fun request => ⟨socket, rxTime, request⟩

theorem examineEach_received (socket : SocketId) (rxTime : Nanos) (s : OrderServer) :
    examineEach (s.received socket rxTime) = examineAll socket rxTime (requests (s.sockets socket).inbound) := by
  rw [examineEach, received, examineAll]
  simp

/-- Messages that are all rejected leave no trace, and have no say in what is accepted later, if and
only if each of their clients had its socket before. Where they are what a socket has received,
`recvCallback` examines them, and then drops their bytes. -/
theorem rejected_noTrace_iff (h : s.RejectsAll ms) : ∃ s', examineEach ms s = .ok () s' ∧
    (NoTrace s s' ↔ ∀ m ∈ ms, s.Bound m) ∧ ((∀ y, s'.Accepts y ↔ s.Accepts y) ↔ ∀ m ∈ ms, s.Bound m) ∧
    ∀ socket rxTime, ms = s.received socket rxTime →
      ∃ c, recvCallback socket rxTime s = .ok () (putSocket socket s' c) := by
  obtain ⟨s', heval, hn, ho, hf, hall, -, hsame⟩ := examineEach_rejected h
  refine ⟨s', heval, ⟨fun hnt m hm => ?_, fun hb => ?_⟩, ⟨fun hy m hm => ?_, fun hb => ?_⟩, fun socket rxTime hms => ?_⟩
  · exact (Admission.bound_congr hnt.sockets).mp (hall m hm)
  · exact ⟨hsame hb, hn, ho, by rw [hf]⟩
  · by_contra hne
    obtain ⟨hr, -⟩ := hall m hm
    obtain ⟨y, hacc, hrej⟩ := Admission.accepts_differs hr hne (hall m hm)
    exact hrej ((hy y).mpr hacc)
  · exact Admission.accepts_congr (hsame hb) hn
  · rw [hms, examineEach_received] at heval
    obtain ⟨c, hc, -⟩ := recvCallback_ok heval
    exact ⟨c, hc⟩

/-- The request of client 0 with a number that is not expected. -/
private def early : Message := ⟨7, 5, { seqNum := 9, meClientRequest := { clientId := 0 } }⟩

private theorem rejectsAll_early (clientRequests : LFQueue MEClientRequest) (clientResponses : LFQueue MEClientResponse) :
    (fresh clientRequests clientResponses).RejectsAll [early] := by
  refine ⟨⟨by decide, ?_⟩, trivial⟩
  rintro ⟨_, _, hseq⟩
  change (9 : UInt64) = 1 at hseq
  exact absurd hseq (by decide)

/-- It binds the client to its socket: the first request that is right is then refused on another one. -/
theorem early_leavesTrace : ∃ s s' y, Reaches step (fun _ _ => True) (fresh (.ofSize 4) (.ofSize 4)) [] s ∧ s.RejectsAll [early] ∧
    examineEach [early] s = .ok () s' ∧ ¬ NoTrace s s' ∧ s.Accepts y ∧ ¬ s'.Accepts y := by
  have hrejects := rejectsAll_early (.ofSize 4) (.ofSize 4)
  obtain ⟨s', heval, -, -, -, hall, -⟩ := examineEach_rejected hrejects
  have hbound := List.forall_mem_singleton.mp hall
  have hunbound : ¬ (fresh (.ofSize 4) (.ofSize 4)).Bound early := fun ⟨_, hne⟩ => hne rfl
  obtain ⟨y, hacc, hrej⟩ := Admission.accepts_differs (by decide) hunbound hbound
  exact ⟨_, s', y, .start, hrejects, heval, fun hnt => hunbound ((Admission.bound_congr hnt.sockets).mp hbound), hacc, hrej⟩

/-- A number that is not expected, from a client that has its socket. -/
theorem rejected_noTrace_bound : ∃ s s', s.Bound early ∧ examineEach [early] s = .ok () s' ∧ NoTrace s s' := by
  obtain ⟨s, -, hsocket, hnext⟩ : ∃ s, Reaches step (fun _ _ => True) (fresh (.ofSize 4) (.ofSize 4))
      [.sendAndRecv 7 (requestBytes 0 1) 5 0] s ∧ s.cidTcpSocket 0 = some 7 ∧ s.cidNextExpSeqNum 0 = 2 :=
    exists_of_guarded (by decide +kernel)
  have hclient : early.request.meClientRequest.clientId.toNat < ME_MAX_NUM_CLIENTS := by decide
  have hbound : s.Bound early := by
    refine ⟨hclient, ?_⟩
    change s.cidTcpSocket 0 ≠ none
    rw [hsocket]
    exact Option.some_ne_none 7
  have hrejects : s.RejectsAll [early] := by
    refine ⟨⟨hclient, ?_⟩, trivial⟩
    rintro ⟨_, _, hseq⟩
    change 9 = s.cidNextExpSeqNum 0 at hseq
    rw [hnext] at hseq
    exact absurd hseq (by decide)
  obtain ⟨s', heval, htrace, -⟩ := rejected_noTrace_iff hrejects
  exact ⟨s, s', hbound, heval, htrace.mpr (List.forall_mem_singleton.mpr hbound)⟩

end OrderServer
end TradingEcosystem
