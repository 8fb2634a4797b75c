import TradingEcosystem.OrderServer.Lossless

/-! What the clients can decode from the bytes that the loop of `run` appends to their sockets. -/
namespace TradingEcosystem
open Program Runs Framing

/-- The socket that the responses to a client go to. -/
def Admission.socketOf (a : Admission) (clientId : ClientId) : Option SocketId :=
  if h : clientId.toNat < ME_MAX_NUM_CLIENTS then a.cidTcpSocket ⟨clientId.toNat, h⟩ else none

theorem Admission.socketOf_eq_some {a : Admission} {clientId : ClientId} {socket : SocketId} :
    a.socketOf clientId = some socket ↔
      ∃ h : clientId.toNat < ME_MAX_NUM_CLIENTS, a.cidTcpSocket ⟨clientId.toNat, h⟩ = some socket := by
  unfold Admission.socketOf
  split_ifs with h
  · exact ⟨fun he => ⟨h, he⟩, fun ⟨_, he⟩ => he⟩
  · exact ⟨nofun, fun ⟨h', _⟩ => absurd h' h⟩

/-- An examined request does not change where responses of bound clients go. -/
theorem Admission.socketOf_after {a : Admission} {clientId : ClientId} {socket : SocketId}
    (h : a.socketOf clientId = some socket) (x : SocketId × OMClientRequest) :
    (a.after x).socketOf clientId = some socket := by
  obtain ⟨hr, hbound⟩ := Admission.socketOf_eq_some.mp h
  exact Admission.socketOf_eq_some.mpr ⟨hr, Admission.after_bound hbound x⟩

namespace OrderServer
variable {s s' : OrderServer} {socket k : SocketId} {r : MEClientResponse} {l : List MEClientResponse} {n : Nat}
  {i : Step} {is : List Step} {u : Unit} {data : List UInt8} {ms : List OMClientResponse}

/-- The number that the next message to the client of a response carries. -/
def nextSeqNum (s : OrderServer) (r : MEClientResponse) : UInt64 :=
  if h : r.clientId.toNat < ME_MAX_NUM_CLIENTS then s.cidNextOutgoingSeqNum ⟨r.clientId.toNat, h⟩ else 0

/-! ## One turn of the loop -/

theorem onSocket_send (hroom : (s.sockets socket).nextSendValidIndex + data.length ≤ TCPBufferSize) :
    ∃ c, onSocket socket (TCPSocket.send data) s = .ok () (putSocket socket s c) ∧
      c.appended = (s.sockets socket).appended ++ data ∧
      c.nextSendValidIndex = (s.sockets socket).nextSendValidIndex + data.length :=
  ⟨_, focus_of_ok (TCPSocket.send_of_room hroom), rfl, rfl⟩

/-- A server that has sent one more response. -/
structure SentOne (s s' : OrderServer) (r : MEClientResponse) (socket : SocketId) : Prop where
  admission : s'.toAdmission = s.toAdmission
  responded : s'.responded = s.responded
  drained : s'.drained = s.drained ++ [r]
  counters : ∀ c : Fin ME_MAX_NUM_CLIENTS, s'.cidNextOutgoingSeqNum c =
    if r.clientId.toNat = c.val then s.cidNextOutgoingSeqNum c + 1 else s.cidNextOutgoingSeqNum c
  appended : (s'.sockets socket).appended =
    (s.sockets socket).appended ++ OMClientResponse.encode { seqNum := s.nextSeqNum r, meClientResponse := r }
  index : (s'.sockets socket).nextSendValidIndex = (s.sockets socket).nextSendValidIndex + OMClientResponse.size
  others : ∀ k, k ≠ socket → s'.sockets k = s.sockets k

/-- The end of a turn, when both parts of the message are appended. -/
def release (r : MEClientResponse) (cid : Fin ME_MAX_NUM_CLIENTS) : ServerM Unit := do
  onResponses LFQueue.updateReadIndex
  modify fun s => { s with
    cidNextOutgoingSeqNum := Function.update s.cidNextOutgoingSeqNum cid (s.cidNextOutgoingSeqNum cid + 1)
    drained := s.drained ++ [r] }

/-- A turn for a client with a socket. -/
theorem sendResponse_of_socket (hsocket : s.socketOf r.clientId = some socket) :
    ∃ cid : Fin ME_MAX_NUM_CLIENTS, cid.val = r.clientId.toNat ∧ sendResponse r s =
      (do onSocket socket (TCPSocket.send (Codec.u64.encode (s.nextSeqNum r)))
          onSocket socket (TCPSocket.send r.encode)
          release r cid : ServerM Unit) s := by
  obtain ⟨hr, hbound⟩ := Admission.socketOf_eq_some.mp hsocket
  have hindex : clientIndex r.clientId s = .ok ⟨r.clientId.toNat, hr⟩ s := by
    rw [clientIndex, dif_pos hr]
    rfl
  have htcp : tcpSocket r.clientId ⟨r.clientId.toNat, hr⟩ s = .ok socket s := by
    rw [tcpSocket, bind_of_ok (get_apply), hbound]
    rfl
  refine ⟨⟨r.clientId.toNat, hr⟩, rfl, ?_⟩
  rw [sendResponse, bind_of_ok hindex, bind_of_ok htcp, bind_of_ok (get_apply), nextSeqNum, dif_pos hr]
  rfl

theorem length_parts (s : OrderServer) (r : MEClientResponse) :
    (Codec.u64.encode (s.nextSeqNum r)).length + r.encode.length = OMClientResponse.size := by
  have hfirst : (Codec.u64.encode (s.nextSeqNum r)).length = 8 := Codec.u64.length_encode _
  have hsecond : r.encode.length = 42 := MEClientResponse.fieldsCodec.length_encode _
  rw [hfirst, hsecond]
  rfl

theorem sendResponse_of_room (hsocket : s.socketOf r.clientId = some socket)
    (hroom : (s.sockets socket).nextSendValidIndex + OMClientResponse.size ≤ TCPBufferSize) :
    ∃ cid c, cid.val = r.clientId.toNat ∧ sendResponse r s = release r cid (putSocket socket s c) ∧
      c.appended = (s.sockets socket).appended ++ OMClientResponse.encode { seqNum := s.nextSeqNum r, meClientResponse := r } ∧
      c.nextSendValidIndex = (s.sockets socket).nextSendValidIndex + OMClientResponse.size := by
  obtain ⟨cid, hcid, hsend⟩ := sendResponse_of_socket hsocket
  have hsize := length_parts s r
  obtain ⟨c₁, h₁, happended₁, hnext₁⟩ : ∃ c, onSocket socket (TCPSocket.send (Codec.u64.encode (s.nextSeqNum r))) s =
      .ok () (putSocket socket s c) ∧ _ := onSocket_send (by omega)
  have hsocket₁ : (putSocket socket s c₁).sockets socket = c₁ := putSocket_self ..
  obtain ⟨c₂, h₂, happended₂, hnext₂⟩ : ∃ c, onSocket socket (TCPSocket.send r.encode) (putSocket socket s c₁) =
      .ok () (putSocket socket (putSocket socket s c₁) c) ∧ _ := onSocket_send (by rw [hsocket₁]; omega)
  have hboth : putSocket socket (putSocket socket s c₁) c₂ = putSocket socket s c₂ := by
    simp only [putSocket, Function.update_idem]
  rw [hsocket₁] at happended₂ hnext₂
  refine ⟨cid, c₂, hcid, ?_, ?_, ?_⟩
  · rw [hsend, bind_of_ok h₁, bind_of_ok h₂, hboth]
  · rw [happended₂, happended₁, List.append_assoc]
    rfl
  · omega

theorem sendResponse_ok (hsocket : s.socketOf r.clientId = some socket)
    (hroom : (s.sockets socket).nextSendValidIndex + OMClientResponse.size ≤ TCPBufferSize)
    (hq : s.outgoingResponses.Holds n (r :: l)) :
    ∃ s', sendResponse r s = .ok () s' ∧ s'.outgoingResponses.Holds (n + 1) l ∧
      s'.outgoingResponses.size = s.outgoingResponses.size ∧ SentOne s s' r socket := by
  obtain ⟨cid, c, hcid, hsend, happended, hindex⟩ := sendResponse_of_room hsocket hroom
  obtain ⟨q, hread, hheld, hqsize⟩ := hq.updateReadIndex_eq
  have hresponses : onResponses LFQueue.updateReadIndex (putSocket socket s c) =
      .ok () { putSocket socket s c with outgoingResponses := q } := focus_of_ok hread
  have hself : (putSocket socket s c).sockets socket = c := putSocket_self ..
  rw [hsend, release, bind_of_ok hresponses]
  refine ⟨_, rfl, hheld, hqsize, rfl, rfl, rfl, fun c' => ?_, ?_, ?_, fun k hk => putSocket_of_ne hk _ _⟩
  · dsimp only [putSocket]
    rw [Function.update_apply]
    by_cases hc : c' = cid
    · rw [if_pos hc, if_pos (by rw [hc, hcid]), hc]
    · rw [if_neg hc, if_neg fun e => hc (Fin.ext (hcid.trans e).symm)]
  · exact (congrArg TCPSocket.appended hself).trans happended
  · exact (congrArg TCPSocket.nextSendValidIndex hself).trans hindex

/-! ## The messages sent so far -/

/-- The messages `ms` are what was sent: their responses are the drained ones, each socket got the
bytes of the messages to its clients, and the messages to a client are numbered from 1 on. -/
structure Told (s : OrderServer) (ms : List OMClientResponse) : Prop where
  drained : ms.map (·.meClientResponse) = s.drained
  bound : ∀ m ∈ ms, ∃ k, s.socketOf m.meClientResponse.clientId = some k
  appended : ∀ k, (s.sockets k).appended =
    (ms.filter fun m => s.socketOf m.meClientResponse.clientId = some k).flatMap OMClientResponse.encode
  numbers : ∀ c, (ms.filter fun m => m.meClientResponse.clientId.toNat = c).map (·.seqNum) =
    (List.range' 1 (ms.filter fun m => m.meClientResponse.clientId.toNat = c).length).map UInt64.ofNat
  counters : ∀ c : Fin ME_MAX_NUM_CLIENTS, s.cidNextOutgoingSeqNum c =
    UInt64.ofNat ((ms.filter fun m => m.meClientResponse.clientId.toNat = c.val).length + 1)

/-- The responses `l` are in the queue. -/
structure Waiting (s : OrderServer) (l : List MEClientResponse) : Prop where
  responded : s.responded = s.drained ++ l
  queue : s.outgoingResponses.Holds s.drained.length l

/-- Nothing is sent or written to the queue, and bound clients stay bound. -/
structure Unsent (s s' : OrderServer) : Prop where
  queue : s'.outgoingResponses = s.outgoingResponses
  counters : s'.cidNextOutgoingSeqNum = s.cidNextOutgoingSeqNum
  responded : s'.responded = s.responded
  drained : s'.drained = s.drained
  appended : ∀ k, (s'.sockets k).appended = (s.sockets k).appended
  bound : ∀ {c k}, s.socketOf c = some k → s'.socketOf c = some k

instance : IsPreorder OrderServer Unsent where
  refl _ := ⟨rfl, rfl, rfl, rfl, fun _ => rfl, id⟩
  trans _ _ _ h h' := ⟨h'.queue.trans h.queue, h'.counters.trans h.counters, h'.responded.trans h.responded,
    h'.drained.trans h.drained, fun k => (h'.appended k).trans (h.appended k), fun hk => h'.bound (h.bound hk)⟩

theorem unsent_step (hi : (∃ socket bytes rxTime took, i = .sendAndRecv socket bytes rxTime took) ∨
    ∃ sorted, i = .recvFinishedCallBack sorted) : Frame Unsent (step i) := by
  rcases hi with ⟨socket, bytes, rxTime, took, rfl⟩ | ⟨sorted, rfl⟩
  · have hexamine : ∀ socket rxTime request, Frame Unsent (examine socket rxTime request) := by
      intro socket rxTime request s
      have hrest := frame_examine socket rxTime request s
      have htables := final_examine_toAdmission socket rxTime request s
      refine ⟨by rw [hrest], by rw [hrest], by rw [hrest], by rw [hrest], fun k => by rw [hrest], fun {c k} hk => ?_⟩
      rw [htables]
      exact Admission.socketOf_after hk _
    have hunsent : ∀ socket s (t : TCPSocket), t.appended = (s.sockets socket).appended →
        Unsent s (putSocket socket s t) := fun socket s t ht => by
      refine ⟨rfl, rfl, rfl, rfl, fun k => ?_, id⟩
      by_cases hk : k = socket
      · rw [hk, putSocket_self, ht]
      · rw [putSocket_of_ne hk]
    exact .bind (frame_sendAndRecv hexamine hunsent socket bytes rxTime took) fun _ => .pure _
  · exact .focus fun s => ⟨rfl, rfl, rfl, rfl, fun _ => rfl, id⟩

theorem Told.congr (h : Told s ms) (hu : Unsent s s') : Told s' ms := by
  have hsame : ∀ k, (ms.filter fun m => s'.socketOf m.meClientResponse.clientId = some k) =
      ms.filter fun m => s.socketOf m.meClientResponse.clientId = some k := fun k => by
    apply List.filter_congr
    intro m hm
    obtain ⟨k', hk'⟩ := h.bound m hm
    rw [hu.bound hk', hk']
  refine ⟨h.drained.trans hu.drained.symm, fun m hm => ?_, fun k => ?_, h.numbers, fun c => ?_⟩
  · obtain ⟨k, hk⟩ := h.bound m hm
    exact ⟨k, hu.bound hk⟩
  · rw [hu.appended, h.appended, hsame]
  · rw [hu.counters, h.counters]

theorem Waiting.congr {l : List MEClientResponse} (h : Waiting s l) (hu : Unsent s s') : Waiting s' l :=
  ⟨by rw [hu.responded, hu.drained, h.responded], by rw [hu.queue, hu.drained]; exact h.queue⟩

theorem Told.sent (h : Told s ms) (hs : SentOne s s' r socket) (hsocket : s.socketOf r.clientId = some socket) :
    Told s' (ms ++ [{ seqNum := s.nextSeqNum r, meClientResponse := r }]) := by
  obtain ⟨m, hm⟩ : ∃ m : OMClientResponse, m = { seqNum := s.nextSeqNum r, meClientResponse := r } := ⟨_, rfl⟩
  have hmr : m.meClientResponse = r := by rw [hm]
  obtain ⟨hr, -⟩ := Admission.socketOf_eq_some.mp hsocket
  have hnext : m.seqNum = UInt64.ofNat ((ms.filter fun m => m.meClientResponse.clientId.toNat = r.clientId.toNat).length + 1) := by
    rw [hm]
    exact (dif_pos hr).trans (h.counters ⟨r.clientId.toNat, hr⟩)
  have hmine : ∀ c, r.clientId.toNat = c → ((ms ++ [m]).filter fun m => m.meClientResponse.clientId.toNat = c) =
      (ms.filter fun m => m.meClientResponse.clientId.toNat = c) ++ [m] := fun c hc => by
    rw [List.filter_append]
    simp [hmr, hc]
  have hother : ∀ c, r.clientId.toNat ≠ c → ((ms ++ [m]).filter fun m => m.meClientResponse.clientId.toNat = c) =
      ms.filter fun m => m.meClientResponse.clientId.toNat = c := fun c hc => by
    rw [List.filter_append]
    simp [hmr, hc]
  rw [← hm]
  refine ⟨?_, fun x hx => ?_, fun k => ?_, fun c => ?_, fun c => ?_⟩
  · rw [List.map_append, List.map_singleton, h.drained, hs.drained, hmr]
  · rw [hs.admission]
    rcases List.mem_append.mp hx with hx | hx
    · exact h.bound x hx
    · rw [List.mem_singleton.mp hx, hmr]
      exact ⟨socket, hsocket⟩
  · rw [hs.admission, List.filter_append, List.filter_singleton, hmr, hsocket, List.flatMap_append, ← h.appended]
    by_cases hk : k = socket
    · subst hk
      rw [hs.appended, hm]
      simp
    · rw [hs.others k hk]
      simp [Ne.symm hk]
  · by_cases hc : r.clientId.toNat = c
    · rw [hmine c hc, List.map_append, h.numbers, List.length_append, List.length_singleton, List.range'_concat,
        List.map_append, List.map_singleton, List.map_singleton, hnext, hc, Nat.one_mul, Nat.add_comm 1]
    · rw [hother c hc]
      exact h.numbers c
  · rw [hs.counters]
    by_cases hc : r.clientId.toNat = c.val
    · rw [if_pos hc, hmine c hc, List.length_append, List.length_singleton, h.counters]
      exact (UInt64.ofNat_add ..).symm
    · rw [if_neg hc, hother c hc]
      exact h.counters c

theorem Waiting.sent (h : Waiting s (r :: l)) (hs : SentOne s s' r socket)
    (hq : s'.outgoingResponses.Holds (s.drained.length + 1) l) : Waiting s' l := by
  refine ⟨?_, ?_⟩
  · rw [hs.responded, hs.drained, h.responded, List.append_assoc]
    rfl
  · rw [hs.drained, List.length_append, List.length_singleton]
    exact hq

/-! ## The loop -/

/-- Every response of `l` has a socket whose buffer has room for all of `l` that goes there. -/
def RoomFor (s : OrderServer) (l : List MEClientResponse) : Prop :=
  ∀ r ∈ l, ∃ k ∈ s.socketOf r.clientId, (s.sockets k).nextSendValidIndex +
    OMClientResponse.size * (l.filter fun r => s.socketOf r.clientId = some k).length ≤ TCPBufferSize

instance (s : OrderServer) (l : List MEClientResponse) : Decidable (RoomFor s l) :=
  inferInstanceAs (Decidable (∀ r ∈ l, ∃ k ∈ s.socketOf r.clientId, _))

theorem RoomFor.sent (h : RoomFor s (r :: l)) (hs : SentOne s s' r socket) (hsocket : s.socketOf r.clientId = some socket) :
    RoomFor s' l := by
  intro r' hr'
  obtain ⟨k, hk, hroom⟩ := h r' (List.mem_cons_of_mem _ hr')
  refine ⟨k, by rw [hs.admission]; exact hk, ?_⟩
  rw [hs.admission]
  rw [List.filter_cons, hsocket] at hroom
  by_cases he : k = socket
  · subst he
    simp only [decide_true, if_true, List.length_cons] at hroom
    rw [hs.index]
    rw [Nat.mul_add, Nat.mul_one] at hroom
    omega
  · have hne : ¬ some socket = some k := fun e => he (Option.some.inj e).symm
    simp only [hne, decide_false, Bool.false_eq_true, if_false] at hroom
    rw [hs.others k he]
    exact hroom

theorem nextResponse_cons (h : Waiting s (r :: l)) : s.nextResponse = some r := by
  rw [nextResponse, if_neg h.queue.numElements_ne_zero, h.queue.getNextToRead_eq]
  rfl

theorem nextResponse_nil (h : Waiting s []) : s.nextResponse = none := by
  rw [nextResponse, h.queue.getNextToRead_eq]
  split <;> rfl

/-- The loop sends everything that waits, one turn for each response. -/
theorem drainLoop_ok {turns : Nat} (hw : Waiting s l) (ht : Told s ms) (hroom : RoomFor s l) (hturns : l.length < turns) :
    ∃ s' ms', drainLoop turns s = .ok () s' ∧ Waiting s' [] ∧ Told s' ms' ∧
      s'.outgoingResponses.size = s.outgoingResponses.size ∧ s'.responded = s.responded := by
  induction l generalizing s ms turns with
  | nil =>
    obtain ⟨turns, rfl⟩ : ∃ t, turns = t + 1 := ⟨turns - 1, by omega⟩
    rw [drainLoop, bind_of_ok (get_apply), nextResponse_nil hw]
    exact ⟨s, ms, rfl, hw, ht, rfl, rfl⟩
  | cons r l ih =>
    obtain ⟨turns, rfl⟩ : ∃ t, turns = t + 1 := ⟨turns - 1, by omega⟩
    rw [List.length_cons] at hturns
    obtain ⟨socket, hsocket, hfits⟩ := hroom r List.mem_cons_self
    rw [Option.mem_def] at hsocket
    have hone : 1 ≤ ((r :: l).filter fun r => s.socketOf r.clientId = some socket).length :=
      List.length_pos_of_mem (List.mem_filter.mpr ⟨List.mem_cons_self, by rw [hsocket]; exact decide_eq_true rfl⟩)
    have hfit : (s.sockets socket).nextSendValidIndex + OMClientResponse.size ≤ TCPBufferSize := by
      have := Nat.mul_le_mul_left OMClientResponse.size hone
      omega
    obtain ⟨s₁, h₁, hq, hsize, hs⟩ := sendResponse_ok hsocket hfit hw.queue
    have hlt : l.length < turns := by omega
    obtain ⟨s', ms', h', hw', ht', hsize', hresp⟩ := ih (hw.sent hs hq) (ht.sent hs hsocket) (hroom.sent hs hsocket) hlt
    refine ⟨s', ms', ?_, hw', ht', hsize'.trans hsize, hresp.trans hs.responded⟩
    rw [drainLoop, bind_of_ok (get_apply), nextResponse_cons hw]
    exact (bind_of_ok h₁).trans h'

/-- A server with the clients bound to sockets in some way, and nothing else done. -/
def bound (cidTcpSocket : Fin ME_MAX_NUM_CLIENTS → Option SocketId) (clientRequests : LFQueue MEClientRequest) (n : Nat) :
    OrderServer :=
  { fresh clientRequests (.ofSize n) with cidTcpSocket }

/-- The responses in the queue. -/
def unread (s : OrderServer) : List MEClientResponse := s.responded.drop s.drained.length

/-- The engine writes while the queue has room, and the loop runs while the buffers have room
for what it appends. -/
def Sendable (s : OrderServer) : Step → Prop
  | .send .. => False
  | .respond _ => s.unread.length + 1 < s.outgoingResponses.size
  | .drain => RoomFor s s.unread
  | .sendAndRecv .. | .recvFinishedCallBack _ => True

instance (s : OrderServer) (i : Step) : Decidable (Sendable s i) := by
  cases i <;> unfold Sendable <;> infer_instance

theorem Waiting.unread (h : Waiting s l) : s.unread = l := by
  rw [OrderServer.unread, h.responded, List.drop_left]

theorem drain_ok (hw : Waiting s l) (ht : Told s ms) (hroom : RoomFor s l) :
    ∃ s' ms', step .drain s = .ok () s' ∧ Waiting s' [] ∧ Told s' ms' ∧ s'.responded = s.responded := by
  have hlen : l.length < s.outgoingResponses.size + 1 := by
    have := hw.queue.room
    omega
  obtain ⟨s', ms', h, hw', ht', -, hresp⟩ := drainLoop_ok hw ht hroom hlen
  exact ⟨s', ms', (bind_of_ok (get_apply)).trans h, hw', ht', hresp⟩

theorem Told.step (hw : Waiting s l) (ht : Told s ms) (hg : Sendable s i) (hr : OrderServer.step i s = .ok u s') :
    ∃ l' ms', Waiting s' l' ∧ Told s' ms' := by
  cases i with
  | send => exact hg.elim
  | respond r =>
    cases hr
    have hroom : s.unread.length + 1 < s.outgoingResponses.size := hg
    rw [hw.unread] at hroom
    refine ⟨l ++ [r], ms, ⟨?_, hw.queue.write_of_room hroom⟩, ht.drained, ht.bound, ht.appended, ht.numbers, ht.counters⟩
    dsimp only
    rw [hw.responded, List.append_assoc]
  | drain =>
    have hroom : RoomFor s s.unread := hg
    rw [hw.unread] at hroom
    obtain ⟨t, ms', h, hw', ht', -⟩ := drain_ok hw ht hroom
    rw [hr] at h
    cases h
    exact ⟨[], ms', hw', ht'⟩
  | sendAndRecv socket bytes rxTime took =>
    have hu := (unsent_step (.inl ⟨socket, bytes, rxTime, took, rfl⟩)).of_ok hr
    exact ⟨l, ms, hw.congr hu, ht.congr hu⟩
  | recvFinishedCallBack sorted =>
    have hu := (unsent_step (.inr ⟨sorted, rfl⟩)).of_ok hr
    exact ⟨l, ms, hw.congr hu, ht.congr hu⟩

theorem told_run {cidTcpSocket : Fin ME_MAX_NUM_CLIENTS → Option SocketId} {clientRequests : LFQueue MEClientRequest}
    (hn : 0 < n) (hsmall : n ≤ 2 ^ 64) (h : Reaches step Sendable (bound cidTcpSocket clientRequests n) is s) :
    ∃ l ms, Waiting s l ∧ Told s ms := by
  apply h.invariant (I := fun _ s => ∃ l ms, Waiting s l ∧ Told s ms)
  · exact ⟨[], [], ⟨rfl, LFQueue.holds_ofSize hn hsmall⟩, rfl, nofun, fun _ => rfl, fun _ => rfl, fun _ => rfl⟩
  · rintro is s i s' ⟨l, ms, hw, ht⟩ hg hr
    exact Told.step hw ht hg hr

/-- The bytes appended to a socket decode, frame by frame, to the sent responses of its clients in
the order of the queue, numbered 1, 2, 3, ... for each client. -/
def Decodes (s : OrderServer) (k : SocketId) : Prop :=
  ∃ ms : List OMClientResponse,
    (frames OMClientResponse.size (s.sockets k).appended).map OMClientResponse.decode = ms.map some ∧
    leftover OMClientResponse.size (s.sockets k).appended = [] ∧
    ms.map (·.meClientResponse) = (s.drained.filter fun r => s.socketOf r.clientId = some k) ∧
    ∀ c : ClientId, (ms.filter fun m => m.meClientResponse.clientId = c).map (·.seqNum.toNat) =
      List.range' 1 (ms.filter fun m => m.meClientResponse.clientId = c).length

theorem Told.numbered (h : Told s ms) (hfew : s.drained.length < 2 ^ 64) (c : Nat) :
    (ms.filter fun m => m.meClientResponse.clientId.toNat = c).map (·.seqNum.toNat) =
      List.range' 1 (ms.filter fun m => m.meClientResponse.clientId.toNat = c).length := by
  have hlen : (ms.filter fun m => m.meClientResponse.clientId.toNat = c).length ≤ s.drained.length := by
    rw [← h.drained, List.length_map]
    exact List.length_filter_le ..
  calc (ms.filter fun m => m.meClientResponse.clientId.toNat = c).map (·.seqNum.toNat)
      = ((ms.filter fun m => m.meClientResponse.clientId.toNat = c).map (·.seqNum)).map UInt64.toNat := by
        rw [List.map_map]
        rfl
    _ = ((List.range' 1 (ms.filter fun m => m.meClientResponse.clientId.toNat = c).length).map UInt64.ofNat).map
          UInt64.toNat := by rw [h.numbers]
    _ = (List.range' 1 (ms.filter fun m => m.meClientResponse.clientId.toNat = c).length).map id := by
        rw [List.map_map]
        apply List.map_congr_left
        intro i hi
        have := (List.mem_range'_1.mp hi).2
        exact UInt64.toNat_ofNat_of_lt' (by rw [UInt64.size]; omega)
    _ = _ := List.map_id _

/-- The messages to a client all go to one socket. -/
theorem filter_client (s : OrderServer) (k : SocketId) (ms : List OMClientResponse) (c : Nat) :
    let mine := ms.filter fun m => m.meClientResponse.clientId.toNat = c
    ((ms.filter fun m => s.socketOf m.meClientResponse.clientId = some k).filter fun m => m.meClientResponse.clientId.toNat = c) =
      mine ∨
    ((ms.filter fun m => s.socketOf m.meClientResponse.clientId = some k).filter fun m => m.meClientResponse.clientId.toNat = c) =
      [] := by
  intro mine
  have hsame : ∀ m m' : OMClientResponse, m.meClientResponse.clientId.toNat = m'.meClientResponse.clientId.toNat →
      s.socketOf m.meClientResponse.clientId = s.socketOf m'.meClientResponse.clientId := fun m m' h => by
    unfold Admission.socketOf
    simp only [h]
  rw [List.filter_filter]
  by_cases hk : ∃ m ∈ ms, m.meClientResponse.clientId.toNat = c ∧ s.socketOf m.meClientResponse.clientId = some k
  · obtain ⟨m, -, hc, hsocket⟩ := hk
    left
    apply List.filter_congr
    intro m' _
    by_cases hc' : m'.meClientResponse.clientId.toNat = c
    · simp [hc', hsame m' m (hc'.trans hc.symm), hsocket]
    · simp [hc']
  · right
    apply List.filter_eq_nil_iff.mpr
    intro m hm h
    rw [Bool.and_eq_true, decide_eq_true_iff, decide_eq_true_iff] at h
    exact hk ⟨m, hm, h⟩

/-- Whatever clients are bound to whatever sockets, every socket decodes back; and a run of the
loop for which the buffers have room returns and has sent all that was written to the queue. -/
theorem run_decodes {cidTcpSocket : Fin ME_MAX_NUM_CLIENTS → Option SocketId} {clientRequests : LFQueue MEClientRequest}
    (hn : 0 < n) (hsmall : n ≤ 2 ^ 64) (h : Reaches step Sendable (bound cidTcpSocket clientRequests n) is s)
    (hfew : s.drained.length < 2 ^ 64) :
    (∀ k, Decodes s k) ∧ (Sendable s .drain → ∃ s', step .drain s = .ok () s' ∧ s'.drained = s.responded) := by
  obtain ⟨l, ms, hw, ht⟩ := told_run hn hsmall h
  constructor
  · intro k
    obtain ⟨hdecode, hrest⟩ := OMClientResponse.decode_frames (ms.filter fun m => s.socketOf m.meClientResponse.clientId = some k)
    refine ⟨ms.filter fun m => s.socketOf m.meClientResponse.clientId = some k, ?_, ?_, ?_, fun c => ?_⟩
    · rw [ht.appended, hdecode]
    · rw [ht.appended, hrest]
    · rw [← ht.drained, List.filter_map]
      rfl
    · simp only [← UInt32.toNat_inj]
      rcases filter_client s k ms c.toNat with hall | hnone
      · rw [hall]
        exact ht.numbered hfew c.toNat
      · rw [hnone]
        rfl
  · intro hg
    have hroom : RoomFor s s.unread := hg
    rw [hw.unread] at hroom
    obtain ⟨s', ms', h', hw', -, hresp⟩ := drain_ok hw ht hroom
    exact ⟨s', h', by rw [← hresp, hw'.responded, List.append_nil]⟩

def acceptedResponse (clientId : ClientId) : MEClientResponse :=
  { type := .ACCEPTED, clientId, tickerId := 1, clientOrderId := 5, marketOrderId := 9, side := .BUY, price := 100,
    execQty := 0, leavesQty := 10 }

theorem run_decodes_sharedSocket : ∃ is s,
    Reaches step Sendable (bound (fun _ => some 7) (.ofSize 4) 4) is s ∧ s.drained.length = 2 ∧ Decodes s 7 := by
  obtain ⟨s, h, hlength⟩ : ∃ s, Reaches step Sendable (bound (fun _ => some 7) (.ofSize 4) 4)
      [.respond (acceptedResponse 3), .respond (acceptedResponse 4), .drain] s ∧ s.drained.length = 2 :=
    exists_of_guarded (by decide +kernel)
  have hfew : s.drained.length < 2 ^ 64 := by
    rw [hlength]
    decide
  exact ⟨_, s, h, hlength, (run_decodes (by decide) (by decide) h hfew).1 7⟩

end OrderServer
end TradingEcosystem
