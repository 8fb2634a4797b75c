import TradingEcosystem.OrderServer.Receiving

/-! When the bytes given to a socket all reach the kernel. -/
namespace TradingEcosystem.OrderServer
open Program Runs TCPSocket
variable {s s' t : OrderServer} {socket k : SocketId} {rxTime : Nanos} {bytes : List UInt8} {took : Nat} {f : Fault}
  {u : Unit} {is : List Step}

/-- The steps that are calls of a method of a socket, or end a round of them. -/
def Step.OnSockets : Step → Prop
  | .respond _ | .drain => False
  | _ => True

abbrev SocketStep := { i : Step // i.OnSockets }

def socketStep (i : SocketStep) : ServerM Unit := step i.val

/-- Nothing is sent on any socket. -/
def SendsNothing (s s' : OrderServer) : Prop := ∀ k, (s'.sockets k).sendSide = (s.sockets k).sendSide

instance : IsPreorder OrderServer SendsNothing where
  refl _ _ := rfl
  trans _ _ _ h h' k := (h' k).trans (h k)

theorem sendsNothing_putSocket {c : TCPSocket} (h : c.sendSide = (s.sockets socket).sendSide) :
    SendsNothing s (putSocket socket s c) := fun k => by
  by_cases hk : k = socket
  · subst hk
    rwa [putSocket_self]
  · rw [putSocket_of_ne hk]

/-- Receiving sends nothing, also when it stops. -/
theorem receive_sendsNothing (socket : SocketId) (rxTime : Nanos) (bytes : List UInt8) :
    Frame SendsNothing (TCPSocket.receive (onSocket socket) (recvCallback socket rxTime) bytes) := by
  have hexamine : ∀ socket rxTime request, Frame SendsNothing (examine socket rxTime request) := fun socket rxTime request =>
    (frame_examine socket rxTime request).mono fun s s' h k => by rw [h.sockets]
  have hmove : ∀ i, Frame SendsNothing (onSocket socket (moveLeftover i)) := fun i =>
    .focus fun s => sendsNothing_putSocket (sendSide_moveLeftover i _)
  have hrecv : Frame SendsNothing (onSocket socket (recvmsg bytes)) := .focus fun s => sendsNothing_putSocket rfl
  exact .ite (.pure _) (.bind hrecv fun _ => frame_recvCallback (hexamine socket) hmove rxTime)

/-- What a step does to the sending sides: a `send`, a `::send` after a receive that returned,
or nothing. -/
theorem socketStep_cases (i : SocketStep) (s : OrderServer) :
    (∃ socket data, i.val = .send socket data ∧
      final (socketStep i s) = putSocket socket s (final (TCPSocket.send data (s.sockets socket)))) ∨
    (∃ socket bytes rxTime took t, i.val = .sendAndRecv socket bytes rxTime took ∧
      TCPSocket.receive (onSocket socket) (recvCallback socket rxTime) bytes s = .ok () t ∧ SendsNothing s t ∧
      final (socketStep i s) = putSocket socket t (TCPSocket.flushed took (t.sockets socket))) ∨
    (SendsNothing s (final (socketStep i s)) ∧ (∀ socket data, i.val ≠ .send socket data) ∧
      ∀ socket bytes rxTime took, i.val = .sendAndRecv socket bytes rxTime took →
        stop (TCPSocket.receive (onSocket socket) (recvCallback socket rxTime) bytes s) ≠ none) := by
  obtain ⟨i, hi⟩ := i
  cases i with
  | respond | drain => exact hi.elim
  | send socket data => exact .inl ⟨socket, data, rfl, final_onSocket ..⟩
  | recvFinishedCallBack sorted =>
    have hframe : Frame SendsNothing (OrderServer.recvFinishedCallBack sorted) := .focus fun s k => rfl
    exact .inr (.inr ⟨hframe s, nofun, nofun⟩)
  | sendAndRecv socket bytes rxTime took =>
    have hframe := receive_sendsNothing socket rxTime bytes
    cases h : TCPSocket.receive (onSocket socket) (recvCallback socket rxTime) bytes s with
    | ok u t =>
      refine .inr (.inl ⟨socket, bytes, rxTime, took, t, rfl, h, hframe.of_ok h, ?_⟩)
      rw [socketStep, step_of_receive_ok h, final_ok]
    | error f t =>
      refine .inr (.inr ⟨?_, nofun, ?_⟩)
      · rw [socketStep, step_of_receive_error h, final_error]
        exact hframe.of_error h
      · rintro _ _ _ _ ⟨⟩
        rw [h]
        nofun

/-- The bytes fit into the buffer of the socket; and a `::send`, if the step comes to it, takes
all the bytes held. -/
def TakesAll (s : OrderServer) (i : SocketStep) : Prop :=
  match i.val with
  | .send socket data => (s.sockets socket).nextSendValidIndex + data.length ≤ TCPBufferSize
  | .sendAndRecv socket bytes rxTime took =>
    stop (TCPSocket.receive (onSocket socket) (recvCallback socket rxTime) bytes s) = none →
      (s.sockets socket).nextSendValidIndex ≤ took
  | _ => True

instance (s : OrderServer) (i : SocketStep) : Decidable (TakesAll s i) :=
  match i with
  | ⟨.send _ _, _⟩ => inferInstanceAs (Decidable (_ ≤ _))
  | ⟨.sendAndRecv .., _⟩ => inferInstanceAs (Decidable (_ = _ → _))
  | ⟨.recvFinishedCallBack _, _⟩ => .isTrue trivial
  | ⟨.respond _, hi⟩ | ⟨.drain, hi⟩ => hi.elim

theorem forall_putSocket {P : TCPSocket → Prop} {c : TCPSocket} :
    (∀ k, P ((putSocket socket s c).sockets k)) ↔ P c ∧ ∀ k, k ≠ socket → P (s.sockets k) := by
  constructor
  · intro h
    refine ⟨by simpa using h socket, fun k hk => ?_⟩
    rw [← putSocket_of_ne hk s c]
    exact h k
  · rintro ⟨hc, h⟩ k
    by_cases hk : k = socket
    · subst hk
      rwa [putSocket_self]
    · rw [putSocket_of_ne hk]
      exact h k hk

/-- A property of one socket that changes as `good` says, and of the others unchanged. -/
theorem forall_putSocket_iff {P : TCPSocket → Prop} {c : TCPSocket} {good : Prop}
    (hc : P c ↔ P (s.sockets socket) ∧ good) :
    (∀ k, P ((putSocket socket s c).sockets k)) ↔ (∀ k, P (s.sockets k)) ∧ good := by
  rw [forall_putSocket, hc]
  constructor
  · rintro ⟨⟨hp, hg⟩, h⟩
    refine ⟨fun k => ?_, hg⟩
    by_cases hk : k = socket
    · rwa [hk]
    · exact h k hk
  · rintro ⟨h, hg⟩
    exact ⟨⟨h socket, hg⟩, fun k _ => h k⟩

theorem accounted_socketStep (hs : ∀ k, (s.sockets k).Accounted) (i : SocketStep) :
    ∀ k, ((final (socketStep i s)).sockets k).Accounted := by
  rcases socketStep_cases i s with ⟨socket, data, -, hf⟩ | ⟨socket, _, _, took, t, -, -, ht, hf⟩ | ⟨hf, -⟩
  · rw [hf, forall_putSocket]
    exact ⟨((hs socket).send data).1, fun k _ => hs k⟩
  · have hst : ∀ k, (t.sockets k).Accounted := fun k => (hs k).congr (ht k)
    rw [hf, forall_putSocket]
    exact ⟨((hst socket).flushed took).1, fun k _ => hst k⟩
  · exact fun k => (hs k).congr (hf k)

/-- A step loses no byte exactly if it takes all it sends; what was lost before stays lost. -/
theorem lossless_socketStep (hs : ∀ k, (s.sockets k).Accounted) (i : SocketStep) :
    (∀ k, ((final (socketStep i s)).sockets k).Lossless) ↔ (∀ k, (s.sockets k).Lossless) ∧ TakesAll s i := by
  unfold TakesAll
  rcases socketStep_cases i s with ⟨socket, data, hi, hf⟩ | ⟨socket, bytes, rxTime, took, t, hi, hr, ht, hf⟩ | ⟨hf, hi, hi'⟩
  · rw [hf, hi]
    exact forall_putSocket_iff ((hs socket).send data).2
  · have hst : ∀ k, (t.sockets k).Accounted := fun k => (hs k).congr (ht k)
    have hall : (∀ k, (t.sockets k).Lossless) ↔ ∀ k, (s.sockets k).Lossless := forall_congr' fun k => lossless_congr (ht k)
    have hnext : (t.sockets socket).nextSendValidIndex = (s.sockets socket).nextSendValidIndex :=
      congrArg (fun x => x.2.1) (ht socket)
    rw [hf, hi, forall_putSocket_iff ((hst socket).flushed took).2, hall, hnext]
    refine and_congr_right fun _ => ⟨fun h _ => h, fun h => h ?_⟩
    rw [hr]
    rfl
  · rw [forall_congr' fun k => lossless_congr (hf k)]
    refine (and_iff_left ?_).symm
    split
    · exact absurd ‹_› (hi _ _)
    · exact fun hstop => absurd hstop (hi' _ _ _ _ ‹_›)
    · trivial

/-- In every state a run of socket calls shows, all bytes passed to `send` were taken by the
kernel or are held, in their order, if and only if every call fitted into its buffer and every
`::send` took all that was held. -/
theorem run_lossless_iff {clientRequests : LFQueue MEClientRequest} {clientResponses : LFQueue MEClientResponse}
    {is : List SocketStep} (h : Observes socketStep (fun _ _ => True) (fresh clientRequests clientResponses) is s) :
    (∀ k, (s.sockets k).Lossless) ↔ Observes socketStep TakesAll (fresh clientRequests clientResponses) is s := by
  refine h.good_iff (I := fun s => ∀ k, (s.sockets k).Accounted) (P := fun s => ∀ k, (s.sockets k).Lossless)
    (fun k => ?_) (fun k => rfl) (fun s i hs => accounted_socketStep hs i) (fun s i hs hp => ?_) (fun s i hs hp => ?_)
  · exact ⟨Nat.zero_le _, fun hn => absurd rfl hn⟩
  · exact ((lossless_socketStep hs i).mp hp).1
  · exact (lossless_socketStep hs i).trans (and_iff_right hp)

theorem run_lossless_twoSends : ∃ is s, Observes socketStep (fun _ _ => True) (fresh (.ofSize 4) (.ofSize 4)) is s ∧
    (s.sockets 7).appended = [1, 2, 3] ∧ ∀ k, (s.sockets k).Lossless := by
  obtain ⟨s, h, happended⟩ : ∃ s, Reaches socketStep TakesAll (fresh (.ofSize 4) (.ofSize 4))
      [⟨.send 7 [1, 2], trivial⟩, ⟨.sendAndRecv 7 [] 0 2, trivial⟩, ⟨.send 7 [3], trivial⟩] s ∧
      (s.sockets 7).appended = [1, 2, 3] :=
    exists_of_guarded (by decide +kernel)
  have hall : Observes socketStep (fun _ _ => True) (fresh (.ofSize 4) (.ofSize 4)) _ s := .done (h.mono fun _ _ _ => trivial)
  exact ⟨_, s, hall, happended, (run_lossless_iff hall).mpr (.done h)⟩

/-- The kernel takes one of three bytes; the others are dropped. -/
theorem partial_send_drops : ∃ is s, Observes socketStep (fun _ _ => True) (fresh (.ofSize 4) (.ofSize 4)) is s ∧
    ¬ (s.sockets 7).Lossless ∧ (s.sockets 7).taken = [1] ∧ (s.sockets 7).outbound = [] := by
  obtain ⟨s, h, hlost⟩ : ∃ s, Reaches socketStep (fun _ _ => True) (fresh (.ofSize 4) (.ofSize 4))
      [⟨.send 7 [1, 2, 3], trivial⟩, ⟨.sendAndRecv 7 [] 0 1, trivial⟩] s ∧
      ¬ (s.sockets 7).Lossless ∧ (s.sockets 7).taken = [1] ∧ (s.sockets 7).outbound = [] :=
    exists_of_guarded (by decide +kernel)
  exact ⟨_, s, .done h, hlost⟩

end TradingEcosystem.OrderServer
