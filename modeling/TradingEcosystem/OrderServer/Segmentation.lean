import TradingEcosystem.OrderServer.Admission

/-! What a server makes of a byte stream does not depend on how the stream is cut. -/
namespace TradingEcosystem.OrderServer
open Program Runs Framing
variable {s s' s₀ t : OrderServer} {socket k : SocketId} {rxTime : Nanos} {bytes : List UInt8} {took : Nat}
  {l : List OMClientRequest} {is is' is₀ : List Step} {i : Step} {u : Unit} {f : Fault}

/-- Examining requests stops at one from a client out of range, or at one too many. -/
theorem examineAll_cases (socket : SocketId) (rxTime : Nanos) (l : List OMClientRequest) (s : OrderServer) :
    ((∃ t, examineAll socket rxTime l s = .ok () t) ∧ ∀ request ∈ l, InRange request) ∨
      (∃ t, examineAll socket rxTime l s = .error FIFOSequencer.tooManyPendingRequests t) ∨
      (∃ t, examineAll socket rxTime l s = .error .outOfRange t) ∧ ¬ ∀ request ∈ l, InRange request := by
  induction l generalizing s with
  | nil => exact .inl ⟨⟨s, rfl⟩, List.forall_mem_nil _⟩
  | cons r l ih =>
    rw [examineAll, List.forM_cons]
    rcases examine_cases socket rxTime r s with ⟨hr, -, h⟩ | ⟨-, -, -, h⟩ | ⟨hr, h⟩
    · rw [bind_of_ok h, List.forall_mem_cons]
      rcases ih _ with ⟨ht, hl⟩ | ht | ⟨ht, hl⟩
      · exact .inl ⟨ht, hr, hl⟩
      · exact .inr (.inl ht)
      · exact .inr (.inr ⟨ht, fun hall => hl hall.2⟩)
    · exact .inr (.inl ⟨_, bind_of_error h⟩)
    · exact .inr (.inr ⟨⟨_, bind_of_error h⟩, fun hall => hr (hall r List.mem_cons_self)⟩)

/-- The tables are those of the examined requests, taken one after the other. -/
theorem examineAll_toAdmission (h : examineAll socket rxTime l s = .ok u t) :
    t.toAdmission = (l.map (socket, ·)).foldl Admission.after s.toAdmission := by
  induction l generalizing s with
  | nil =>
    cases h
    rfl
  | cons r l ih =>
    rw [examineAll, List.forM_cons] at h
    obtain ⟨u', s₁, h₁, h₂⟩ := bind_eq_ok.mp h
    have hfirst := final_examine_toAdmission socket rxTime r s
    rw [h₁, final_ok] at hfirst
    rw [ih h₂, hfirst, List.map_cons, List.foldl_cons]

theorem foldl_after_examined (a : Admission) (l : List (SocketId × OMClientRequest)) :
    (l.foldl Admission.after a).examined = a.examined ++ l := by
  induction l generalizing a with
  | nil => exact (List.append_nil _).symm
  | cons x l ih => rw [List.foldl_cons, ih, Admission.after_examined, List.append_assoc, List.singleton_append]

/-! ## Runs that cut streams -/

/-- A receive of no more than fits into the buffer, from clients in range and without overflow
of the sequencer, or the end of a round. -/
def Cut (s : OrderServer) : Step → Prop
  | .sendAndRecv socket bytes rxTime took =>
    (s.sockets socket).nextRcvValidIndex + bytes.length ≤ TCPBufferSize ∧
      (∀ r ∈ requests ((s.sockets socket).inbound ++ bytes), InRange r) ∧
      stop (step (.sendAndRecv socket bytes rxTime took) s) ≠ some FIFOSequencer.tooManyPendingRequests
  | .recvFinishedCallBack sorted => FIFOSequencer.Sorts s.fifoSequencer.pendingClientRequests sorted
  | _ => False

instance (s : OrderServer) (i : Step) : Decidable (Cut s i) :=
  match i with
  | .sendAndRecv socket bytes rxTime took =>
    inferInstanceAs (Decidable ((s.sockets socket).nextRcvValidIndex + bytes.length ≤ TCPBufferSize ∧
      (∀ r ∈ requests ((s.sockets socket).inbound ++ bytes), InRange r) ∧
      stop (step (.sendAndRecv socket bytes rxTime took) s) ≠ some FIFOSequencer.tooManyPendingRequests))
  | .recvFinishedCallBack sorted =>
    inferInstanceAs (Decidable (FIFOSequencer.Sorts s.fifoSequencer.pendingClientRequests sorted))
  | .drain | .send _ _ | .respond _ => inferInstanceAs (Decidable False)

/-- The bytes that a step delivers on a socket. -/
def Step.bytesOn (socket : SocketId) : Step → List UInt8
  | .sendAndRecv k bytes _ _ => if k = socket then bytes else []
  | _ => []

/-- The stream that arrives on a socket. -/
def stream (socket : SocketId) (is : List Step) : List UInt8 := is.flatMap (Step.bytesOn socket)

/-- A step that receives receives on the socket. -/
def Step.OnlyOn (socket : SocketId) : Step → Prop
  | .sendAndRecv k _ _ _ => k = socket
  | _ => True

/-- A server that split every stream from its start into frames. -/
structure Framed (is : List Step) (s : OrderServer) : Prop where
  examined : ∀ k, (s.examined.filter (·.1 = k)).map (·.2) = requests (stream k is)
  inbound : ∀ k, (s.sockets k).inbound = leftover OMClientRequest.size (stream k is)
  short : ∀ k, (s.sockets k).nextRcvValidIndex < OMClientRequest.size
  admission : s.toAdmission = s.examined.foldl Admission.after {}

/-- A receive that is considered returns; the requests are those of the frames it completes. -/
theorem sendAndRecv_cut (hshort : (s.sockets socket).nextRcvValidIndex < OMClientRequest.size)
    (hg : Cut s (.sendAndRecv socket bytes rxTime took)) :
    ∃ s', step (.sendAndRecv socket bytes rxTime took) s = .ok () s' ∧
      s'.toAdmission = ((requests ((s.sockets socket).inbound ++ bytes)).map (socket, ·)).foldl Admission.after s.toAdmission ∧
      (s'.sockets socket).inbound = leftover OMClientRequest.size ((s.sockets socket).inbound ++ bytes) ∧
      ∀ k, k ≠ socket → s'.sockets k = s.sockets k := by
  obtain ⟨-, hr, hroom⟩ := hg
  rcases examineAll_cases socket rxTime _ (deliver socket bytes s) with ⟨⟨t, ht⟩, -⟩ | ⟨t, ht⟩ | ⟨-, hnot⟩
  · obtain ⟨c, hc, hp⟩ := receive_ok hshort ht
    have hsockets : t.sockets = (deliver socket bytes s).sockets := ((frame_examineAll socket rxTime _).of_ok ht).sockets
    have htables : t.toAdmission = _ := examineAll_toAdmission ht
    refine ⟨_, step_of_receive_ok hc, htables, ?_, fun k hk => ?_⟩
    · have hinbound := hp.inbound
      rw [TCPSocket.inbound_delivered] at hinbound
      simpa using hinbound
    · rw [putSocket_of_ne hk, putSocket_of_ne hk, hsockets, deliver, putSocket_of_ne hk]
  · rw [step_of_receive_error (receive_error hshort ht)] at hroom
    exact absurd rfl hroom
  · exact absurd hr hnot

/-- The end of a round returns and leaves tables and sockets alone. -/
theorem recvFinishedCallBack_cut {sorted : List RecvTimeClientRequest} (hg : Cut s (.recvFinishedCallBack sorted)) :
    ∃ s', step (.recvFinishedCallBack sorted) s = .ok () s' ∧ s'.toAdmission = s.toAdmission ∧ s'.sockets = s.sockets :=
  ⟨_, recvFinishedCallBack_apply hg, rfl, rfl⟩

theorem stream_append (k : SocketId) (is : List Step) (i : Step) : stream k (is ++ [i]) = stream k is ++ i.bytesOn k := by
  rw [stream, List.flatMap_append, List.flatMap_singleton]
  rfl

theorem filter_on (k socket : SocketId) (l : List OMClientRequest) :
    ((l.map (socket, ·)).filter (·.1 = k)).map (·.2) = if socket = k then l else [] := by
  split_ifs with h <;> simp [List.filter_map, Function.comp_def, h]

/-- One considered step of a server with framed streams. -/
theorem Framed.step (h : Framed is s) (hg : Cut s i) : ∃ s', OrderServer.step i s = .ok () s' ∧ Framed (is ++ [i]) s' := by
  cases i with
  | send | respond | drain => exact hg.elim
  | recvFinishedCallBack sorted =>
    obtain ⟨s', hs', htables, hsockets⟩ := recvFinishedCallBack_cut hg
    have hstream : ∀ k, stream k (is ++ [.recvFinishedCallBack sorted]) = stream k is := fun k => by
      rw [stream_append]
      exact List.append_nil _
    refine ⟨s', hs', fun k => ?_, fun k => ?_, fun k => ?_, ?_⟩
    · rw [htables, hstream, h.examined]
    · rw [hsockets, hstream, h.inbound]
    · rw [hsockets]
      exact h.short k
    · rw [htables]
      exact h.admission
  | sendAndRecv socket bytes rxTime took =>
    obtain ⟨s', hs', htables, hinbound, hothers⟩ := sendAndRecv_cut (h.short socket) hg
    have hself : stream socket (is ++ [.sendAndRecv socket bytes rxTime took]) = stream socket is ++ bytes := by
      rw [stream_append, Step.bytesOn, if_pos rfl]
    have hother : ∀ k, k ≠ socket → stream k (is ++ [.sendAndRecv socket bytes rxTime took]) = stream k is := fun k hk => by
      rw [stream_append, Step.bytesOn, if_neg (Ne.symm hk), List.append_nil]
    have hexamined : s'.examined = s.examined ++ (requests ((s.sockets socket).inbound ++ bytes)).map (socket, ·) := by
      rw [htables, foldl_after_examined]
    have hsize : 0 < OMClientRequest.size := by decide
    refine ⟨s', hs', fun k => ?_, fun k => ?_, fun k => ?_, ?_⟩
    · rw [hexamined, List.filter_append, List.map_append, h.examined]
      by_cases hk : k = socket
      · subst hk
        rw [hself, filter_on, if_pos rfl, requests_append (stream k is), ← h.inbound]
      · rw [hother k hk, filter_on, if_neg (Ne.symm hk), List.append_nil]
    · by_cases hk : k = socket
      · subst hk
        rw [hself, leftover_append hsize, ← h.inbound, hinbound]
      · rw [hothers k hk, hother k hk, h.inbound]
    · by_cases hk : k = socket
      · subst hk
        rw [← TCPSocket.length_inbound, hinbound]
        exact length_leftover_lt hsize _
      · rw [hothers k hk]
        exact h.short k
    · rw [hexamined, List.foldl_append, ← h.admission, htables]

theorem framed_fresh (clientRequests : LFQueue MEClientRequest) (clientResponses : LFQueue MEClientResponse) :
    Framed [] (fresh clientRequests clientResponses) where
  examined k := by
    have hlt : (stream k []).length < OMClientRequest.size := show 0 < OMClientRequest.size by decide
    rw [requests, frames_of_lt hlt]
    rfl
  inbound _ := (leftover_of_lt (show 0 < OMClientRequest.size by decide)).symm
  short _ := show 0 < OMClientRequest.size by decide
  admission := rfl

theorem framed_run (h₀ : Framed is₀ s₀) (h : Observes OrderServer.step Cut s₀ is s) :
    Reaches OrderServer.step Cut s₀ is s ∧ Framed (is₀ ++ is) s := by
  have hkeep : ∀ is s i s', (Reaches OrderServer.step Cut s₀ is s ∧ Framed (is₀ ++ is) s) → Cut s i →
      OrderServer.step i s = .ok () s' → Reaches OrderServer.step Cut s₀ (is ++ [i]) s' ∧ Framed (is₀ ++ (is ++ [i])) s' := by
    intro is s i s' hi hg hr
    obtain ⟨t, ht, hft⟩ := hi.2.step hg
    rw [hr] at ht
    cases ht
    rw [← List.append_assoc]
    exact ⟨.call hi.1 hg hr, hft⟩
  apply h.invariant (I := fun is s => Reaches OrderServer.step Cut s₀ is s ∧ Framed (is₀ ++ is) s)
  · exact ⟨.start, by rwa [List.append_nil]⟩
  · exact hkeep
  · exact fun _ _ hi => hi
  · intro is s i f s' hi hg hr
    obtain ⟨t, ht, -⟩ := hi.2.step hg
    rw [hr] at ht
    cases ht

/-- Behind any state of a run the tables depend only on the bytes that arrive on the socket,
as long as nothing arrives on another one. -/
structure Since (socket : SocketId) (s₀ : OrderServer) (is : List Step) (s : OrderServer) : Prop where
  admission : s.toAdmission = ((requests ((s₀.sockets socket).inbound ++ stream socket is)).map (socket, ·)).foldl
    Admission.after s₀.toAdmission
  inbound : (s.sockets socket).inbound = leftover OMClientRequest.size ((s₀.sockets socket).inbound ++ stream socket is)

theorem since_start (hshort : (s₀.sockets socket).nextRcvValidIndex < OMClientRequest.size) : Since socket s₀ [] s₀ := by
  have hlt : ((s₀.sockets socket).inbound ++ stream socket []).length < OMClientRequest.size := by
    rw [stream, List.flatMap_nil, List.append_nil, TCPSocket.length_inbound]
    exact hshort
  refine ⟨?_, ?_⟩
  · rw [requests, frames_of_lt hlt]
    rfl
  · rw [leftover_of_lt hlt]
    exact (List.append_nil _).symm

theorem Since.step (h : Since socket s₀ is s) (hshort : (s.sockets socket).nextRcvValidIndex < OMClientRequest.size)
    (hg : Cut s i) (hon : i.OnlyOn socket) (hr : OrderServer.step i s = .ok u s') : Since socket s₀ (is ++ [i]) s' := by
  cases i with
  | send | respond | drain => exact hg.elim
  | recvFinishedCallBack sorted =>
    obtain ⟨t, ht, htables, hsockets⟩ := recvFinishedCallBack_cut hg
    rw [hr] at ht
    cases ht
    have hstream : stream socket (is ++ [.recvFinishedCallBack sorted]) = stream socket is := by
      rw [stream_append]
      exact List.append_nil _
    exact ⟨by rw [htables, hstream, h.admission], by rw [hsockets, hstream, h.inbound]⟩
  | sendAndRecv k bytes rxTime took =>
    obtain rfl : k = socket := hon
    obtain ⟨t, ht, htables, hinbound, -⟩ := sendAndRecv_cut hshort hg
    rw [hr] at ht
    cases ht
    have hself : stream k (is ++ [.sendAndRecv k bytes rxTime took]) = stream k is ++ bytes := by
      rw [stream_append, Step.bytesOn, if_pos rfl]
    have hsize : 0 < OMClientRequest.size := by decide
    refine ⟨?_, ?_⟩
    · rw [hself, ← List.append_assoc, requests_append, ← h.inbound, List.map_append, List.foldl_append, ← h.admission, htables]
    · rw [hself, ← List.append_assoc, leftover_append hsize, ← h.inbound, hinbound]

theorem since_run (h₀ : Framed is₀ s₀) (h : Reaches OrderServer.step Cut s₀ is s) (hon : ∀ i ∈ is, i.OnlyOn socket) :
    Since socket s₀ is s := by
  induction h with
  | start => exact since_start (h₀.short socket)
  | @call is s s' i run ok returns ih =>
    have hframed := (framed_run h₀ (.done run)).2
    have hsince := ih fun j hj => hon j (List.mem_append_left _ hj)
    exact hsince.step (hframed.short socket) ok (hon i List.mem_concat_self) returns

/-- A run of receives splits every stream from its start into frames: no call of it stops, what
is left of a stream is shorter than a frame and stands in front of its buffer. Behind any such
run, two ways to cut a stream for one socket give the same tables, the same examined and
admitted requests and the same leftover. -/
theorem run_framed {clientRequests : LFQueue MEClientRequest} {clientResponses : LFQueue MEClientResponse}
    (h₀ : Reaches step Cut (fresh clientRequests clientResponses) is₀ s₀)
    (h : Observes step Cut s₀ is s) (h' : Observes step Cut s₀ is' s')
    (hon : ∀ i ∈ is, i.OnlyOn k) (hon' : ∀ i ∈ is', i.OnlyOn k) (hsame : stream k is = stream k is') :
    Reaches step Cut s₀ is s ∧ Framed (is₀ ++ is) s ∧ s.toAdmission = s'.toAdmission ∧
      (s.sockets k).inbound = (s'.sockets k).inbound := by
  have hframed₀ : Framed is₀ s₀ := (framed_run (framed_fresh _ _) (.done h₀)).2
  obtain ⟨hreach, hframed⟩ := framed_run hframed₀ h
  have hsince := since_run hframed₀ hreach hon
  have hsince' := since_run hframed₀ (framed_run hframed₀ h').1 hon'
  refine ⟨hreach, hframed, ?_, ?_⟩
  · rw [hsince.admission, hsince'.admission, hsame]
  · rw [hsince.inbound, hsince'.inbound, hsame]

/-- Two requests that are cut within the first one, and both at once. -/
theorem run_framed_twoCuts : ∃ is is' s s', Reaches step Cut (fresh (.ofSize 4) (.ofSize 4)) is s ∧
    Reaches step Cut (fresh (.ofSize 4) (.ofSize 4)) is' s' ∧ is.length ≠ is'.length ∧ s.admitted.length = 2 ∧
    s.toAdmission = s'.toAdmission := by
  obtain ⟨bytes, hbytes⟩ : ∃ bytes, bytes = requestBytes 0 1 ++ requestBytes 0 2 := ⟨_, rfl⟩
  obtain ⟨s, h, hlen⟩ : ∃ s, Reaches step Cut (fresh (.ofSize 4) (.ofSize 4))
      [.sendAndRecv 7 (bytes.take 20) 5 0, .sendAndRecv 7 (bytes.drop 20) 6 0] s ∧ s.admitted.length = 2 :=
    exists_of_guarded (by subst hbytes; decide +kernel)
  obtain ⟨s', h', -⟩ : ∃ s, Reaches step Cut (fresh (.ofSize 4) (.ofSize 4)) [.sendAndRecv 7 bytes 5 0] s ∧
      s.admitted.length = 2 :=
    exists_of_guarded (by subst hbytes; decide +kernel)
  have hsame := run_framed (k := 7) .start (.done h) (.done h') (by simp [Step.OnlyOn]) (by simp [Step.OnlyOn])
    (by simp [stream, Step.bytesOn])
  exact ⟨_, _, s, s', h, h', by simp, hlen, hsame.2.2.1⟩

end TradingEcosystem.OrderServer
