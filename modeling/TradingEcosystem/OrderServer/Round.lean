import TradingEcosystem.OrderServer.Segmentation

/-! `tcp_server.h`: one round of receiving, in which all requests that have arrived are taken
before any of them is published. -/
namespace TradingEcosystem
open Program Runs Framing

namespace TCPServer

/-- One `sendAndRecv` of a socket with what the kernel does in it. -/
structure Call where
  socket : SocketId
  bytes : List UInt8 := []
  rxTime : Nanos := 0
  took : Nat := 0

section
variable {σ : Type} (call : Call → EStateM Fault σ Bool) (recvFinishedCallback : EStateM Fault σ Unit)

/-- The loop over a list of sockets; it tells whether one of them has read bytes. -/
def callAll : List Call → EStateM Fault σ Bool
  | [] => return false
  | c :: calls => do
    let recv ← call c
    let rest ← callAll calls
    return recv || rest

/-- `receives` and `sends` are the calls for `receive_sockets_` and for `send_sockets_`. -/
def sendAndRecv (receives sends : List Call) : EStateM Fault σ Unit := do
  let recv ← callAll call receives
  (if recv then recvFinishedCallback else pure ())
  let _ ← callAll call sends
  return ()

end

end TCPServer

namespace Admission
variable {a : Admission} {x : SocketId × OMClientRequest} {l m : List (SocketId × OMClientRequest)}

/-- Requests each of which is accepted when it is its turn. -/
def Expected (a : Admission) : List (SocketId × OMClientRequest) → Prop
  | [] => True
  | x :: l => a.Accepts x ∧ Expected (a.after x) l

instance decidableExpected : ∀ (l : List (SocketId × OMClientRequest)) (a : Admission), Decidable (a.Expected l)
  | [], _ => .isTrue trivial
  | x :: l, a => @instDecidableAnd _ _ _ (decidableExpected l (a.after x))

theorem expected_append : a.Expected (l ++ m) ↔ a.Expected l ∧ (l.foldl after a).Expected m := by
  induction l generalizing a with
  | nil => exact (true_and _).to_iff.symm
  | cons x l ih =>
    rw [List.cons_append, Expected, Expected, ih, List.foldl_cons, and_assoc]

theorem Expected.admitted (h : a.Expected l) : (l.foldl after a).admitted = a.admitted ++ l := by
  induction l generalizing a with
  | nil => exact (List.append_nil _).symm
  | cons x l ih =>
    rw [List.foldl_cons, ih h.2, after_admitted, if_pos h.1, List.append_assoc]
    rfl

end Admission

namespace OrderServer
open TCPServer
variable {s s' t : OrderServer} {socket k : SocketId} {rxTime : Nanos} {c : Call} {calls receives sends : List Call}
  {l : List OMClientRequest} {m m' : List (Nanos × SocketId × OMClientRequest)} {u : Unit} {f : Fault} {recv : Bool}
  {sort : List RecvTimeClientRequest → List RecvTimeClientRequest}

def call (c : Call) : ServerM Bool := sendAndRecv c.socket c.bytes c.rxTime c.took

/-- `tcp_server_.sendAndRecv()` with the callbacks of the server; `sort` is what `std::sort` does. -/
def round (sort : List RecvTimeClientRequest → List RecvTimeClientRequest) (receives sends : List Call) : ServerM Unit :=
  TCPServer.sendAndRecv call
    (do let s ← get
        recvFinishedCallBack (sort s.fifoSequencer.pendingClientRequests))
    receives sends

/-- What a turn of the loop of `run` consists of, and the engine's part in between. -/
inductive LoopStep where
  | round (sort : List RecvTimeClientRequest → List RecvTimeClientRequest) (receives sends : List Call)
  | respond (clientResponse : MEClientResponse)
  | drain

def loopStep : LoopStep → ServerM Unit
  | .round sort receives sends => OrderServer.round sort receives sends
  | .respond clientResponse => OrderServer.respond clientResponse
  | .drain => OrderServer.drain

/-- `std::sort` sorts. No socket is registered for writing, so `send_sockets_` stays empty; a
socket in it that reads nothing would not matter. -/
def Sorting (_ : OrderServer) : LoopStep → Prop
  | .round sort _ sends => (∀ pending, FIFOSequencer.Sorts pending (sort pending)) ∧ ∀ c ∈ sends, c.bytes = []
  | _ => True

/-! ## A call -/

/-- The requests whose frames a call completes. -/
def incoming (s : OrderServer) (c : Call) : List (SocketId × OMClientRequest) :=
  (requests ((s.sockets c.socket).inbound ++ c.bytes)).map (c.socket, ·)

/-- Less than a frame is left of what arrived on each socket. -/
def Short (s : OrderServer) : Prop := ∀ k, (s.sockets k).nextRcvValidIndex < OMClientRequest.size

theorem Short.putSocket (hs : s.Short) {t : TCPSocket} (ht : t.nextRcvValidIndex < OMClientRequest.size) :
    (OrderServer.putSocket socket s t).Short := fun k => by
  by_cases hk : k = socket
  · rw [hk, putSocket_self]
    exact ht
  · rw [putSocket_of_ne hk]
    exact hs k

/-- A call that returned after its requests were examined, which left the server as `t`. -/
structure Called (s t s' : OrderServer) (c : Call) : Prop where
  admission : s'.toAdmission = t.toAdmission
  sequencer : s'.fifoSequencer = t.fifoSequencer
  inbound : (s'.sockets c.socket).nextRcvValidIndex < OMClientRequest.size
  others : ∀ k, k ≠ c.socket → s'.sockets k = s.sockets k

/-- A call ends as examining its requests does. -/
theorem call_cases (hs : s.Short) (c : Call) :
    (∃ t s', examineAll c.socket c.rxTime (requests ((s.sockets c.socket).inbound ++ c.bytes))
        (deliver c.socket c.bytes s) = .ok () t ∧ call c s = .ok (decide (c.bytes ≠ [])) s' ∧ Called s t s' c) ∨
    ∃ f t, examineAll c.socket c.rxTime (requests ((s.sockets c.socket).inbound ++ c.bytes))
        (deliver c.socket c.bytes s) = .error f t ∧ call c s = .error f t := by
  cases h : examineAll c.socket c.rxTime (requests ((s.sockets c.socket).inbound ++ c.bytes)) (deliver c.socket c.bytes s) with
  | ok u t =>
    obtain ⟨p, hp, hparsed⟩ := receive_ok (hs c.socket) h
    have hsockets : t.sockets = (deliver c.socket c.bytes s).sockets := ((frame_examineAll _ _ _).of_ok h).sockets
    refine .inl ⟨t, _, rfl, sendAndRecv_of_receive_ok hp, rfl, rfl, ?_, fun k hk => ?_⟩
    · have hlt := length_leftover_lt (show 0 < OMClientRequest.size by decide)
        (TCPSocket.delivered c.bytes (s.sockets c.socket)).inbound
      rw [← hparsed.inbound, TCPSocket.length_inbound] at hlt
      simpa [TCPSocket.flushed] using hlt
    · rw [putSocket_of_ne hk, putSocket_of_ne hk, hsockets, deliver, putSocket_of_ne hk]
  | error f t => exact .inr ⟨f, t, rfl, bind_of_error (receive_error (hs c.socket) h)⟩

theorem Called.short (h : Called s t s' c) (hs : s.Short) : s'.Short := fun k => by
  by_cases hk : k = c.socket
  · rw [hk]
    exact h.inbound
  · rw [h.others k hk]
    exact hs k

/-- A call without bytes leaves tables and sequencer alone. -/
theorem call_nil (hs : s.Short) (hc : c.bytes = []) :
    ∃ s', call c s = .ok false s' ∧ s'.Short ∧ s'.toAdmission = s.toAdmission ∧ s'.fifoSequencer = s.fifoSequencer := by
  have hlt : ((s.sockets c.socket).inbound ++ c.bytes).length < OMClientRequest.size := by
    rw [hc, List.append_nil, TCPSocket.length_inbound]
    exact hs c.socket
  have hnone : requests ((s.sockets c.socket).inbound ++ c.bytes) = [] := by
    rw [requests, frames_of_lt hlt]
    rfl
  rcases call_cases hs c with ⟨t, s', ht, hcall, hcalled⟩ | ⟨f, t, ht, -⟩
  · rw [hnone] at ht
    cases ht
    rw [hc] at hcall
    exact ⟨s', hcall, hcalled.short hs, hcalled.admission, hcalled.sequencer⟩
  · rw [hnone] at ht
    cases ht

theorem callAll_nil (hs : s.Short) (hc : ∀ c ∈ calls, c.bytes = []) :
    ∃ s', callAll call calls s = .ok false s' ∧ s'.Short ∧ s'.toAdmission = s.toAdmission ∧
      s'.fifoSequencer = s.fifoSequencer := by
  induction calls generalizing s with
  | nil => exact ⟨s, rfl, hs, rfl, rfl⟩
  | cons c calls ih =>
    obtain ⟨s₁, h₁, hs₁, hadmission₁, hsequencer₁⟩ := call_nil hs (hc c List.mem_cons_self)
    obtain ⟨s', h', hs', hadmission', hsequencer'⟩ := ih hs₁ fun c hc' => hc c (List.mem_cons_of_mem _ hc')
    refine ⟨s', ?_, hs', hadmission'.trans hadmission₁, hsequencer'.trans hsequencer₁⟩
    rw [callAll, bind_of_ok h₁, bind_of_ok h']
    rfl

theorem callAll_short (hs : s.Short) (h : callAll call calls s = .ok recv s') :
    s'.Short ∧ (recv = false → s'.fifoSequencer = s.fifoSequencer) := by
  induction calls generalizing s recv with
  | nil =>
    cases h
    exact ⟨hs, fun _ => rfl⟩
  | cons c calls ih =>
    obtain ⟨recv₁, s₁, h₁, hrest⟩ := bind_eq_ok.mp h
    obtain ⟨recv₂, s₂, h₂, hlast⟩ := bind_eq_ok.mp hrest
    cases hlast
    rcases call_cases hs c with ⟨t, s', -, hcall, hcalled⟩ | ⟨f, t, -, hcall⟩
    · rw [hcall] at h₁
      cases h₁
      obtain ⟨hshort, hsame⟩ := ih (hcalled.short hs) h₂
      refine ⟨hshort, fun hno => ?_⟩
      obtain ⟨hc, hno⟩ := Bool.or_eq_false_iff.mp hno
      have hnil : c.bytes = [] := not_not.mp (of_decide_eq_false hc)
      obtain ⟨s'', hcall', -, -, hsequencer⟩ := call_nil hs hnil
      have hboth := hcall.symm.trans hcall'
      injection hboth with _ hlast
      rw [← hlast] at hsequencer
      exact (hsame hno).trans hsequencer
    · rw [hcall] at h₁
      cases h₁

/-! ## Between two rounds -/

/-- Nothing waits to be published. -/
structure Between (s : OrderServer) : Prop where
  short : s.Short
  pending : s.fifoSequencer.pendingClientRequests = []

theorem Between.round (h : Between s) (hg : Sorting s (.round sort receives sends))
    (hr : round sort receives sends s = .ok u s') : Between s' := by
  obtain ⟨recv, s₁, h₁, hrest⟩ := bind_eq_ok.mp hr
  obtain ⟨hshort₁, hsame⟩ := callAll_short h.short h₁
  obtain ⟨u₂, s₂, h₂, hrest⟩ := bind_eq_ok.mp hrest
  have hbetween : Between s₂ := by
    cases recv with
    | false =>
      cases h₂
      exact ⟨hshort₁, by rw [hsame rfl, h.pending]⟩
    | true =>
      have hpublished := recvFinishedCallBack_apply (hg.1 s₁.fifoSequencer.pendingClientRequests)
      rw [if_pos rfl, bind_of_ok (get_apply)] at h₂
      rw [hpublished] at h₂
      cases h₂
      exact ⟨hshort₁, rfl⟩
  obtain ⟨s₃, h₃, hshort₃, -, hsequencer⟩ := callAll_nil hbetween.short hg.2
  rw [bind_of_ok h₃] at hrest
  cases hrest
  exact ⟨hshort₃, by rw [hsequencer, hbetween.pending]⟩

theorem between_run {clientRequests : LFQueue MEClientRequest} {clientResponses : LFQueue MEClientResponse}
    {is : List LoopStep} (h : Reaches loopStep Sorting (fresh clientRequests clientResponses) is s) : Between s := by
  apply h.invariant (I := fun _ s => Between s)
  · exact ⟨fun _ => show 0 < OMClientRequest.size by decide, rfl⟩
  · intro is s i s' hs hg hr
    cases i with
    | round => exact hs.round hg hr
    | respond =>
      cases hr
      exact ⟨hs.short, hs.pending⟩
    | drain =>
      have hsend : ∀ socket data, Frame (Preserves Between) (onSocket socket (TCPSocket.send data)) := fun socket data =>
        .focus fun s hs => by
          refine ⟨hs.short.putSocket ?_, hs.pending⟩
          rw [TCPSocket.nextRcvValidIndex_send]
          exact hs.short socket
      exact (frame_drain (fun _ _ _ _ _ hs => ⟨hs.short, hs.pending⟩) hsend).of_ok hr hs

/-! ## Valid requests -/

/-- A request with the time at which it was received. -/
def timed (r : RecvTimeClientRequest) : Nanos × MEClientRequest := (r.recvTime, r.request)

/-- The requests of `m` were accepted and wait, each with its time, to be published. -/
structure Queued (s s' : OrderServer) (m : List (Nanos × SocketId × OMClientRequest)) : Prop where
  admission : s'.toAdmission = (m.map (·.2)).foldl Admission.after s.toAdmission
  pending : s'.fifoSequencer.pendingClientRequests.map timed =
    s.fifoSequencer.pendingClientRequests.map timed ++ m.map fun x => (x.1, x.2.2.meClientRequest)
  published : s'.fifoSequencer.published = s.fifoSequencer.published
  incomingRequests : s'.fifoSequencer.incomingRequests = s.fifoSequencer.incomingRequests

theorem Queued.length (h : Queued s s' m) : s'.fifoSequencer.pendingClientRequests.length =
    s.fifoSequencer.pendingClientRequests.length + m.length := by
  have hlen := congrArg List.length h.pending
  simpa using hlen

theorem Queued.trans (h : Queued s t m) (h' : Queued t s' m') : Queued s s' (m ++ m') where
  admission := by rw [h'.admission, h.admission, List.map_append, List.foldl_append]
  pending := by rw [h'.pending, h.pending, List.map_append, List.append_assoc]
  published := h'.published.trans h.published
  incomingRequests := h'.incomingRequests.trans h.incomingRequests

/-- Valid requests are queued as far as there is room. -/
theorem examineAll_expected (rxTime : Nanos) (hexp : s.toAdmission.Expected (l.map (socket, ·))) :
    (s.fifoSequencer.pendingClientRequests.length + l.length ≤ ME_MAX_PENDING_REQUESTS →
      ∃ t, examineAll socket rxTime l s = .ok () t ∧ Queued s t (l.map (rxTime, socket, ·))) ∧
    (ME_MAX_PENDING_REQUESTS < s.fifoSequencer.pendingClientRequests.length + l.length →
      s.fifoSequencer.pendingClientRequests.length ≤ ME_MAX_PENDING_REQUESTS →
      ∃ t, examineAll socket rxTime l s = .error FIFOSequencer.tooManyPendingRequests t) := by
  induction l generalizing s with
  | nil =>
    refine ⟨fun _ => ⟨s, rfl, rfl, (List.append_nil _).symm, rfl, rfl⟩, fun hmore hle => ?_⟩
    rw [List.length_nil] at hmore
    omega
  | cons r l ih =>
    obtain ⟨ha, hexp⟩ := hexp
    rw [List.length_cons, examineAll, List.forM_cons]
    by_cases hroom : s.HasRoom
    · obtain ⟨s₁, hs₁⟩ : ∃ s₁, s₁ = s.afterExamine socket rxTime r := ⟨_, rfl⟩
      have hfirst : Queued s s₁ [(rxTime, socket, r)] := by
        rw [hs₁]
        refine ⟨rfl, ?_, ?_, ?_⟩ <;> rw [afterExamine, if_pos ha]
        · exact List.map_append
        · rfl
        · rfl
      have hlen := hfirst.length
      rw [List.length_singleton] at hlen
      have hstep : examine socket rxTime r s = .ok () s₁ := by
        rw [hs₁]
        exact examine_of_room ha.1 fun _ => hroom
      obtain ⟨hfew, hmany⟩ := ih (s := s₁) (by rw [hs₁]; exact hexp)
      rw [bind_of_ok hstep]
      refine ⟨fun hle => ?_, fun hlt _ => hmany (by omega) (by unfold HasRoom at hroom; omega)⟩
      obtain ⟨t, ht, hq⟩ := hfew (by omega)
      exact ⟨t, ht, hfirst.trans hq⟩
    · refine ⟨fun hle => ?_, fun _ _ => ⟨_, bind_of_error (examine_of_full ha.1 ha hroom)⟩⟩
      unfold HasRoom at hroom
      omega

/-- The requests whose frames a call completes, with the time of the call. -/
def arriving (s : OrderServer) (c : Call) : List (Nanos × SocketId × OMClientRequest) :=
  (s.incoming c).map (c.rxTime, ·)

theorem map_arriving : (s.arriving c).map (·.2) = s.incoming c := by
  rw [arriving, List.map_map]
  exact List.map_id _

theorem call_expected (hs : s.Short) (hexp : s.toAdmission.Expected (s.incoming c)) :
    (s.fifoSequencer.pendingClientRequests.length + (s.incoming c).length ≤ ME_MAX_PENDING_REQUESTS →
      ∃ s', call c s = .ok (decide (c.bytes ≠ [])) s' ∧ s'.Short ∧ Queued s s' (s.arriving c) ∧
        ∀ k, k ≠ c.socket → s'.sockets k = s.sockets k) ∧
    (ME_MAX_PENDING_REQUESTS < s.fifoSequencer.pendingClientRequests.length + (s.incoming c).length →
      s.fifoSequencer.pendingClientRequests.length ≤ ME_MAX_PENDING_REQUESTS →
      ∃ t, call c s = .error FIFOSequencer.tooManyPendingRequests t) := by
  have hlen : (s.incoming c).length = (requests ((s.sockets c.socket).inbound ++ c.bytes)).length := List.length_map _
  have harriving : s.arriving c = (requests ((s.sockets c.socket).inbound ++ c.bytes)).map (c.rxTime, c.socket, ·) :=
    List.map_map
  obtain ⟨hfew, hmany⟩ := examineAll_expected (s := deliver c.socket c.bytes s) c.rxTime hexp
  rw [hlen]
  rcases call_cases hs c with ⟨t, s', ht, hcall, hcalled⟩ | ⟨f, t, ht, hcall⟩
  · refine ⟨fun hle => ?_, fun hlt hle => ?_⟩
    · obtain ⟨t', ht', hq⟩ := hfew hle
      rw [ht] at ht'
      cases ht'
      rw [← harriving] at hq
      refine ⟨s', hcall, hcalled.short hs, ⟨?_, ?_, ?_, ?_⟩, hcalled.others⟩
      · rw [hcalled.admission]
        exact hq.admission
      · rw [hcalled.sequencer]
        exact hq.pending
      · rw [hcalled.sequencer]
        exact hq.published
      · rw [hcalled.sequencer]
        exact hq.incomingRequests
    · obtain ⟨t', ht'⟩ := hmany hlt hle
      rw [ht] at ht'
      cases ht'
  · refine ⟨fun hle => ?_, fun hlt hle => ?_⟩
    · obtain ⟨t', ht', -⟩ := hfew hle
      rw [ht] at ht'
      cases ht'
    · obtain ⟨t', ht'⟩ := hmany hlt hle
      rw [ht] at ht'
      cases ht'
      exact ⟨t, hcall⟩

/-- The requests that the calls of a round complete. -/
def incomingAll (s : OrderServer) (calls : List Call) : List (SocketId × OMClientRequest) := calls.flatMap s.incoming

def arrivingAll (s : OrderServer) (calls : List Call) : List (Nanos × SocketId × OMClientRequest) :=
  calls.flatMap s.arriving

theorem map_arrivingAll : (s.arrivingAll calls).map (·.2) = s.incomingAll calls := by
  rw [arrivingAll, List.map_flatMap]
  exact List.flatMap_congr fun c _ => map_arriving

theorem incomingAll_congr (h : ∀ c ∈ calls, s'.sockets c.socket = s.sockets c.socket) :
    s'.incomingAll calls = s.incomingAll calls := by
  apply List.flatMap_congr
  intro c hc
  rw [incoming, incoming, h c hc]

theorem arrivingAll_congr (h : ∀ c ∈ calls, s'.sockets c.socket = s.sockets c.socket) :
    s'.arrivingAll calls = s.arrivingAll calls := by
  apply List.flatMap_congr
  intro c hc
  rw [arriving, arriving, incoming, incoming, h c hc]

theorem callAll_expected (hs : s.Short) (hdistinct : (calls.map (·.socket)).Nodup)
    (hexp : s.toAdmission.Expected (s.incomingAll calls)) :
    (s.fifoSequencer.pendingClientRequests.length + (s.incomingAll calls).length ≤ ME_MAX_PENDING_REQUESTS →
      ∃ recv s', callAll call calls s = .ok recv s' ∧ s'.Short ∧ Queued s s' (s.arrivingAll calls)) ∧
    (ME_MAX_PENDING_REQUESTS < s.fifoSequencer.pendingClientRequests.length + (s.incomingAll calls).length →
      s.fifoSequencer.pendingClientRequests.length ≤ ME_MAX_PENDING_REQUESTS →
      ∃ t, callAll call calls s = .error FIFOSequencer.tooManyPendingRequests t) := by
  induction calls generalizing s with
  | nil =>
    refine ⟨fun _ => ⟨false, s, rfl, hs, rfl, (List.append_nil _).symm, rfl, rfl⟩, fun hmore hle => ?_⟩
    have hnone : (s.incomingAll []).length = 0 := rfl
    omega
  | cons c calls ih =>
    obtain ⟨hnew, hdistinct⟩ := List.nodup_cons.mp hdistinct
    have hsplit : s.incomingAll (c :: calls) = s.incoming c ++ s.incomingAll calls := List.flatMap_cons
    rw [hsplit, List.length_append]
    rw [hsplit, Admission.expected_append] at hexp
    obtain ⟨hfew, hmany⟩ := call_expected hs hexp.1
    rw [callAll]
    by_cases hroom : s.fifoSequencer.pendingClientRequests.length + (s.incoming c).length ≤ ME_MAX_PENDING_REQUESTS
    · obtain ⟨s₁, h₁, hshort₁, hq₁, hothers⟩ := hfew hroom
      have hlen := hq₁.length
      rw [arriving, List.length_map] at hlen
      have hunread : ∀ c' ∈ calls, s₁.sockets c'.socket = s.sockets c'.socket := fun c' hc' =>
        hothers _ fun e => hnew (List.mem_map.mpr ⟨c', hc', e⟩)
      have hsame : s₁.incomingAll calls = s.incomingAll calls := incomingAll_congr hunread
      have htimed : s₁.arrivingAll calls = s.arrivingAll calls := arrivingAll_congr hunread
      obtain ⟨hfew', hmany'⟩ := ih hshort₁ hdistinct (by rw [hsame, hq₁.admission, map_arriving]; exact hexp.2)
      rw [hsame] at hfew' hmany'
      rw [bind_of_ok h₁]
      refine ⟨fun hle => ?_, fun hlt hle => ?_⟩
      · obtain ⟨recv, s', h', hshort', hq'⟩ := hfew' (by omega)
        rw [htimed] at hq'
        exact ⟨_, s', bind_of_ok h', hshort', hq₁.trans hq'⟩
      · obtain ⟨t, ht⟩ := hmany' (by omega) (by omega)
        exact ⟨t, bind_of_error ht⟩
    · refine ⟨fun hle => ?_, fun hlt hle => ?_⟩
      · omega
      · obtain ⟨t, ht⟩ := hmany (by omega) hle
        exact ⟨t, bind_of_error ht⟩

/-- The requests that the calls complete were accepted and written to the queue of the engine, in
the order of the times at which they were received. -/
structure Sequenced (s s' : OrderServer) (calls : List Call) : Prop where
  admitted : s'.admitted = s.admitted ++ s.incomingAll calls
  pending : s'.fifoSequencer.pendingClientRequests = []
  published : ∃ sorted, s'.fifoSequencer.published = s.fifoSequencer.published ++ sorted ∧
    (sorted.map timed).Perm ((s.arrivingAll calls).map fun x => (x.1, x.2.2.meClientRequest)) ∧
    (sorted.Pairwise fun r r' => r.recvTime ≤ r'.recvTime) ∧
    s'.fifoSequencer.incomingRequests = s.fifoSequencer.incomingRequests.writeAll (sorted.map (·.request))

theorem Queued.admitted (hq : Queued s s' (s.arrivingAll calls)) (hexp : s.toAdmission.Expected (s.incomingAll calls)) :
    s'.admitted = s.admitted ++ s.incomingAll calls := by
  rw [← hexp.admitted, ← map_arrivingAll, ← hq.admission]

/-- Publishing what was queued since the last round. -/
theorem Sequenced.of_queued (hpending : s.fifoSequencer.pendingClientRequests = [])
    (hexp : s.toAdmission.Expected (s.incomingAll calls)) (hq : Queued s s' (s.arrivingAll calls))
    (hsort : FIFOSequencer.Sorts s'.fifoSequencer.pendingClientRequests
      (sort s'.fifoSequencer.pendingClientRequests)) :
    Sequenced s { s' with
      fifoSequencer := s'.fifoSequencer.sequenced (sort s'.fifoSequencer.pendingClientRequests) } calls := by
  have hadmitted := hq.admitted hexp
  have hwaiting := hq.pending
  rw [hpending, List.map_nil, List.nil_append] at hwaiting
  refine ⟨hadmitted, rfl, sort s'.fifoSequencer.pendingClientRequests, ?_, ?_, ?_, ?_⟩
  · exact congrArg (· ++ _) hq.published
  · rw [← hwaiting]
    exact hsort.perm.map _
  · exact hsort.sorted.imp fun h => Int64.not_lt.mp h
  · exact congrArg (fun q => LFQueue.writeAll q _) hq.incomingRequests

/-- Where no call read bytes, nothing was queued. -/
theorem Sequenced.of_same (hpending : s.fifoSequencer.pendingClientRequests = [])
    (hexp : s.toAdmission.Expected (s.incomingAll calls)) (hq : Queued s s' (s.arrivingAll calls))
    (hsame : s'.fifoSequencer = s.fifoSequencer) : Sequenced s s' calls := by
  have hnone := hq.pending
  rw [hsame, hpending, List.map_nil, List.nil_append] at hnone
  refine ⟨hq.admitted hexp, by rw [hsame, hpending], [], ?_, ?_, .nil, ?_⟩
  · rw [hsame, List.append_nil]
  · rw [← hnone]
    exact .nil
  · rw [hsame]
    rfl

theorem Sequenced.congr (h : Sequenced s s' calls) (hadmission : t.toAdmission = s'.toAdmission)
    (hsequencer : t.fifoSequencer = s'.fifoSequencer) : Sequenced s t calls where
  admitted := by rw [hadmission, h.admitted]
  pending := by rw [hsequencer, h.pending]
  published := by rw [hsequencer]; exact h.published

/-- A round whose sockets bring requests that are all in range, on their client's socket and
numbered as expected: up to 1024 of them are all accepted and published in the order of their
times, and one more stops the server. -/
theorem round_expected {clientRequests : LFQueue MEClientRequest} {clientResponses : LFQueue MEClientResponse}
    {is : List LoopStep} (h : Reaches loopStep Sorting (fresh clientRequests clientResponses) is s)
    (hsort : Sorting s (.round sort receives sends)) (hdistinct : (receives.map (·.socket)).Nodup)
    (hexp : s.toAdmission.Expected (s.incomingAll receives)) :
    ((s.incomingAll receives).length ≤ ME_MAX_PENDING_REQUESTS →
      ∃ s', round sort receives sends s = .ok () s' ∧ Sequenced s s' receives) ∧
    (ME_MAX_PENDING_REQUESTS < (s.incomingAll receives).length →
      ∃ t, round sort receives sends s = .error FIFOSequencer.tooManyPendingRequests t) := by
  obtain ⟨hs, hpending⟩ := between_run h
  obtain ⟨hfew, hmany⟩ := callAll_expected hs hdistinct hexp
  rw [hpending, List.length_nil, Nat.zero_add] at hfew hmany
  constructor
  · intro hle
    obtain ⟨recv, s₁, h₁, hshort₁, hq⟩ := hfew hle
    obtain ⟨s₂, h₂, hshort₂, hsequenced⟩ : ∃ s₂, (if recv then (do
          let s ← get
          recvFinishedCallBack (sort s.fifoSequencer.pendingClientRequests) : ServerM Unit) else pure ()) s₁ = .ok () s₂ ∧
        s₂.Short ∧ Sequenced s s₂ receives := by
      cases recv with
      | true =>
        have hsorts := hsort.1 s₁.fifoSequencer.pendingClientRequests
        have hpublished := recvFinishedCallBack_apply hsorts
        exact ⟨_, (bind_of_ok (get_apply)).trans hpublished, hshort₁, .of_queued hpending hexp hq hsorts⟩
      | false => exact ⟨s₁, rfl, hshort₁, .of_same hpending hexp hq ((callAll_short hs h₁).2 rfl)⟩
    obtain ⟨s₃, h₃, -, hadmission₃, hsequencer₃⟩ := callAll_nil hshort₂ hsort.2
    have hround : round sort receives sends s = .ok () s₃ := (bind_of_ok h₁).trans ((bind_of_ok h₂).trans (bind_of_ok h₃))
    exact ⟨s₃, hround, hsequenced.congr hadmission₃ hsequencer₃⟩
  · intro hlt
    obtain ⟨t, ht⟩ := hmany hlt (Nat.zero_le _)
    exact ⟨t, bind_of_error ht⟩

/-- Two requests that one read delivers. -/
theorem round_expected_twoRequests : ∃ s', round (·.mergeSort FIFOSequencer.lateFirst)
    [{ socket := 7, bytes := requestBytes 0 1 ++ requestBytes 0 2 }] [] (fresh (.ofSize 4) (.ofSize 4)) = .ok () s' ∧
    s'.admitted.length = 2 := by
  have hexp : (fresh (.ofSize 4) (.ofSize 4)).toAdmission.Expected ((fresh (.ofSize 4) (.ofSize 4)).incomingAll
        [{ socket := 7, bytes := requestBytes 0 1 ++ requestBytes 0 2 }]) ∧
      ((fresh (.ofSize 4) (.ofSize 4)).incomingAll
        [{ socket := 7, bytes := requestBytes 0 1 ++ requestBytes 0 2 }]).length = 2 := by decide +kernel
  have hsort : Sorting (fresh (.ofSize 4) (.ofSize 4)) (.round (·.mergeSort FIFOSequencer.lateFirst)
      [{ socket := 7, bytes := requestBytes 0 1 ++ requestBytes 0 2 }] []) :=
    ⟨fun pending => (FIFOSequencer.sorts_lateFirst pending).1, nofun⟩
  obtain ⟨s', h, hsequenced⟩ := (round_expected .start hsort (List.nodup_singleton _) hexp.1).1 (by
    rw [hexp.2]
    decide)
  refine ⟨s', h, ?_⟩
  rw [hsequenced.admitted, List.length_append, hexp.2]
  rfl

/-! ## A burst -/

/-- The request of client 0 with a number. -/
def numbered (i : Nat) : OMClientRequest where
  seqNum := UInt64.ofNat i
  meClientRequest := { type := .NEW, clientId := 0, tickerId := 0, orderId := 0, side := .BUY, price := 100, qty := 5 }

/-- The next `n` requests of client 0. -/
def burst (i n : Nat) : List OMClientRequest := (List.range' i n).map numbered

theorem expected_burst {a : Admission} {i : Nat} (n : Nat) (hnext : a.cidNextExpSeqNum 0 = UInt64.ofNat i)
    (hsocket : a.cidTcpSocket 0 = some socket ∨ a.cidTcpSocket 0 = none) :
    a.Expected ((burst i n).map (socket, ·)) := by
  induction n generalizing a i with
  | zero => trivial
  | succ n ih =>
    have hbind : (bindSocket 0 socket a).cidTcpSocket 0 = some socket := by
      rw [Admission.bindSocket_cidTcpSocket, Function.update_self]
      rcases hsocket with h | h <;> rw [h] <;> rfl
    have haccepts : a.Accepts (socket, numbered i) := ⟨show 0 < ME_MAX_NUM_CLIENTS by decide, hbind, hnext.symm⟩
    obtain ⟨hnumber, hbound, -⟩ := Admission.after_self (c := 0) haccepts rfl
    have hcons : burst i (n + 1) = numbered i :: burst (i + 1) n := rfl
    rw [hcons, List.map_cons]
    refine ⟨haccepts, ih ?_ (.inl hbound)⟩
    rw [hnumber, hnext]
    exact (UInt64.ofNat_add ..).symm

/-- A client may send 1025 requests before the server reads them, far fewer than the buffer
takes; they are as expected and stop the server. -/
theorem burst_tooMany : ∃ bytes t, bytes.length ≤ TCPBufferSize ∧ bytes.length % OMClientRequest.size = 0 ∧
    (fresh (.ofSize ME_MAX_CLIENT_UPDATES) (.ofSize ME_MAX_CLIENT_UPDATES)).toAdmission.Expected
      ((fresh (.ofSize ME_MAX_CLIENT_UPDATES) (.ofSize ME_MAX_CLIENT_UPDATES)).incomingAll [{ socket := 7, bytes }]) ∧
    round (·.mergeSort FIFOSequencer.lateFirst) [{ socket := 7, bytes }] []
      (fresh (.ofSize ME_MAX_CLIENT_UPDATES) (.ofSize ME_MAX_CLIENT_UPDATES)) =
        .error FIFOSequencer.tooManyPendingRequests t := by
  obtain ⟨bytes, hbytes⟩ : ∃ bytes, bytes = (burst 1 1025).flatMap OMClientRequest.codec.encode := ⟨_, rfl⟩
  obtain ⟨s, hs⟩ : ∃ s, s = fresh (.ofSize ME_MAX_CLIENT_UPDATES) (.ofSize ME_MAX_CLIENT_UPDATES) := ⟨_, rfl⟩
  have hlen : bytes.length = 1025 * OMClientRequest.size := by
    rw [hbytes, List.length_flatMap, List.map_congr_left fun r _ => OMClientRequest.codec.length_encode r,
      List.map_const', List.sum_replicate]
    simp [burst, OMClientRequest.size]
  have hrequests : requests bytes = burst 1 1025 := by
    have hframes := (frames_flatMap (n := OMClientRequest.size) (by decide) OMClientRequest.codec.length_encode
      (burst 1 1025)).1
    rw [requests, hbytes, hframes, List.map_map]
    exact (List.map_congr_left fun r _ => OMClientRequest.codec.decode_encode r).trans (List.map_id _)
  have hincoming : s.incomingAll [{ socket := 7, bytes }] = (burst 1 1025).map (7, ·) := by
    have hempty : (s.sockets 7).inbound = [] := by
      rw [hs]
      rfl
    rw [incomingAll, List.flatMap_singleton, incoming, hempty, List.nil_append, hrequests]
  have hexp : s.toAdmission.Expected (s.incomingAll [{ socket := 7, bytes }]) := by
    rw [hincoming]
    exact expected_burst 1025 (by rw [hs]; rfl) (.inr (by rw [hs]; rfl))
  have hmany : ME_MAX_PENDING_REQUESTS < (s.incomingAll [{ socket := 7, bytes }]).length := by
    rw [hincoming, List.length_map, burst, List.length_map, List.length_range']
    decide
  have hshort : s.Short := by
    rw [hs]
    exact fun _ => show 0 < OMClientRequest.size by decide
  have hdistinct : ([{ socket := 7, bytes }].map Call.socket).Nodup := List.nodup_singleton _
  have hstop := callAll_expected hshort hdistinct hexp
  have hpending : s.fifoSequencer.pendingClientRequests = [] := by
    rw [hs]
    rfl
  rw [hpending, List.length_nil, Nat.zero_add] at hstop
  obtain ⟨t, ht⟩ := hstop.2 hmany (Nat.zero_le _)
  rw [← hs]
  refine ⟨bytes, t, ?_, ?_, hexp, bind_of_error ht⟩
  · rw [hlen]
    decide
  · rw [hlen]
    exact Nat.mul_mod_left ..

end OrderServer
end TradingEcosystem
