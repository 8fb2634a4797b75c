import TradingEcosystem.Logging
import TradingEcosystem.Library.Erasure
import TradingEcosystem.OrderServer.Faults

/-! The calls of `Logger::log` in `OrderServer::run` and in what it calls, each where the source has it. -/
namespace TradingEcosystem
open Program Runs Logger Template

/-! ## The log calls -/

/-- What a log call shows besides its first four arguments. -/
inductive LogCall where
  | run
  | processing (clientId : ClientId) (nextOutgoingSeqNum : UInt64) (clientResponse : List CChar)
  | received (socketFd : Int32) (nextRcvValidIndex : UInt64) (rxTime : Nanos)
  | receivedRequest (request : List CChar)
  | differentSocket (clientId : ClientId) (socketFd expectedFd : Int32)
  | incorrectSeqNum (clientId : ClientId) (nextExpSeqNum seqNum : UInt64)
  | processingRequests (pendingSize : UInt64)
  | writing (recvTime : Nanos) (request : List CChar)
  | epollInListener (socketFd : Int32)
  | epollIn (socketFd : Int32)
  | epollOut (socketFd : Int32)
  | epollErr (socketFd : Int32)
  | haveNewConnection
  | acceptedSocket (fd : Int32)
  | readSocket (socketFd : Int32) (nextRcvValidIndex : UInt64) (userTime kernelTime : Nanos)
  | sendSocket (socketFd : Int32) (n : Int64)

namespace LogCall

def format : LogCall → String
  | run => "%:% %() % %.\n"
  | processing .. => "%:% %() % Processing cid: %, seq: % %. \n"
  | received .. => "%:% %() % Received socket: %, len: %, rx: %. \n"
  | receivedRequest _ => "%:% %() % Received: % \n"
  | differentSocket .. => "%:% %() % Received ClientRequest from Client_id: % on different socket: %. Expected: %. \n"
  | incorrectSeqNum .. => "%:% %() % Incorrect sequence number. Client_id: %, SeqNum expected: %, received: %. \n"
  | processingRequests _ => "%:% %() % Processing: % requests. \n"
  | writing .. => "%:% %() % Writing RX: %, Req: %. \n"
  | epollInListener _ => "%:% %() % EPOLL-IN listener_socket: %.\n"
  | epollIn _ => "%:% %() % EPOLL-IN socket: %.\n"
  | epollOut _ => "%:% %() % EPOLL-OUT socket: %.\n"
  | epollErr _ => "%:% %() % EPOLL-ERR socket: % \n"
  | haveNewConnection => "%:% %() % have_new_connection\n"
  | acceptedSocket _ => "%:% %() % accepted socket: %.\n"
  | readSocket .. => "%:% %() % read socket: %, len: %, utime: %, k-time: %, diff: %.\n"
  | sendSocket .. => "%:% %() % send socket:% len:%\n"

def args : LogCall → List LogArg
  | run | haveNewConnection => []
  | processing clientId nextOutgoingSeqNum clientResponse =>
    [.value (.UNSIGNED_INTEGER clientId), .value (.UNSIGNED_LONG_INTEGER nextOutgoingSeqNum), .string clientResponse]
  | received socketFd nextRcvValidIndex rxTime =>
    [.value (.INTEGER socketFd), .value (.UNSIGNED_LONG_INTEGER nextRcvValidIndex), .value (.LONG_INTEGER rxTime)]
  | receivedRequest request => [.string request]
  | differentSocket clientId socketFd expectedFd =>
    [.value (.UNSIGNED_INTEGER clientId), .value (.INTEGER socketFd), .value (.INTEGER expectedFd)]
  | incorrectSeqNum clientId nextExpSeqNum seqNum =>
    [.value (.UNSIGNED_INTEGER clientId), .value (.UNSIGNED_LONG_INTEGER nextExpSeqNum), .value (.UNSIGNED_LONG_INTEGER seqNum)]
  | processingRequests pendingSize => [.value (.UNSIGNED_LONG_INTEGER pendingSize)]
  | writing recvTime request => [.value (.LONG_INTEGER recvTime), .string request]
  | epollInListener socketFd | epollIn socketFd | epollOut socketFd | epollErr socketFd => [.value (.INTEGER socketFd)]
  | acceptedSocket fd => [.value (.INTEGER fd)]
  | readSocket socketFd nextRcvValidIndex userTime kernelTime =>
    [.value (.INTEGER socketFd), .value (.UNSIGNED_LONG_INTEGER nextRcvValidIndex), .value (.LONG_INTEGER userTime),
      .value (.LONG_INTEGER kernelTime), .value (.LONG_INTEGER (userTime - kernelTime))]
  | sendSocket socketFd n => [.value (.INTEGER socketFd), .value (.LONG_INTEGER n)]

end LogCall

/-- `__FILE__`, `__LINE__`, `__func__` and `getCurrentTimeStr(&time_str_)`. -/
structure Place where
  file : List CChar
  line : Int32
  func : List CChar
  timeStr : List CChar

def Place.args (p : Place) : List LogArg := [.pointer p.file, .value (.INTEGER p.line), .pointer p.func, .string p.timeStr]

/-- What the log calls show that the server does not decide on: where and when a call is, the file
descriptors of the sockets, the clock, and the texts of `toString`. -/
structure Host where
  place : Logger → LogCall → Place
  socketFd : SocketId → Int32
  getCurrentNanos : OrderServer → Nanos
  omRequestText : OMClientRequest → List CChar
  meRequestText : MEClientRequest → List CChar
  responseText : MEClientResponse → List CChar

/-- A program with the log of the server. -/
abbrev LoggedM (σ : Type) := EStateM Fault (Observed Logger σ)

variable {σ : Type} (host : Host)

def LogCall.log (c : LogCall) : LoggerM Unit := do
  let l ← get
  Logger.log (chars c.format) ((host.place l c).args ++ c.args)

def logged (c : LogCall) : LoggedM σ Unit := report (c.log host)

/-- Every format but one has as many placeholders as the call has arguments. -/
theorem slots_format (c : LogCall) (p : Place) :
    slots (formatItems (chars c.format)) = (p.args ++ c.args).length ↔ c ≠ .run := by
  have hplace : (p.args ++ c.args).length = 4 + c.args.length := List.length_append
  rw [hplace]
  cases c with
  | run => exact iff_of_false (by decide) fun h => h rfl
  | processing | received | receivedRequest | differentSocket | incorrectSeqNum | processingRequests | writing
  | epollInListener | epollIn | epollOut | epollErr | haveNewConnection | acceptedSocket | readSocket | sendSocket =>
    refine iff_of_true ?_ nofun
    dsimp only [LogCall.format, LogCall.args, List.length_cons, List.length_nil]
    decide +kernel

theorem LogCall.log_apply (c : LogCall) (l : Logger) : c.log host l =
    renders (formatItems (chars c.format)) ((host.place l c).args ++ c.args) l := by
  rw [LogCall.log, bind_of_ok (get_apply), Logger.log_apply]

theorem LogCall.log_returns {c : LogCall} (h : c ≠ .run) (l : Logger) : ∃ l', c.log host l = .ok () l' :=
  ⟨_, (c.log_apply host l).trans (if_pos ((slots_format c _).mpr h))⟩

/-- The first log call of `run` has four arguments for five placeholders. -/
theorem LogCall.log_run (l : Logger) : ∃ l', LogCall.run.log host l = .error missingArguments l' := by
  have hslots : slots (formatItems (chars LogCall.run.format)) = 5 := by decide
  have hargs : ((host.place l .run).args ++ LogCall.run.args).length = 4 := rfl
  rw [LogCall.log_apply, renders, hslots, hargs, if_neg (by decide), if_neg (by decide)]
  exact ⟨_, rfl⟩

theorem erases_logged {c : LogCall} (h : c ≠ .run) : Erases (logged host c : LoggedM σ Unit) (pure ()) :=
  .report (LogCall.log_returns host h)

/-! ## Receiving -/

namespace Logged
open OrderServer TCPServer

/-- `FIFOSequencer::sequenceAndPublish`. -/
def sequenceAndPublish (sorted : List RecvTimeClientRequest) : LoggedM FIFOSequencer Unit := do
  let s ← quietly get
  if s.pendingClientRequests = [] then return ()
  else do
    logged host (.processingRequests (UInt64.ofNat s.pendingClientRequests.length))
    forM sorted fun r => do
      logged host (.writing r.recvTime (host.meRequestText r.request))
      quietly (FIFOSequencer.publish r)
    quietly (modify fun s => { s with pendingClientRequests := [] })

theorem erases_sequenceAndPublish (sorted : List RecvTimeClientRequest) :
    Erases (sequenceAndPublish host sorted) (FIFOSequencer.sequenceAndPublish sorted) := by
  refine .bind (.quietly _) fun s => .ite (.pure _) (.skip (erases_logged host nofun) (.bind (.forM _ fun r => ?_) fun _ => .quietly _))
  exact .skip (erases_logged host nofun) (.quietly _)

/-- The two tests that pass over a request, and what is done with any other. -/
def acceptExpected (cid : Fin ME_MAX_NUM_CLIENTS) (socket : SocketId) (rxTime : Nanos) (request : OMClientRequest) :
    LoggedM OrderServer Unit := do
  let s ← quietly get
  if s.cidTcpSocket cid ≠ some socket then do
    logged host (.differentSocket request.meClientRequest.clientId (host.socketFd socket)
      ((s.cidTcpSocket cid).elim 0 host.socketFd))
    return ()
  else if request.seqNum ≠ s.cidNextExpSeqNum cid then do
    logged host (.incorrectSeqNum request.meClientRequest.clientId (s.cidNextExpSeqNum cid) request.seqNum)
    return ()
  else do
    quietly (modifyAdmission (accept cid socket request))
    quietly (onSequencer (FIFOSequencer.addClientRequest rxTime request.meClientRequest))

/-- The body of the loop of `recvCallback`. -/
def examine (socket : SocketId) (rxTime : Nanos) (request : OMClientRequest) : LoggedM OrderServer Unit := do
  logged host (.receivedRequest (host.omRequestText request))
  quietly (modifyAdmission (look socket request))
  let cid ← quietly (clientIndex request.meClientRequest.clientId)
  quietly (modifyAdmission (bindSocket cid socket))
  acceptExpected host cid socket rxTime request

def recvLoop (socket : SocketId) (rxTime : Nanos) : Nat → Nat → LoggedM OrderServer Nat
  | 0, _ => throw .diverges
  | turns + 1, i => do
    let s ← quietly get
    if i + OMClientRequest.size ≤ (s.sockets socket).nextRcvValidIndex then do
      let request := OMClientRequest.codec.decode (Framing.slice (s.sockets socket).inboundData i OMClientRequest.size)
      examine host socket rxTime request
      recvLoop socket rxTime turns (i + OMClientRequest.size)
    else return i

def recvCallback (socket : SocketId) (rxTime : Nanos) : LoggedM OrderServer Unit := do
  let s ← quietly get
  let next := (s.sockets socket).nextRcvValidIndex
  logged host (.received (host.socketFd socket) (UInt64.ofNat next) rxTime)
  if next ≥ OMClientRequest.size then do
    let i ← recvLoop host socket rxTime (next / OMClientRequest.size + 1) 0
    quietly (onSocket socket (moveLeftover i))
  else return ()

theorem erases_examine (socket : SocketId) (rxTime : Nanos) (request : OMClientRequest) :
    Erases (examine host socket rxTime request) (OrderServer.examine socket rxTime request) := by
  refine .skip (erases_logged host nofun) (.bind (.quietly _) fun _ => .bind (.quietly _) fun cid => .bind (.quietly _) fun _ => ?_)
  refine .bind (.quietly _) fun s => .ite ?_ (.ite ?_ (.bind (.quietly _) fun _ => .quietly _))
  · exact .skip (erases_logged host nofun) (.pure _)
  · exact .skip (erases_logged host nofun) (.pure _)

theorem erases_recvLoop (socket : SocketId) (rxTime : Nanos) (turns i : Nat) :
    Erases (recvLoop host socket rxTime turns i) (OrderServer.recvLoop socket rxTime turns i) := by
  induction turns generalizing i with
  | zero => exact .throw _
  | succ turns ih =>
    exact .bind (.quietly _) fun s => .ite (.bind (erases_examine host _ _ _) fun _ => ih _) (.pure _)

theorem erases_recvCallback (socket : SocketId) (rxTime : Nanos) :
    Erases (recvCallback host socket rxTime) (OrderServer.recvCallback socket rxTime) := by
  refine .bind (.quietly _) fun s => .skip (erases_logged host nofun) (.ite (.bind ?_ fun i => .quietly _) (.pure _))
  exact erases_recvLoop host _ _ _ _

/-- The first half of `TCPSocket::sendAndRecv`. The listener has no callback. -/
def receive (listener : SocketId) (c : Call) : LoggedM OrderServer Unit :=
  if c.bytes = [] then pure () else do
    quietly (onSocket c.socket (TCPSocket.recvmsg c.bytes))
    let s ← quietly get
    logged host (.readSocket (host.socketFd c.socket) (UInt64.ofNat (s.sockets c.socket).nextRcvValidIndex)
      (host.getCurrentNanos s) c.rxTime)
    if c.socket = listener then return () else recvCallback host c.socket c.rxTime

/-- The log call of the second half, if `::send` is called; it returned -1 or what it took. -/
def logSend (c : Call) (next : Nat) : LoggedM OrderServer Unit :=
  if next > 0 then logged host (.sendSocket (host.socketFd c.socket) (if c.took = 0 then -1 else Int64.ofNat (min c.took next)))
  else return ()

def socketCall (listener : SocketId) (c : Call) : LoggedM OrderServer Bool := do
  receive host listener c
  let s ← quietly get
  logSend host c (s.sockets c.socket).nextSendValidIndex
  quietly (onSocket c.socket (TCPSocket.flush c.took))
  return c.bytes ≠ []

/-- `TCPServer::sendAndRecv`. -/
def round (sort : List RecvTimeClientRequest → List RecvTimeClientRequest) (listener : SocketId)
    (receives sends : List Call) : LoggedM OrderServer Unit :=
  TCPServer.sendAndRecv (socketCall host listener)
    (do let s ← quietly get
        zoom (fun s => s.fifoSequencer) (fun s t => { s with fifoSequencer := t })
          (sequenceAndPublish host (sort s.fifoSequencer.pendingClientRequests)))
    receives sends

/-- The same on the sockets that the TCP server has. -/
def sendAndRecv (sort : List RecvTimeClientRequest → List RecvTimeClientRequest) (receives sends : SocketId → Input) :
    LoggedM Serving Unit := do
  let s ← quietly get
  zoom Serving.server Serving.withServer (round host sort s.tcpServer.listenerSocket
    (calls receives s.tcpServer.receiveSockets) (calls sends s.tcpServer.sendSockets))
  quietly (modify fun s => { s with drainedTo := fun _ => 0 })

theorem erases_logSend (c : Call) (next : Nat) : Erases (logSend host c next) (pure ()) := by
  unfold logSend
  split
  · exact erases_logged host nofun
  · exact .pure _

theorem erases_socketCall (listener : SocketId) (c : Call) :
    Erases (socketCall host listener c) (Serving.socketCall listener c) := by
  have hreceive : Erases (receive host listener c) (TCPSocket.receive (onSocket c.socket)
      (if c.socket = listener then return () else OrderServer.recvCallback c.socket c.rxTime) c.bytes) := by
    refine .ite (.pure _) (.bind (.quietly _) fun _ => .read fun s => ?_)
    exact .skip (erases_logged host nofun) (.ite (.pure _) (erases_recvCallback host _ _))
  refine hreceive.bind fun _ => .read fun s => ?_
  exact .skip (erases_logSend host _ _) (.bind (.quietly _) fun _ => .pure _)

theorem erases_callAll (listener : SocketId) (calls : List Call) :
    Erases (callAll (socketCall host listener) calls) (callAll (Serving.socketCall listener) calls) := by
  induction calls with
  | nil => exact .pure _
  | cons c calls ih =>
    rw [callAll, callAll]
    exact .bind (erases_socketCall host listener c) fun _ => .bind ih fun _ => .pure _

theorem erases_round (sort : List RecvTimeClientRequest → List RecvTimeClientRequest) (listener : SocketId)
    (receives sends : List Call) : Erases (round host sort listener receives sends)
      (TCPServer.sendAndRecv (Serving.socketCall listener)
        (do let s ← get
            recvFinishedCallBack (sort s.fifoSequencer.pendingClientRequests))
        receives sends) := by
  refine .bind (erases_callAll host _ _) fun recv => .bind (.ite ?_ (.pure _)) fun _ => .bind (erases_callAll host _ _) fun _ => .pure _
  exact .bind (.quietly _) fun s => .zoom (erases_sequenceAndPublish host _)

theorem erases_sendAndRecv (sort : List RecvTimeClientRequest → List RecvTimeClientRequest) (receives sends : SocketId → Input) :
    Erases (sendAndRecv host sort receives sends) (Serving.sendAndRecv sort receives sends) := by
  refine .bind (.quietly _) fun s => .bind ?_ fun _ => .quietly _
  exact .zoom (erases_round host sort _ _ _)

/-! ## Sending -/

/-- The body of the loop of `run`. -/
def sendResponse (clientResponse : MEClientResponse) : LoggedM OrderServer Unit := do
  let cid ← quietly (clientIndex clientResponse.clientId)
  let s ← quietly get
  logged host (.processing clientResponse.clientId (s.cidNextOutgoingSeqNum cid) (host.responseText clientResponse))
  quietly (OrderServer.sendResponse clientResponse)

theorem erases_sendResponse (r : MEClientResponse) : Erases (sendResponse host r) (OrderServer.sendResponse r) := by
  have htwice : (do let _ ← clientIndex r.clientId; OrderServer.sendResponse r) = OrderServer.sendResponse r := by
    funext s
    unfold OrderServer.sendResponse clientIndex
    split_ifs <;> rfl
  rw [← htwice]
  refine .bind (.quietly _) fun cid => .read fun s => ?_
  exact .skip (erases_logged host nofun) (.quietly _)

/-- The test of the condition of the inner loop, with the turn that follows. -/
def sendNext : LoggedM Serving Unit := do
  let s ← quietly get
  match s.server.nextResponse with
  | none => quietly (Serving.goTo .poll)
  | some clientResponse => do
    zoom Serving.server Serving.withServer (sendResponse host clientResponse)
    quietly (modify (Serving.count clientResponse))

theorem erases_sendNext : Erases (sendNext host) Serving.sendNext := by
  refine .bind (.quietly _) fun s => ?_
  cases s.server.nextResponse with
  | none => exact .quietly _
  | some r => exact .bind (.zoom (erases_sendResponse host r)) fun _ => .quietly _

/-! ## `poll` -/

/-- The body of the loop over `events_`. -/
def handle (e : Event) : LoggedM TCPServer Bool := do
  let t ← quietly get
  if e.events &&& EPOLLIN ≠ 0 ∧ e.socket = t.listenerSocket then do
    logged host (.epollInListener (host.socketFd e.socket))
    return true
  else do
    (if e.events &&& EPOLLIN ≠ 0 then do
      logged host (.epollIn (host.socketFd e.socket))
      quietly (modify (receiveFrom e.socket))
    else return ())
    (if e.events &&& EPOLLOUT ≠ 0 then do
      logged host (.epollOut (host.socketFd e.socket))
      quietly (modify (sendTo e.socket))
    else return ())
    (if e.events &&& (EPOLLERR ||| EPOLLHUP) ≠ 0 then do
      logged host (.epollErr (host.socketFd e.socket))
      quietly (modify (receiveFrom e.socket))
    else return ())
    return false

def handleAll : List Event → LoggedM TCPServer Bool
  | [] => return false
  | e :: events => do
    let new ← handle host e
    let rest ← handleAll events
    return new || rest

/-- One turn of `while (have_new_connection)`. -/
def accept (a : Accepted) : LoggedM Serving Unit := do
  logged host .haveNewConnection
  if a.configured = false then
    throw (.assertFailed ("Failed to set non-blocking or no-delay on socket: " ++ toString a.fd))
  else do
    logged host (.acceptedSocket (Int32.ofInt a.fd))
    quietly (modify fun s => s.withServer (putSocket a.socket s.server {}))
    if a.added = false then throw (.assertFailed ("Unable to add socket. error:" ++ a.error))
    else quietly (modify fun s => { s with tcpServer := s.tcpServer.receiveFrom a.socket })

/-- The last turn of the loop over the new connections finds none. -/
def poll (events : List Event) (accepted : List Accepted) : LoggedM Serving Unit :=
  if events.length ≤ 1024 then do
    let haveNewConnection ← zoom Serving.tcpServer (fun s t => { s with tcpServer := t }) (handleAll host events)
    if haveNewConnection then do
      forM accepted (accept host)
      logged host .haveNewConnection
    else return ()
  else throw .outOfRange

theorem erases_handle (e : Event) : Erases (handle host e) (modifyGet fun t => ((t.handle e).2, (t.handle e).1)) := by
  have hplain : (modifyGet fun t => ((t.handle e).2, (t.handle e).1) : EStateM Fault TCPServer Bool) = (do
      let t ← get
      if e.events &&& EPOLLIN ≠ 0 ∧ e.socket = t.listenerSocket then return true
      else do
        (if e.events &&& EPOLLIN ≠ 0 then modify (receiveFrom e.socket) else return ())
        (if e.events &&& EPOLLOUT ≠ 0 then modify (sendTo e.socket) else return ())
        (if e.events &&& (EPOLLERR ||| EPOLLHUP) ≠ 0 then modify (receiveFrom e.socket) else return ())
        return false) := by
    funext t
    rw [bind_of_ok (get_apply), modifyGet_apply]
    unfold TCPServer.handle
    split_ifs <;> rfl
  rw [hplain]
  refine .bind (.quietly _) fun t => .ite (.skip (erases_logged host nofun) (.pure _)) ?_
  refine .bind (.ite (.skip (erases_logged host nofun) (.quietly _)) (.pure _)) fun _ => ?_
  refine .bind (.ite (.skip (erases_logged host nofun) (.quietly _)) (.pure _)) fun _ => ?_
  exact .bind (.ite (.skip (erases_logged host nofun) (.quietly _)) (.pure _)) fun _ => .pure _

theorem erases_handleAll (events : List Event) :
    Erases (handleAll host events) (modifyGet fun t => ((t.handleAll events).2, (t.handleAll events).1)) := by
  induction events with
  | nil => exact fun p => ⟨p.observer, rfl⟩
  | cons e events ih =>
    have hplain : (modifyGet fun t => ((t.handleAll (e :: events)).2, (t.handleAll (e :: events)).1) : EStateM Fault TCPServer Bool) =
        (do let new ← modifyGet fun t => ((t.handle e).2, (t.handle e).1)
            let rest ← modifyGet fun t => ((t.handleAll events).2, (t.handleAll events).1)
            return new || rest) := rfl
    rw [hplain]
    exact .bind (erases_handle host e) fun new => .bind ih fun rest => .pure _

theorem erases_accept (a : Accepted) : Erases (accept host a) (Serving.accept a) := by
  refine .skip (erases_logged host nofun) (.ite (.throw _) (.skip (erases_logged host nofun) (.bind (.quietly _) fun _ => ?_)))
  exact .ite (.throw _) (.quietly _)

theorem erases_poll (events : List Event) (accepted : List Accepted) :
    Erases (poll host events accepted) (Serving.poll events accepted) := by
  have hplain : Serving.poll events accepted = if events.length ≤ 1024 then do
      let haveNewConnection ← focus Serving.tcpServer (fun s t => { s with tcpServer := t })
        (modifyGet fun t => ((t.handleAll events).2, (t.handleAll events).1))
      if haveNewConnection then forM accepted Serving.accept else return ()
    else throw .outOfRange := rfl
  rw [hplain]
  refine .ite (.bind (.zoom (erases_handleAll host events)) fun new => .ite ?_ (.pure _)) (.throw _)
  exact .last (.forM _ (erases_accept host)) (erases_logged host nofun)

/-! ## `run` -/

def step : Serving.Step → LoggedM Serving Unit
  | .poll events accepted => do
    poll host events accepted
    quietly (Serving.goTo .sendAndRecv)
  | .sendAndRecv sort receives sends => do
    sendAndRecv host sort receives sends
    quietly (Serving.goTo .drain)
  | .sendNext => sendNext host
  | .respond clientResponse => quietly (Serving.step (.respond clientResponse))
  | .takeRequest => quietly (Serving.step .takeRequest)

/-- The loop of `run`, with what the engine does meanwhile. -/
def loop (is : List Serving.Step) : LoggedM Serving Unit := forM is (step host)

def run (is : List Serving.Step) : LoggedM Serving Unit := do
  logged host .run
  loop host is

/-- Without its log calls the loop does what the loop of the server does. -/
theorem erases_step (i : Serving.Step) : Erases (step host i) (Serving.step i) := by
  cases i with
  | poll events accepted => exact .bind (erases_poll host events accepted) fun _ => .quietly _
  | sendAndRecv sort receives sends => exact .bind (erases_sendAndRecv host sort receives sends) fun _ => .quietly _
  | sendNext => exact erases_sendNext host
  | respond clientResponse => exact .quietly _
  | takeRequest => exact .quietly _

/-- The faults of `Logger::log`. -/
def OfLog (f : Fault) : Prop := f = missingArguments ∨ f = extraArguments

theorem not_ofLog {f : Fault} (h : f.OfServer ∨ f = .overrun) : ¬ OfLog f := by
  rintro (rfl | rfl)
  · rcases h with h | h
    · exact absurd h (show ¬ missingArguments = FIFOSequencer.tooManyPendingRequests by decide)
    · cases h
  · rcases h with h | h
    · exact absurd h (show ¬ extraArguments = FIFOSequencer.tooManyPendingRequests by decide)
    · cases h

/-- No log call of the loop is stopped. -/
theorem loop_raises (is : List Serving.Step) : Raises (fun f => ¬ OfLog f) (loop host is) := by
  refine .forM is fun i => (erases_step host i).raises ?_
  by_cases hi : i = .sendNext
  · rw [hi]
    exact Serving.raises_sendNext.mono fun f => not_ofLog
  · exact (Serving.raises_step hi).mono fun f hf => not_ofLog (.inl hf)

/-- Every run is stopped by its first log call, before the loop begins. -/
theorem run_stops (is : List Serving.Step) (p : Observed Logger Serving) :
    ∃ l, run host is p = .error missingArguments { observer := l, state := p.state } := by
  obtain ⟨l, hl⟩ := LogCall.log_run host p.observer
  refine ⟨l, ?_⟩
  unfold run logged
  exact bind_of_error (report_of_error hl)

/-- A host that shows no details. -/
def plainHost : Host where
  place _ _ := { file := chars "order_server.h", line := 22, func := chars "run", timeStr := chars "Thu Jan  1 00:00:00 1970" }
  socketFd _ := 3
  getCurrentNanos _ := 0
  omRequestText _ := []
  meRequestText _ := []
  responseText _ := []

/-- A new server that is told to stop at once. -/
theorem run_fatal : stop (run plainHost [] { observer := .fresh, state := .fresh 1 (.ofSize 4) (.ofSize 4) }) =
    some (.fatal "missing arguments to log()") := by decide +kernel

end Logged
end TradingEcosystem
