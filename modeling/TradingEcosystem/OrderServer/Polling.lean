import TradingEcosystem.OrderServer.Round
import TradingEcosystem.OrderServer.Routing

/-! The loop of `OrderServer::run` with `tcp_server.h`: `poll` collects the sockets, `sendAndRecv`
goes through them, and then the responses of the engine are sent. -/
namespace TradingEcosystem
open Program Runs

/-! ## `poll` -/

def EPOLLIN : UInt32 := 0x001
def EPOLLOUT : UInt32 := 0x004
def EPOLLERR : UInt32 := 0x008
def EPOLLHUP : UInt32 := 0x010

/-- An entry of `events_`. -/
structure Event where
  events : UInt32
  socket : SocketId

/-- A connection that `accept` returns: whether `setNonBlocking(fd) && disableNagle(fd)` and
`addToEpollList(socket)` hold, and the address that `new TCPSocket` has. -/
structure Accepted where
  fd : Int
  socket : SocketId
  configured : Bool := true
  added : Bool := true
  error : String := ""

structure TCPServer where
  listenerSocket : SocketId
  receiveSockets : List SocketId := []
  sendSockets : List SocketId := []

namespace TCPServer

/-- `std::find` and `push_back`. -/
def pushNew (socket : SocketId) (l : List SocketId) : List SocketId := if socket ∈ l then l else l ++ [socket]

def receiveFrom (socket : SocketId) (t : TCPServer) : TCPServer := { t with receiveSockets := pushNew socket t.receiveSockets }
def sendTo (socket : SocketId) (t : TCPServer) : TCPServer := { t with sendSockets := pushNew socket t.sendSockets }

/-- The body of the loop over `events_`. It tells whether there is a new connection. -/
def handle (e : Event) (t : TCPServer) : TCPServer × Bool :=
  if e.events &&& EPOLLIN ≠ 0 ∧ e.socket = t.listenerSocket then (t, true)
  else
    let t := if e.events &&& EPOLLIN ≠ 0 then t.receiveFrom e.socket else t
    let t := if e.events &&& EPOLLOUT ≠ 0 then t.sendTo e.socket else t
    let t := if e.events &&& (EPOLLERR ||| EPOLLHUP) ≠ 0 then t.receiveFrom e.socket else t
    (t, false)

def handleAll : List Event → TCPServer → TCPServer × Bool
  | [], t => (t, false)
  | e :: events, t =>
    let (t, new) := t.handle e
    let (t, rest) := handleAll events t
    (t, new || rest)

/-- `max_events`. -/
def maxEvents (t : TCPServer) : Nat := 1 + t.sendSockets.length + t.receiveSockets.length

/-- What the kernel does in the `sendAndRecv` of a socket. -/
structure Input where
  bytes : List UInt8 := []
  rxTime : Nanos := 0
  took : Nat := 0

/-- The calls of a `std::for_each` over a list of sockets. -/
def calls (input : SocketId → Input) (l : List SocketId) : List Call :=
  l.map fun k => ⟨k, (input k).bytes, (input k).rxTime, (input k).took⟩

end TCPServer

/-! ## The loop of `run` -/

/-- The next call of the loop. -/
inductive Phase where
  | poll | sendAndRecv | drain
  deriving DecidableEq

/-- `drainedTo` is proof-only: how many responses were appended for each socket since the last
`sendAndRecv` of the TCP server. -/
structure Serving where
  server : OrderServer
  tcpServer : TCPServer
  phase : Phase := .poll
  drainedTo : SocketId → Nat := fun _ => 0

abbrev ServingM := EStateM Fault Serving

namespace Serving
open TCPServer

/-- A server whose TCP server listens and has no connection. -/
def fresh (listener : SocketId) (clientRequests : LFQueue MEClientRequest) (clientResponses : LFQueue MEClientResponse) :
    Serving where
  server := .fresh clientRequests clientResponses
  tcpServer := { listenerSocket := listener }

def withServer (s : Serving) (t : OrderServer) : Serving := { s with server := t }

/-- A method of the order server. -/
def onServer (x : ServerM Unit) : ServingM Unit := focus server withServer x

def goTo (p : Phase) : ServingM Unit := modify fun s => { s with phase := p }

/-- One turn of `while (have_new_connection)`. -/
def accept (a : Accepted) : ServingM Unit :=
  if a.configured = false then
    throw (.assertFailed ("Failed to set non-blocking or no-delay on socket: " ++ toString a.fd))
  else do
    modify fun s => s.withServer (OrderServer.putSocket a.socket s.server {})
    if a.added = false then throw (.assertFailed ("Unable to add socket. error:" ++ a.error))
    else modify fun s => { s with tcpServer := s.tcpServer.receiveFrom a.socket }

/-- `events` are those that `epoll_wait` stores, in an array with room for 1024 of them. The
connections `accepted` are there for the loop that takes new ones. -/
def poll (events : List Event) (accepted : List Accepted) : ServingM Unit :=
  if events.length ≤ 1024 then do
    let s ← get
    let (t, haveNewConnection) := s.tcpServer.handleAll events
    modify fun s => { s with tcpServer := t }
    if haveNewConnection then forM accepted accept else return ()
  else throw .outOfRange

/-- `sendAndRecv` of a socket. The listener has no callback. -/
def socketCall (listener : SocketId) (c : Call) : ServerM Bool :=
  TCPSocket.sendAndRecv (OrderServer.onSocket c.socket)
    (if c.socket = listener then return () else OrderServer.recvCallback c.socket c.rxTime) c.bytes c.took

/-- `sort` is what `std::sort` does. -/
def sendAndRecv (sort : List RecvTimeClientRequest → List RecvTimeClientRequest) (receives sends : SocketId → Input) : ServingM Unit := do
  let s ← get
  onServer (TCPServer.sendAndRecv (socketCall s.tcpServer.listenerSocket)
    (do let s ← get
        OrderServer.recvFinishedCallBack (sort s.fifoSequencer.pendingClientRequests))
    (calls receives s.tcpServer.receiveSockets) (calls sends s.tcpServer.sendSockets))
  modify fun s => { s with drainedTo := fun _ => 0 }

/-- One more response was appended for the socket of its client. -/
def count (clientResponse : MEClientResponse) (s : Serving) : Serving :=
  match s.server.socketOf clientResponse.clientId with
  | none => s
  | some socket => { s with drainedTo := Function.update s.drainedTo socket (s.drainedTo socket + 1) }

/-- A test of the condition of the inner loop, with the turn that follows. -/
def sendNext : ServingM Unit := do
  let s ← get
  match s.server.nextResponse with
  | none => goTo .poll
  | some clientResponse => do
    onServer (OrderServer.sendResponse clientResponse)
    modify (count clientResponse)

/-- The engine takes the next request from its queue. -/
def takeRequest : ServingM Unit :=
  onServer (OrderServer.onSequencer
    (focus (fun s => s.incomingRequests) (fun s q => { s with incomingRequests := q }) LFQueue.updateReadIndex))

/-- What the thread of the server does next, and what the engine does in between. -/
inductive Step where
  | poll (events : List Event) (accepted : List Accepted)
  | sendAndRecv (sort : List RecvTimeClientRequest → List RecvTimeClientRequest) (receives sends : SocketId → Input)
  | sendNext
  | respond (clientResponse : MEClientResponse)
  | takeRequest

def step : Step → ServingM Unit
  | .poll events accepted => do
    Serving.poll events accepted
    goTo .sendAndRecv
  | .sendAndRecv sort receives sends => do
    Serving.sendAndRecv sort receives sends
    goTo .drain
  | .sendNext => Serving.sendNext
  | .respond clientResponse => onServer (OrderServer.respond clientResponse)
  | .takeRequest => Serving.takeRequest

/-- `epoll_wait` reports what a socket is registered for, an error or a hang-up. -/
def Reported (e : Event) : Prop := e.events &&& ~~~(EPOLLIN ||| EPOLLERR ||| EPOLLHUP) = 0

/-- The steps that can come next: those of the server in the order of its loop, with what the kernel,
`new` and `std::sort` promise; the engine does not overfill the queue of responses and takes only
requests that are there. -/
def Serves (s : Serving) : Step → Prop
  | .poll events accepted => s.phase = .poll ∧ events.length ≤ s.tcpServer.maxEvents ∧
      (∀ e ∈ events, Reported e ∧ (e.socket = s.tcpServer.listenerSocket ∨ e.socket ∈ s.tcpServer.receiveSockets)) ∧
      (accepted.map Accepted.socket).Nodup ∧
      ∀ a ∈ accepted, a.socket ≠ s.tcpServer.listenerSocket ∧ a.socket ∉ s.tcpServer.receiveSockets
  | .sendAndRecv sort _ _ => s.phase = .sendAndRecv ∧ ∀ pending, FIFOSequencer.Sorts pending (sort pending)
  | .sendNext => s.phase = .drain
  | .respond _ => s.server.outgoingResponses.numElements.toNat + 1 < s.server.outgoingResponses.size
  | .takeRequest => s.server.fifoSequencer.incomingRequests.getNextToRead ≠ none

end Serving
end TradingEcosystem
