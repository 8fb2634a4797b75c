import TradingEcosystem.FIFOSequencer
import TradingEcosystem.TCPSocket
import TradingEcosystem.Wire
import TradingEcosystem.Library.Runs

/-! `order_server.h`: requests are taken from the sockets of the clients in the order of their
numbers and handed to the sequencer; responses of the engine go out with numbers of their own. -/
namespace TradingEcosystem
open Program Runs Framing

/-- A `TCPSocket *` that is not null. -/
abbrev SocketId := Nat

instance : NeZero ME_MAX_NUM_CLIENTS := ⟨by decide⟩

/-- The tables by which requests are admitted. The last two fields are proof-only: the requests
that `recvCallback` looked at and those it handed to `addClientRequest`, with their socket. -/
structure Admission where
  cidNextExpSeqNum : Fin ME_MAX_NUM_CLIENTS → UInt64 := fun _ => 1
  cidTcpSocket : Fin ME_MAX_NUM_CLIENTS → Option SocketId := fun _ => none
  examined : List (SocketId × OMClientRequest) := []
  admitted : List (SocketId × OMClientRequest) := []

/-- The last two fields are proof-only: the responses that the engine wrote to the queue and
those that were sent. -/
structure OrderServer extends Admission where
  fifoSequencer : FIFOSequencer
  outgoingResponses : LFQueue MEClientResponse
  cidNextOutgoingSeqNum : Fin ME_MAX_NUM_CLIENTS → UInt64 := fun _ => 1
  sockets : SocketId → TCPSocket := fun _ => {}
  responded : List MEClientResponse := []
  drained : List MEClientResponse := []

abbrev ServerM := EStateM Fault OrderServer

namespace OrderServer

/-- A server as its constructor leaves it. -/
def fresh (clientRequests : LFQueue MEClientRequest) (clientResponses : LFQueue MEClientResponse) : OrderServer where
  fifoSequencer := { incomingRequests := clientRequests }
  outgoingResponses := clientResponses

def putSocket (socket : SocketId) (s : OrderServer) (t : TCPSocket) : OrderServer :=
  { s with sockets := Function.update s.sockets socket t }

/-- A method of a socket. -/
def onSocket (socket : SocketId) (x : SocketM Unit) : ServerM Unit := focus (fun s => s.sockets socket) (putSocket socket) x

/-- A method of the sequencer. -/
def onSequencer (x : SequencerM Unit) : ServerM Unit :=
  focus (fun s => s.fifoSequencer) (fun s t => { s with fifoSequencer := t }) x

/-- A method of the queue of responses. -/
def onResponses (x : EStateM Fault (LFQueue MEClientResponse) Unit) : ServerM Unit :=
  focus (fun s => s.outgoingResponses) (fun s q => { s with outgoingResponses := q }) x

/-- The index of a client in the tables; it is not checked. -/
def clientIndex (clientId : ClientId) : ServerM (Fin ME_MAX_NUM_CLIENTS) :=
  if h : clientId.toNat < ME_MAX_NUM_CLIENTS then pure ⟨clientId.toNat, h⟩ else throw .outOfRange

/-! ## Receiving -/

def look (socket : SocketId) (request : OMClientRequest) (a : Admission) : Admission :=
  { a with examined := a.examined ++ [(socket, request)] }

/-- A client is bound to the socket of its first request. -/
def bindSocket (cid : Fin ME_MAX_NUM_CLIENTS) (socket : SocketId) (a : Admission) : Admission :=
  if a.cidTcpSocket cid = none then { a with cidTcpSocket := Function.update a.cidTcpSocket cid (some socket) } else a

/-- `++next_exp_seq_num`, right before the request is added. -/
def accept (cid : Fin ME_MAX_NUM_CLIENTS) (socket : SocketId) (request : OMClientRequest) (a : Admission) : Admission :=
  { a with
    cidNextExpSeqNum := Function.update a.cidNextExpSeqNum cid (a.cidNextExpSeqNum cid + 1)
    admitted := a.admitted ++ [(socket, request)] }

def withAdmission (s : OrderServer) (a : Admission) : OrderServer := { s with toAdmission := a }

def modifyAdmission (f : Admission → Admission) : ServerM Unit := modify fun s => s.withAdmission (f s.toAdmission)

/-- The two tests that pass over a request, and what is done with any other. -/
def acceptExpected (cid : Fin ME_MAX_NUM_CLIENTS) (socket : SocketId) (rxTime : Nanos) (request : OMClientRequest) :
    ServerM Unit := do
  let s ← get
  if s.cidTcpSocket cid ≠ some socket then return ()
  else if request.seqNum ≠ s.cidNextExpSeqNum cid then return ()
  else do
    modifyAdmission (accept cid socket request)
    onSequencer (FIFOSequencer.addClientRequest rxTime request.meClientRequest)

/-- The body of the loop of `recvCallback`. -/
def examine (socket : SocketId) (rxTime : Nanos) (request : OMClientRequest) : ServerM Unit := do
  modifyAdmission (look socket request)
  let cid ← clientIndex request.meClientRequest.clientId
  modifyAdmission (bindSocket cid socket)
  acceptExpected cid socket rxTime request

/-- The loop of `recvCallback` from index `i` on; it returns the index it ends with. The fuel
bounds the tests of its condition. -/
def recvLoop (socket : SocketId) (rxTime : Nanos) : Nat → Nat → ServerM Nat
  | 0, _ => throw .diverges
  | turns + 1, i => do
    let s ← get
    if i + OMClientRequest.size ≤ (s.sockets socket).nextRcvValidIndex then do
      let request := OMClientRequest.codec.decode (slice (s.sockets socket).inboundData i OMClientRequest.size)
      examine socket rxTime request
      recvLoop socket rxTime turns (i + OMClientRequest.size)
    else return i

/-- `memcpy(data, data + i, next_rcv_valid_index_ - i)`, which is undefined where the two ranges
overlap, and the new index. -/
def moveLeftover (i : Nat) : SocketM Unit := do
  let s ← get
  if i < s.nextRcvValidIndex - i then throw .overlap
  else modify fun s => { s with
    inboundData := overwrite s.inboundData 0 (slice s.inboundData i (s.nextRcvValidIndex - i))
    nextRcvValidIndex := s.nextRcvValidIndex - i }

def recvCallback (socket : SocketId) (rxTime : Nanos) : ServerM Unit := do
  let s ← get
  let next := (s.sockets socket).nextRcvValidIndex
  if next ≥ OMClientRequest.size then do
    let i ← recvLoop socket rxTime (next / OMClientRequest.size + 1) 0
    onSocket socket (moveLeftover i)
  else return ()

/-- `sendAndRecv` of a socket with the callback that the constructor installs. -/
def sendAndRecv (socket : SocketId) (bytes : List UInt8) (rxTime : Nanos) (took : Nat) : ServerM Bool :=
  TCPSocket.sendAndRecv (onSocket socket) (recvCallback socket rxTime) bytes took

def recvFinishedCallBack (sorted : List RecvTimeClientRequest) : ServerM Unit :=
  onSequencer (FIFOSequencer.sequenceAndPublish sorted)

/-! ## Sending -/

/-- The message of the assertion on a client's socket. -/
def noSocket (clientId : ClientId) : Fault :=
  .assertFailed ("Don't have a TCPSocket for Client_id: " ++ toString clientId.toNat)

def tcpSocket (clientId : ClientId) (cid : Fin ME_MAX_NUM_CLIENTS) : ServerM SocketId := do
  let s ← get
  match s.cidTcpSocket cid with
  | none => throw (noSocket clientId)
  | some socket => return socket

/-- The body of the loop of `run`: the two parts of a message are appended one by one, then the
slot is released and the number moved on. -/
def sendResponse (clientResponse : MEClientResponse) : ServerM Unit := do
  let cid ← clientIndex clientResponse.clientId
  let socket ← tcpSocket clientResponse.clientId cid
  let s ← get
  onSocket socket (TCPSocket.send (Codec.u64.encode (s.cidNextOutgoingSeqNum cid)))
  onSocket socket (TCPSocket.send clientResponse.encode)
  onResponses LFQueue.updateReadIndex
  modify fun s => { s with
    cidNextOutgoingSeqNum := Function.update s.cidNextOutgoingSeqNum cid (s.cidNextOutgoingSeqNum cid + 1)
    drained := s.drained ++ [clientResponse] }

/-- The condition of the loop of `run`: `outgoing_responses_->size() && client_response`. -/
def nextResponse (s : OrderServer) : Option MEClientResponse :=
  if s.outgoingResponses.numElements = 0 then none else s.outgoingResponses.getNextToRead

/-- The loop of `run`; the fuel bounds the tests of its condition. -/
def drainLoop : Nat → ServerM Unit
  | 0 => throw .diverges
  | turns + 1 => do
    let s ← get
    match s.nextResponse with
    | none => return ()
    | some clientResponse => do
      sendResponse clientResponse
      drainLoop turns

/-- While the loop runs the queue becomes empty after at most as many turns as it has slots. -/
def drain : ServerM Unit := do
  let s ← get
  drainLoop (s.outgoingResponses.size + 1)

/-- The engine writes a response to the queue. -/
def respond (clientResponse : MEClientResponse) : ServerM Unit :=
  modify fun s => { s with
    outgoingResponses := s.outgoingResponses.write clientResponse
    responded := s.responded ++ [clientResponse] }

/-! ## Runs -/

/-- What happens to a server. The bytes read, their time and the bytes taken are the kernel's
part of `sendAndRecv`; `sorted` is the result of the sort. -/
inductive Step where
  | send (socket : SocketId) (data : List UInt8)
  | sendAndRecv (socket : SocketId) (bytes : List UInt8) (rxTime : Nanos) (took : Nat)
  | recvFinishedCallBack (sorted : List RecvTimeClientRequest)
  | respond (clientResponse : MEClientResponse)
  | drain

def step : Step → ServerM Unit
  | .send socket data => onSocket socket (TCPSocket.send data)
  | .sendAndRecv socket bytes rxTime took => do
    let _ ← OrderServer.sendAndRecv socket bytes rxTime took
    return ()
  | .recvFinishedCallBack sorted => OrderServer.recvFinishedCallBack sorted
  | .respond clientResponse => OrderServer.respond clientResponse
  | .drain => OrderServer.drain

end OrderServer
end TradingEcosystem
