import TradingEcosystem.OrderServer.Publishing

/-! How the thread of the server can stop. -/
namespace TradingEcosystem
open Program Runs

/-- A fault of the server other than a buffer that is overrun. -/
def Fault.OfServer : Fault → Prop
  | .assertFailed _ | .outOfRange | .overlap | .diverges => True
  | .fatal msg => .fatal msg = FIFOSequencer.tooManyPendingRequests
  | .nullDeref | .freedDeref | .overrun => False

theorem raises_updateReadIndex {T : Type} : Raises Fault.OfServer (LFQueue.updateReadIndex (T := T)) := by
  intro q f q' h
  rcases OrderServer.updateReadIndex_cases q with ⟨q₁, hq⟩ | ⟨q₁, hq⟩
  · rw [hq] at h
    cases h
  · rw [hq] at h
    cases h
    trivial

namespace OrderServer
open TCPServer

/-! ## Receiving -/

theorem raises_clientIndex (clientId : ClientId) : Raises Fault.OfServer (clientIndex clientId) := by
  unfold clientIndex
  split
  · exact .pure _
  · exact .throw trivial

theorem raises_addClientRequest (rxTime : Nanos) (request : MEClientRequest) :
    Raises Fault.OfServer (FIFOSequencer.addClientRequest rxTime request) :=
  .bind .get fun _ => .ite (.throw rfl) (.modify _)

theorem raises_examine (socket : SocketId) (rxTime : Nanos) (request : OMClientRequest) :
    Raises Fault.OfServer (examine socket rxTime request) := by
  refine .bind (.modify _) fun _ => .bind (raises_clientIndex _) fun cid => .bind (.modify _) fun _ => ?_
  refine .bind .get fun s => .ite (.pure _) (.ite (.pure _) (.bind (.modify _) fun _ => .focus ?_))
  exact raises_addClientRequest _ _

theorem raises_recvLoop (socket : SocketId) (rxTime : Nanos) (turns i : Nat) :
    Raises Fault.OfServer (recvLoop socket rxTime turns i) := by
  induction turns generalizing i with
  | zero => exact .throw trivial
  | succ turns ih => exact .bind .get fun s => .ite (.bind (raises_examine _ _ _) fun _ => ih _) (.pure _)

theorem raises_recvCallback (socket : SocketId) (rxTime : Nanos) : Raises Fault.OfServer (recvCallback socket rxTime) := by
  refine .bind .get fun s => .ite (.bind (raises_recvLoop _ _ _ _) fun i => .focus ?_) (.pure _)
  exact .bind .get fun t => .ite (.throw trivial) (.modify _)

theorem raises_socketCall (listener : SocketId) (c : Call) : Raises Fault.OfServer (Serving.socketCall listener c) := by
  have hreceive : Raises Fault.OfServer (TCPSocket.receive (onSocket c.socket)
      (if c.socket = listener then return () else recvCallback c.socket c.rxTime) c.bytes) :=
    .ite (.pure _) (.bind (.focus (.modify _)) fun _ => .ite (.pure _) (raises_recvCallback _ _))
  exact .bind hreceive fun _ => .bind (.focus (.modify _)) fun _ => .pure _

theorem raises_callAll (listener : SocketId) (calls : List Call) :
    Raises Fault.OfServer (callAll (Serving.socketCall listener) calls) := by
  induction calls with
  | nil => exact .pure _
  | cons c calls ih => exact .bind (raises_socketCall listener c) fun _ => .bind ih fun _ => .pure _

theorem raises_recvFinishedCallBack (sorted : List RecvTimeClientRequest) :
    Raises Fault.OfServer (recvFinishedCallBack sorted) :=
  .focus (.bind .get fun _ => .ite (.pure _) (.bind (.forM _ fun _ => .modify _) fun _ => .modify _))

/-! ## Sending -/

theorem raises_release (r : MEClientResponse) (cid : Fin ME_MAX_NUM_CLIENTS) : Raises Fault.OfServer (release r cid) :=
  .bind (.focus raises_updateReadIndex) fun _ => .modify _

theorem raises_onSocket_send (socket : SocketId) (data : List UInt8) :
    Raises (fun f => f.OfServer ∨ f = .overrun) (onSocket socket (TCPSocket.send data)) :=
  .focus (.bind (.modify _) fun _ => .bind .get fun _ => .ite (.modify _) (.throw (.inr rfl)))

theorem raises_sendResponse (r : MEClientResponse) : Raises (fun f => f.OfServer ∨ f = .overrun) (sendResponse r) := by
  have htcp : ∀ cid, Raises Fault.OfServer (tcpSocket r.clientId cid) := fun cid => by
    refine .bind .get fun s => ?_
    split
    · exact .throw trivial
    · exact .pure _
  refine .bind ((raises_clientIndex _).mono fun _ => .inl) fun cid => .bind ((htcp cid).mono fun _ => .inl) fun socket => ?_
  refine .bind .get fun s => .bind (raises_onSocket_send _ _) fun _ => .bind (raises_onSocket_send _ _) fun _ => ?_
  exact (raises_release r cid).mono fun _ => .inl

end OrderServer

namespace Serving
open OrderServer TCPServer
variable {i : Step}

/-! ## The steps -/

theorem raises_accept (a : Accepted) : Raises Fault.OfServer (accept a) :=
  .ite (.throw trivial) (.bind (.modify _) fun _ => .ite (.throw trivial) (.modify _))

/-- Only a turn of the inner loop can overrun a buffer. -/
theorem raises_step (hi : i ≠ .sendNext) : Raises Fault.OfServer (step i) := by
  cases i with
  | poll events accepted =>
    refine .bind (.ite (.bind .get fun s => .bind (.modify _) fun _ => ?_) (.throw trivial)) fun _ => .modify _
    exact .ite (.forM _ raises_accept) (.pure _)
  | sendAndRecv sort receives sends =>
    refine .bind (.bind .get fun s => .bind (.focus ?_) fun _ => .modify _) fun _ => .modify _
    refine .bind (raises_callAll _ _) fun recv => .bind (.ite ?_ (.pure _)) fun _ => .bind (raises_callAll _ _) fun _ => .pure _
    exact .bind .get fun o => raises_recvFinishedCallBack _
  | sendNext => exact absurd rfl hi
  | respond clientResponse =>
    have hrespond : Raises Fault.OfServer (OrderServer.respond clientResponse) := .modify _
    exact .focus hrespond
  | takeRequest => exact .focus (.focus (.focus raises_updateReadIndex))

theorem raises_sendNext : Raises (fun f => f.OfServer ∨ f = .overrun) sendNext := by
  refine .bind .get fun s => ?_
  split
  · exact .modify _
  · exact .bind (.focus (raises_sendResponse _)) fun _ => .modify _

end Serving
end TradingEcosystem
