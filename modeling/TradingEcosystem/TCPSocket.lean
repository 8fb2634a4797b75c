import TradingEcosystem.Types
import TradingEcosystem.Library.Program
import TradingEcosystem.Library.Framing

/-! `tcp_socket.h`: two buffers with the number of their valid bytes. What the kernel gives
and takes is a parameter of the calls. -/
namespace TradingEcosystem
open Program Framing

def TCPBufferSize : Nat := 64 * 1024 * 1024

/-- The last two fields are proof-only: the bytes passed to `send` and those the kernel took. -/
structure TCPSocket where
  outboundData : Nat → UInt8 := fun _ => 0
  nextSendValidIndex : Nat := 0
  inboundData : Nat → UInt8 := fun _ => 0
  nextRcvValidIndex : Nat := 0
  appended : List UInt8 := []
  taken : List UInt8 := []

abbrev SocketM := EStateM Fault TCPSocket

namespace TCPSocket
variable {s s' : TCPSocket} {data bytes : List UInt8}

/-- The bytes of `outbound_data_` that are still to be sent. -/
def outbound (s : TCPSocket) : List UInt8 := slice s.outboundData 0 s.nextSendValidIndex

/-- The bytes of `inbound_data_` that are still to be parsed. -/
def inbound (s : TCPSocket) : List UInt8 := slice s.inboundData 0 s.nextRcvValidIndex

@[simp] theorem length_outbound (s : TCPSocket) : s.outbound.length = s.nextSendValidIndex := length_slice ..
@[simp] theorem length_inbound (s : TCPSocket) : s.inbound.length = s.nextRcvValidIndex := length_slice ..

/-- `send(data, len)`: the `memcpy` behind the valid bytes, whose end is not checked. -/
def send (data : List UInt8) : SocketM Unit := do
  modify fun s => { s with appended := s.appended ++ data }
  let s ← get
  if s.nextSendValidIndex + data.length ≤ TCPBufferSize then
    modify fun s => { s with
      outboundData := overwrite s.outboundData s.nextSendValidIndex data
      nextSendValidIndex := s.nextSendValidIndex + data.length }
  else throw .overrun

/-- The socket after a `recvmsg` that delivers `bytes`. -/
def delivered (bytes : List UInt8) (s : TCPSocket) : TCPSocket :=
  { s with
    inboundData := overwrite s.inboundData s.nextRcvValidIndex bytes
    nextRcvValidIndex := s.nextRcvValidIndex + bytes.length }

def recvmsg (bytes : List UInt8) : SocketM Unit := modify (delivered bytes)

/-- The socket after a `::send` of which the kernel takes up to `took` bytes, none of them where
it returns -1, and the reset of the index whatever it returned. -/
def flushed (took : Nat) (s : TCPSocket) : TCPSocket :=
  { s with
    taken := if s.nextSendValidIndex > 0 then s.taken ++ s.outbound.take took else s.taken
    nextSendValidIndex := 0 }

/-- The end of `sendAndRecv`. -/
def flush (took : Nat) : SocketM Unit := modify (flushed took)

section SendAndRecv
variable {σ : Type} (on : SocketM Unit → EStateM Fault σ Unit) (recvCallback : EStateM Fault σ Unit)

/-- The first half of `sendAndRecv`; no bytes stand for a `recvmsg` that returns 0 or -1. -/
def receive (bytes : List UInt8) : EStateM Fault σ Unit :=
  if bytes = [] then pure () else do
    on (recvmsg bytes)
    recvCallback

/-- `sendAndRecv` in a program whose state holds the socket, where `on` runs a method of the
socket. It tells whether bytes were read. -/
def sendAndRecv (bytes : List UInt8) (took : Nat) : EStateM Fault σ Bool := do
  receive on recvCallback bytes
  on (flush took)
  return bytes ≠ []

end SendAndRecv

theorem inbound_delivered (bytes : List UInt8) (s : TCPSocket) : (delivered bytes s).inbound = s.inbound ++ bytes :=
  slice_overwrite_append ..

@[simp] theorem inbound_flushed (took : Nat) (s : TCPSocket) : (flushed took s).inbound = s.inbound := rfl

theorem delivered_nil (s : TCPSocket) : delivered [] s = s := by
  have hdata : overwrite s.inboundData s.nextRcvValidIndex [] = s.inboundData := by
    funext k
    simp [overwrite]
  rw [delivered, hdata]
  rfl

/-! ## The sending side -/

theorem send_of_room (h : s.nextSendValidIndex + data.length ≤ TCPBufferSize) :
    send data s = .ok () { s with
      outboundData := overwrite s.outboundData s.nextSendValidIndex data
      nextSendValidIndex := s.nextSendValidIndex + data.length
      appended := s.appended ++ data } := by
  rw [send, bind_of_ok (modify_apply _), bind_of_ok (get_apply), if_pos h]
  rfl

theorem send_of_full (h : ¬ s.nextSendValidIndex + data.length ≤ TCPBufferSize) :
    send data s = .error .overrun { s with appended := s.appended ++ data } := by
  rw [send, bind_of_ok (modify_apply _), bind_of_ok (get_apply), if_neg h]
  rfl

@[simp] theorem nextRcvValidIndex_send (data : List UInt8) (s : TCPSocket) :
    (final (send data s)).nextRcvValidIndex = s.nextRcvValidIndex := by
  by_cases hroom : s.nextSendValidIndex + data.length ≤ TCPBufferSize
  · rw [send_of_room hroom]
    rfl
  · rw [send_of_full hroom]
    rfl

/-- No byte passed to `send` is lost: the kernel took the first of them and the rest is held. -/
def Lossless (s : TCPSocket) : Prop := s.taken ++ s.outbound = s.appended

instance (s : TCPSocket) : Decidable (Lossless s) := inferInstanceAs (Decidable (_ = _))

/-- Bytes are lost or not, and the held ones are within the buffer. -/
structure Accounted (s : TCPSocket) : Prop where
  fits : s.nextSendValidIndex ≤ TCPBufferSize
  short : ¬ Lossless s → s.taken.length + s.nextSendValidIndex < s.appended.length

/-- What the sending side of a socket consists of. -/
def sendSide (s : TCPSocket) : (Nat → UInt8) × Nat × List UInt8 × List UInt8 :=
  (s.outboundData, s.nextSendValidIndex, s.appended, s.taken)

theorem lossless_congr (h : s'.sendSide = s.sendSide) : Lossless s' ↔ Lossless s := by
  simp only [sendSide, Prod.mk.injEq] at h
  rw [Lossless, Lossless, outbound, outbound, h.1, h.2.1, h.2.2.1, h.2.2.2]

theorem Accounted.congr (hs : Accounted s) (h : s'.sendSide = s.sendSide) : Accounted s' := by
  have hl := lossless_congr h
  simp only [sendSide, Prod.mk.injEq] at h
  refine ⟨by rw [h.2.1]; exact hs.fits, fun hn => ?_⟩
  rw [h.2.1, h.2.2.1, h.2.2.2]
  exact hs.short (hl.not.mp hn)

theorem Lossless.length (h : Lossless s) : s.taken.length + s.nextSendValidIndex = s.appended.length := by
  rw [← h, List.length_append, length_outbound]

/-- A `send` into a buffer with room loses nothing; one that overruns it loses its bytes. -/
theorem Accounted.send (h : Accounted s) (data : List UInt8) : Accounted (final (send data s)) ∧
    (Lossless (final (TCPSocket.send data s)) ↔ Lossless s ∧ s.nextSendValidIndex + data.length ≤ TCPBufferSize) := by
  by_cases hroom : s.nextSendValidIndex + data.length ≤ TCPBufferSize
  · rw [send_of_room hroom, final_ok]
    have hout : slice (overwrite s.outboundData s.nextSendValidIndex data) 0 (s.nextSendValidIndex + data.length) =
        s.outbound ++ data := slice_overwrite_append ..
    have hiff : Lossless { s with
        outboundData := overwrite s.outboundData s.nextSendValidIndex data
        nextSendValidIndex := s.nextSendValidIndex + data.length
        appended := s.appended ++ data } ↔ Lossless s := by
      rw [Lossless, outbound, hout, ← List.append_assoc]
      exact List.append_left_inj data
    refine ⟨⟨hroom, fun hn => ?_⟩, hiff.trans ⟨fun hl => ⟨hl, hroom⟩, And.left⟩⟩
    have hshort := h.short (hiff.not.mp hn)
    simp only [List.length_append]
    omega
  · rw [send_of_full hroom, final_error]
    have hfits := h.fits
    have hlt : s.taken.length + s.nextSendValidIndex < (s.appended ++ data).length := by
      rw [List.length_append]
      by_cases hl : Lossless s
      · have := hl.length
        omega
      · have := h.short hl
        omega
    refine ⟨⟨h.fits, fun _ => hlt⟩, ⟨fun hl => ?_, fun hl => absurd hl.2 hroom⟩⟩
    have hlen : s.taken.length + s.nextSendValidIndex = (s.appended ++ data).length := hl.length
    omega

/-- A `::send` that takes all held bytes loses nothing; any other loses the rest. -/
theorem Accounted.flushed (h : Accounted s) (took : Nat) : Accounted (flushed took s) ∧
    (Lossless (TCPSocket.flushed took s) ↔ Lossless s ∧ s.nextSendValidIndex ≤ took) := by
  have htaken : (TCPSocket.flushed took s).taken = s.taken ++ s.outbound.take took := by
    rw [TCPSocket.flushed]
    split_ifs with hz
    · rfl
    · have hnil : s.outbound = [] := List.eq_nil_of_length_eq_zero (by rw [length_outbound]; omega)
      rw [hnil, List.take_nil, List.append_nil]
  have hlen : (TCPSocket.flushed took s).taken.length = s.taken.length + min took s.nextSendValidIndex := by
    rw [htaken, List.length_append, List.length_take, length_outbound]
  have hbound : s.taken.length + s.nextSendValidIndex ≤ s.appended.length := by
    by_cases hl : Lossless s
    · exact hl.length.le
    · exact (h.short hl).le
  have hiff : Lossless (TCPSocket.flushed took s) ↔ Lossless s ∧ s.nextSendValidIndex ≤ took := by
    constructor
    · intro hl
      have hl' : (TCPSocket.flushed took s).taken.length + 0 = s.appended.length := hl.length
      refine ⟨by_contra fun hn => ?_, ?_⟩
      · have := h.short hn
        omega
      · omega
    · rintro ⟨hl, hle⟩
      have hall : s.outbound.take took = s.outbound := List.take_of_length_le (by rw [length_outbound]; exact hle)
      have hout : (TCPSocket.flushed took s).outbound = [] := rfl
      rw [Lossless, htaken, hall, hout, List.append_nil]
      exact hl
  refine ⟨⟨Nat.zero_le _, fun hn => ?_⟩, hiff⟩
  have hlt : s.taken.length + min took s.nextSendValidIndex < s.appended.length := by
    by_cases hl : Lossless s
    · have hle : ¬ s.nextSendValidIndex ≤ took := fun hle => hn (hiff.mpr ⟨hl, hle⟩)
      have := hl.length
      omega
    · have := h.short hl
      omega
  rw [hlen]
  exact hlt

end TCPSocket
end TradingEcosystem
