import TradingEcosystem.Types
import TradingEcosystem.Library.Program
import TradingEcosystem.Library.Framing
import TradingEcosystem.Library.Runs

/-! `mcast_socket.h`: messages are collected in a buffer, and what was collected between two turns goes out as one
datagram. The kernel's part and the callback of the user are parameters. -/
namespace TradingEcosystem
open Program Runs Framing

def McastBufferSize : Nat := 64 * 1024 * 1024

/-- The last two fields are proof-only: the messages that `send` has collected and the datagrams given to `::send`, which
may refuse them. -/
structure McastSocket where
  outboundData : Nat → UInt8 := fun _ => 0
  nextSendValidIndex : Nat := 0
  inboundData : Nat → UInt8 := fun _ => 0
  nextRcvValidIndex : Nat := 0
  messages : List (List UInt8) := []
  datagrams : List (List UInt8) := []

abbrev McastM := EStateM Fault McastSocket

namespace McastSocket
variable {s s' : McastSocket} {data bytes : List UInt8} {u : Unit} {b : Bool}

/-- The bytes of `outbound_data_` that are still to be sent. -/
def outbound (s : McastSocket) : List UInt8 := slice s.outboundData 0 s.nextSendValidIndex

def bufferFilledUp : Fault := .assertFailed "Mcast socket buffer filled up and sendAndRecv() not called."

/-- The socket behind the `memcpy` of `send`. -/
def collected (data : List UInt8) (s : McastSocket) : McastSocket :=
  { s with
    outboundData := overwrite s.outboundData s.nextSendValidIndex data
    nextSendValidIndex := s.nextSendValidIndex + data.length
    messages := s.messages ++ [data] }

/-- `send(data, len)`. The assertion stands behind the `memcpy`, which writes beyond the buffer before it. -/
def send (data : List UInt8) : McastM Unit := do
  let s ← get
  if s.nextSendValidIndex + data.length ≤ McastBufferSize then do
    modify (collected data)
    if s.nextSendValidIndex + data.length < McastBufferSize then return () else throw bufferFilledUp
  else throw .overrun

/-- `recv` delivers `bytes`. -/
def recv (bytes : List UInt8) : McastM Unit :=
  modify fun s => { s with
    inboundData := overwrite s.inboundData s.nextRcvValidIndex bytes
    nextRcvValidIndex := s.nextRcvValidIndex + bytes.length }

/-- The socket after the second half of `sendAndRecv`. -/
def flushed (s : McastSocket) : McastSocket :=
  { s with
    nextSendValidIndex := 0
    datagrams := if s.nextSendValidIndex > 0 then s.datagrams ++ [s.outbound] else s.datagrams }

/-- The first half of `sendAndRecv`; no bytes stand for a `recv` that returns 0 or -1. -/
def receive (recvCallback : McastM Unit) (bytes : List UInt8) : McastM Unit :=
  if bytes = [] then pure () else do
    recv bytes
    recvCallback

def sendAndRecv (recvCallback : McastM Unit) (bytes : List UInt8) : McastM Bool := do
  receive recvCallback bytes
  modify flushed
  return bytes ≠ []

/-! ## The buffer -/

theorem send_of_room (h : s.nextSendValidIndex + data.length < McastBufferSize) : send data s = .ok () (collected data s) := by
  rw [send, bind_of_ok get_apply, if_pos h.le, bind_of_ok (modify_apply _), if_pos h]
  rfl

/-- The assertion fails exactly for the message that fills the buffer up. -/
theorem send_of_full (h : s.nextSendValidIndex + data.length = McastBufferSize) :
    send data s = .error bufferFilledUp (collected data s) := by
  rw [send, bind_of_ok get_apply, if_pos h.le, bind_of_ok (modify_apply _), if_neg (by omega)]
  rfl

theorem send_of_overrun (h : McastBufferSize < s.nextSendValidIndex + data.length) : send data s = .error .overrun s := by
  rw [send, bind_of_ok get_apply, if_neg (by omega)]
  rfl

theorem send_ok (h : send data s = .ok u s') : s.nextSendValidIndex + data.length < McastBufferSize ∧ s' = collected data s := by
  rcases Nat.lt_trichotomy (s.nextSendValidIndex + data.length) McastBufferSize with hlt | heq | hgt
  · rw [send_of_room hlt] at h
    cases h
    exact ⟨hlt, rfl⟩
  · rw [send_of_full heq] at h
    cases h
  · rw [send_of_overrun hgt] at h
    cases h

theorem outbound_collected (data : List UInt8) (s : McastSocket) : (collected data s).outbound = s.outbound ++ data :=
  slice_overwrite_append ..

/-! ## Messages and datagrams -/

/-- Messages are collected and nothing goes out, which is all that a callback does that calls no other method than `send`.
It may also take what was received. -/
structure Collects (s s' : McastSocket) : Prop where
  datagrams : s'.datagrams = s.datagrams
  messages : ∃ ms, s'.messages = s.messages ++ ms ∧ s'.outbound = s.outbound ++ ms.flatten
  room : s.nextSendValidIndex < McastBufferSize → s'.nextSendValidIndex < McastBufferSize
  received : s'.nextRcvValidIndex ≤ s.nextRcvValidIndex

instance : IsPreorder McastSocket Collects where
  refl s := ⟨rfl, ⟨[], by simp, by simp⟩, id, le_rfl⟩
  trans s t s' h h' := by
    obtain ⟨ms, hms, hout⟩ := h.messages
    obtain ⟨ms', hms', hout'⟩ := h'.messages
    refine ⟨h'.datagrams.trans h.datagrams, ⟨ms ++ ms', ?_, ?_⟩, h'.room ∘ h.room, h'.received.trans h.received⟩
    · rw [hms', hms, List.append_assoc]
    · rw [hout', hout, List.flatten_append, List.append_assoc]

theorem collects_send (data : List UInt8) : Returns Collects (send data) := by
  intro s _ s' h
  obtain ⟨hroom, rfl⟩ := send_ok h
  refine ⟨rfl, ⟨[data], rfl, ?_⟩, fun _ => hroom, le_rfl⟩
  rw [outbound_collected, List.flatten_singleton]

/-- The datagrams are the messages in groups, each group whole and in order, and what is left over waits. -/
structure Grouped (s : McastSocket) (groups : List (List (List UInt8))) (waiting : List (List UInt8)) : Prop where
  messages : s.messages = groups.flatten ++ waiting
  datagrams : s.datagrams = groups.map List.flatten
  outbound : s.outbound = waiting.flatten
  full : ∀ d ∈ s.datagrams, d ≠ []
  room : s.nextSendValidIndex < McastBufferSize
  received : s.nextRcvValidIndex ≤ McastBufferSize

variable {groups : List (List (List UInt8))} {waiting : List (List UInt8)}

theorem start_in_buffer : 0 < McastBufferSize := by decide

theorem Grouped.collects (h : Grouped s groups waiting) (hc : Collects s s') : ∃ waiting', Grouped s' groups waiting' := by
  obtain ⟨ms, hms, hout⟩ := hc.messages
  refine ⟨waiting ++ ms, ?_, hc.datagrams.trans h.datagrams, ?_, ?_, hc.room h.room, hc.received.trans h.received⟩
  · rw [hms, h.messages, List.append_assoc]
  · rw [hout, h.outbound, List.flatten_append]
  · rw [hc.datagrams]
    exact h.full

theorem Grouped.flushed (h : Grouped s groups waiting) : ∃ groups' waiting', Grouped (flushed s) groups' waiting' := by
  unfold McastSocket.flushed
  by_cases hpos : s.nextSendValidIndex > 0
  · rw [if_pos hpos]
    have hne : s.outbound ≠ [] := fun e => by
      have hlen := congrArg List.length e
      rw [McastSocket.outbound, length_slice, List.length_nil] at hlen
      omega
    refine ⟨groups ++ [waiting], [], ?_, ?_, rfl, ?_, start_in_buffer, h.received⟩
    · simpa using h.messages
    · rw [List.map_append, ← h.datagrams, h.outbound]
      rfl
    · intro d hd
      rcases List.mem_append.mp hd with hd | hd
      · exact h.full d hd
      · rw [List.mem_singleton.mp hd]
        exact hne
  · rw [if_neg hpos]
    have hzero : s.nextSendValidIndex = 0 := by omega
    refine ⟨groups, waiting, h.messages, h.datagrams, ?_, h.full, start_in_buffer, h.received⟩
    have hout := h.outbound
    rw [McastSocket.outbound, hzero] at hout
    exact hout

/-! ## Runs -/

inductive Step where
  | send (data : List UInt8)
  | sendAndRecv (bytes : List UInt8)

def step (recvCallback : McastM Unit) : Step → McastM Unit
  | .send data => send data
  | .sendAndRecv bytes => do
    let _ ← sendAndRecv recvCallback bytes
    return ()

/-- `recv` delivers no more than it is given room for. -/
def Delivers (s : McastSocket) : Step → Prop
  | .sendAndRecv bytes => bytes.length ≤ McastBufferSize - s.nextRcvValidIndex
  | .send _ => True

instance (s : McastSocket) (i : Step) : Decidable (Delivers s i) := by
  cases i <;> unfold Delivers <;> infer_instance

variable {recvCallback : McastM Unit} {is : List Step}

theorem Grouped.step {i : Step} (hcallback : Returns Collects recvCallback) (h : Grouped s groups waiting) (hd : Delivers s i)
    (hr : step recvCallback i s = .ok u s') : ∃ groups' waiting', Grouped s' groups' waiting' := by
  cases i with
  | send data => exact ⟨groups, h.collects (collects_send data s u s' hr)⟩
  | sendAndRecv bytes =>
    obtain ⟨b, s₂, hr, hret⟩ := bind_eq_ok.mp hr
    cases hret
    obtain ⟨_, s₁, hrecv, hflush⟩ := bind_eq_ok.mp hr
    obtain ⟨waiting₁, h₁⟩ : ∃ waiting₁, Grouped s₁ groups waiting₁ := by
      by_cases hb : bytes = []
      · rw [receive, if_pos hb] at hrecv
        cases hrecv
        exact ⟨waiting, h⟩
      · rw [receive, if_neg hb] at hrecv
        obtain ⟨_, t, ht, hcall⟩ := bind_eq_ok.mp hrecv
        cases ht
        have hin : s.nextRcvValidIndex + bytes.length ≤ McastBufferSize := by
          have hle := h.received
          have hle' : bytes.length ≤ McastBufferSize - s.nextRcvValidIndex := hd
          omega
        have hdelivered : Grouped { s with
            inboundData := overwrite s.inboundData s.nextRcvValidIndex bytes
            nextRcvValidIndex := s.nextRcvValidIndex + bytes.length } groups waiting :=
          ⟨h.messages, h.datagrams, h.outbound, h.full, h.room, hin⟩
        exact hdelivered.collects (hcallback _ _ _ hcall)
    cases hflush
    exact h₁.flushed

/-- In every run, whatever arrives and whatever the callback sends in return: each datagram consists of whole messages, and
no message is in two of them, left out or out of turn. Neither index leaves its buffer, and a `send` returns exactly
if it leaves a byte of it free. One byte too many is noticed; with more the `memcpy` is beyond the end before. -/
theorem run_datagrams (hcallback : Returns Collects recvCallback) (h : Reaches (step recvCallback) Delivers {} is s) :
    (∃ groups waiting, Grouped s groups waiting) ∧ ∀ data,
      ((∃ s', send data s = .ok () s') ↔ s.nextSendValidIndex + data.length < McastBufferSize) ∧
      ((∃ s', send data s = .error .overrun s') ↔ McastBufferSize < s.nextSendValidIndex + data.length) := by
  constructor
  · induction h with
    | start => exact ⟨[], [], rfl, rfl, rfl, nofun, start_in_buffer, Nat.zero_le _⟩
    | call run ok returns ih =>
      obtain ⟨groups, waiting, hgrouped⟩ := ih
      exact hgrouped.step hcallback ok returns
  · intro data
    rcases Nat.lt_trichotomy (s.nextSendValidIndex + data.length) McastBufferSize with hlt | heq | hgt
    · rw [send_of_room hlt]
      exact ⟨iff_of_true ⟨_, rfl⟩ hlt, iff_of_false nofun (by omega)⟩
    · rw [send_of_full heq]
      exact ⟨iff_of_false nofun (by omega), iff_of_false (by simp [bufferFilledUp]) (by omega)⟩
    · rw [send_of_overrun hgt]
      exact ⟨iff_of_false nofun (by omega), iff_of_true ⟨_, rfl⟩ hgt⟩

/-- A callback that answers and takes what was received. -/
def answer : McastM Unit := do
  send [9]
  modify fun s => { s with nextRcvValidIndex := 0 }

theorem collects_answer : Returns Collects answer := by
  refine .bind (collects_send [9]) fun _ => ?_
  intro s _ s' h
  cases h
  exact ⟨rfl, ⟨[], by simp, by simp [outbound]⟩, id, Nat.zero_le _⟩

theorem run_datagrams_answer : ∃ s groups waiting, Reaches (step answer) Delivers {}
    [.send [1, 2], .send [3], .sendAndRecv [], .sendAndRecv [7], .send [4], .sendAndRecv [], .send [5]] s ∧
    s.datagrams = [[1, 2, 3], [9], [4]] ∧ Grouped s groups waiting := by
  obtain ⟨s, hrun, hdatagrams⟩ : ∃ s, Reaches (step answer) Delivers {}
      [.send [1, 2], .send [3], .sendAndRecv [], .sendAndRecv [7], .send [4], .sendAndRecv [], .send [5]] s ∧
      s.datagrams = [[1, 2, 3], [9], [4]] := exists_of_guarded (by decide +kernel)
  obtain ⟨⟨groups, waiting, hgrouped⟩, -⟩ := run_datagrams collects_answer hrun
  exact ⟨s, groups, waiting, hrun, hdatagrams, hgrouped⟩

end McastSocket
end TradingEcosystem
