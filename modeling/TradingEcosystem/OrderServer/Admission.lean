import TradingEcosystem.OrderServer.Receiving

/-! Which requests are admitted, over whole runs: those of a client come from one socket and
carry the numbers from 1 on. -/
namespace TradingEcosystem
open Program Runs Framing

namespace Admission
variable {a : Admission} {x : SocketId × OMClientRequest} {c cid : Fin ME_MAX_NUM_CLIENTS}

/-- The admitted requests of a client, in the order in which they were handed on. -/
def requestsOf (a : Admission) (c : Fin ME_MAX_NUM_CLIENTS) : List (SocketId × OMClientRequest) :=
  a.admitted.filter fun x => x.2.meClientRequest.clientId.toNat = c.val

/-- The numbers of a client's requests count up from 1, the next one is expected, and all of
them came on the socket of the client. -/
structure Gapless (a : Admission) : Prop where
  numbers : ∀ c, (a.requestsOf c).map (·.2.seqNum) = (List.range' 1 (a.requestsOf c).length).map UInt64.ofNat
  next : ∀ c, a.cidNextExpSeqNum c = UInt64.ofNat ((a.requestsOf c).length + 1)
  socket : ∀ c, ∀ x ∈ a.requestsOf c, a.cidTcpSocket c = some x.1

theorem gapless_fresh : Gapless {} where
  numbers _ := rfl
  next _ := rfl
  socket _ _ h := by cases h

theorem after_next_of_not (h : ¬ (a.Accepts x ∧ x.2.meClientRequest.clientId.toNat = c.val)) :
    (a.after x).cidNextExpSeqNum c = a.cidNextExpSeqNum c := by
  unfold after
  split_ifs with hr ha
  · have hne : c ≠ ⟨_, hr⟩ := fun e => h ⟨ha, (congrArg Fin.val e).symm⟩
    simp [OrderServer.accept, OrderServer.look, Function.update_of_ne hne]
  · simp [OrderServer.look]
  · rfl

/-- A request changes the tables of its own client only. -/
theorem after_other (h : x.2.meClientRequest.clientId.toNat ≠ c.val) :
    (a.after x).cidNextExpSeqNum c = a.cidNextExpSeqNum c ∧ (a.after x).cidTcpSocket c = a.cidTcpSocket c := by
  refine ⟨after_next_of_not fun hx => h hx.2, ?_⟩
  have hne : ∀ hr : x.2.meClientRequest.clientId.toNat < ME_MAX_NUM_CLIENTS, c ≠ ⟨_, hr⟩ := fun hr e =>
    h (congrArg Fin.val e).symm
  unfold after
  split_ifs with hr ha
  · simp [OrderServer.accept, OrderServer.look, bindSocket_cidTcpSocket, Function.update_of_ne (hne hr)]
  · simp [OrderServer.look, bindSocket_cidTcpSocket, Function.update_of_ne (hne hr)]
  · rfl

theorem requestsOf_after (a : Admission) (x : SocketId × OMClientRequest) (c : Fin ME_MAX_NUM_CLIENTS) :
    (a.after x).requestsOf c =
      a.requestsOf c ++ if a.Accepts x ∧ x.2.meClientRequest.clientId.toNat = c.val then [x] else [] := by
  rw [requestsOf, after_admitted]
  by_cases ha : a.Accepts x <;> by_cases hc : x.2.meClientRequest.clientId.toNat = c.val <;>
    simp [ha, hc, requestsOf, List.filter_append]

/-- What an accepted request does to the tables of its client. -/
theorem after_self (ha : a.Accepts x) (hc : x.2.meClientRequest.clientId.toNat = c.val) :
    (a.after x).cidNextExpSeqNum c = a.cidNextExpSeqNum c + 1 ∧ (a.after x).cidTcpSocket c = some x.1 ∧
      x.2.seqNum = a.cidNextExpSeqNum c := by
  obtain ⟨hr, hsocket, hseq⟩ := ha
  obtain rfl : c = ⟨_, hr⟩ := Fin.ext hc.symm
  have ha : a.Accepts x := ⟨hr, hsocket, hseq⟩
  unfold after
  rw [dif_pos hr, if_pos ha]
  refine ⟨?_, ?_, hseq⟩
  · simp [OrderServer.accept, OrderServer.look]
  · rw [bindSocket_cidTcpSocket] at hsocket
    simpa [OrderServer.accept, OrderServer.look, bindSocket_cidTcpSocket] using hsocket

theorem Gapless.after (h : Gapless a) (x : SocketId × OMClientRequest) : Gapless (a.after x) := by
  have hold : ∀ {c}, ¬ (a.Accepts x ∧ x.2.meClientRequest.clientId.toNat = c.val) →
      (a.after x).requestsOf c = a.requestsOf c := fun hn => by
    rw [requestsOf_after, if_neg hn, List.append_nil]
  have hnew : ∀ {c}, a.Accepts x ∧ x.2.meClientRequest.clientId.toNat = c.val →
      (a.after x).requestsOf c = a.requestsOf c ++ [x] := fun hc => by rw [requestsOf_after, if_pos hc]
  constructor
  · intro c
    by_cases hc : a.Accepts x ∧ x.2.meClientRequest.clientId.toNat = c.val
    · obtain ⟨-, -, hseq⟩ := after_self hc.1 hc.2
      rw [hnew hc, List.map_append, h.numbers, List.length_append, List.length_singleton, List.range'_concat,
        List.map_append, List.map_singleton, List.map_singleton, hseq, h.next]
      rw [Nat.one_mul, Nat.add_comm 1]
    · rw [hold hc, h.numbers]
  · intro c
    by_cases hc : a.Accepts x ∧ x.2.meClientRequest.clientId.toNat = c.val
    · rw [(after_self hc.1 hc.2).1, hnew hc, h.next, List.length_append, List.length_singleton]
      exact (UInt64.ofNat_add ..).symm
    · rw [hold hc, ← h.next, after_next_of_not hc]
  · intro c y hy
    by_cases hc : a.Accepts x ∧ x.2.meClientRequest.clientId.toNat = c.val
    · rw [hnew hc, List.mem_append, List.mem_singleton] at hy
      rcases hy with hy | rfl
      · exact after_bound (h.socket c y hy) x
      · exact (after_self hc.1 hc.2).2.1
    · rw [hold hc] at hy
      exact after_bound (h.socket c y hy) x

end Admission

namespace OrderServer
variable {s : OrderServer} {is : List Step} {clientRequests : LFQueue MEClientRequest}
  {clientResponses : LFQueue MEClientResponse}

/-- A property of the tables that every examined request keeps holds wherever a run can be
looked at. -/
theorem run_admission {P : Admission → Prop} (h₀ : P {}) (hafter : ∀ a x, P a → P (a.after x))
    (h : Observes step (fun _ _ => True) (fresh clientRequests clientResponses) is s) : P s.toAdmission := by
  have hexamine : ∀ socket rxTime request, Frame (Preserves fun s : OrderServer => P s.toAdmission)
      (examine socket rxTime request) := by
    intro socket rxTime request s hs
    have hlast := final_examine_toAdmission socket rxTime request s
    exact hlast ▸ hafter _ _ hs
  have hpublish : ∀ sorted, Frame (Preserves fun s : OrderServer => P s.toAdmission) (recvFinishedCallBack sorted) :=
    fun sorted => .focus fun s hs => hs
  have hstep := frame_step hexamine (fun _ _ _ hs => hs) hpublish (fun _ _ _ _ _ hs => hs)
  exact h.always (I := fun _ s => P s.toAdmission) h₀ fun _ s i hs _ => hstep i s hs

/-- For every client the admitted requests carry the numbers from 1 on without gap, the number
behind them is expected next, and they came on the one socket that the client is bound to;
an accepted request leaves the expected number and the socket of the other clients alone. -/
theorem run_gapless (h : Observes step (fun _ _ => True) (fresh clientRequests clientResponses) is s)
    (hfew : s.admitted.length < 2 ^ 64) :
    (∀ c, (s.requestsOf c).map (·.2.seqNum.toNat) = List.range' 1 (s.requestsOf c).length ∧
      s.cidNextExpSeqNum c = UInt64.ofNat ((s.requestsOf c).length + 1) ∧
      ∀ x ∈ s.requestsOf c, s.cidTcpSocket c = some x.1) ∧
    ∀ (socket : SocketId) (rxTime : Nanos) (request : OMClientRequest) (c : Fin ME_MAX_NUM_CLIENTS),
      s.Accepts (socket, request) → request.meClientRequest.clientId.toNat ≠ c.val →
      (final (examine socket rxTime request s)).cidNextExpSeqNum c = s.cidNextExpSeqNum c ∧
        (final (examine socket rxTime request s)).cidTcpSocket c = s.cidTcpSocket c := by
  have hgapless := run_admission Admission.gapless_fresh (fun a x => Admission.Gapless.after (x := x)) h
  refine ⟨fun c => ⟨?_, hgapless.next c, hgapless.socket c⟩, fun socket rxTime request c _ hc => ?_⟩
  · have hlen : (s.requestsOf c).length ≤ s.admitted.length := List.length_filter_le ..
    have hmap := congrArg (List.map UInt64.toNat) (hgapless.numbers c)
    rw [List.map_map, List.map_map] at hmap
    refine hmap.trans ((List.map_congr_left fun n hn => ?_).trans (List.map_id _))
    have hn' := List.mem_range'_1.mp hn
    exact UInt64.toNat_ofNat_of_lt' (by simp only [UInt64.size]; omega)
  · rw [final_examine_toAdmission]
    exact Admission.after_other hc

/-- The bytes of a request of a client with a number. -/
def requestBytes (clientId : ClientId) (seqNum : UInt64) : List UInt8 :=
  OMClientRequest.codec.encode
    { seqNum, meClientRequest := { type := .NEW, clientId, tickerId := 0, orderId := 0, side := .BUY, price := 100, qty := 5 } }

/-- A request on a second socket and one with a number that was used are passed over. -/
theorem run_gapless_twoSockets : ∃ is s, Observes step (fun _ _ => True) (fresh (.ofSize 4) (.ofSize 4)) is s ∧
    s.examined.length = 4 ∧ s.admitted.length < 2 ^ 64 ∧
    (s.requestsOf 0).map (·.2.seqNum.toNat) = List.range' 1 2 ∧ s.cidNextExpSeqNum 0 = UInt64.ofNat 3 := by
  obtain ⟨s, hrun, hexamined, hadmitted, hlen⟩ : ∃ s, Reaches step (fun _ _ => True) (fresh (.ofSize 4) (.ofSize 4))
      [.sendAndRecv 7 (requestBytes 0 1) 5 0, .sendAndRecv 8 (requestBytes 0 2) 6 0,
        .sendAndRecv 7 (requestBytes 0 1 ++ requestBytes 0 2) 7 0] s ∧
      s.examined.length = 4 ∧ s.admitted.length < 2 ^ 64 ∧ (s.requestsOf 0).length = 2 :=
    exists_of_guarded (by decide +kernel)
  have hclient := (run_gapless (.done hrun) hadmitted).1 0
  rw [hlen] at hclient
  exact ⟨_, s, .done hrun, hexamined, hadmitted, hclient.1, hclient.2.1⟩

end OrderServer
end TradingEcosystem
