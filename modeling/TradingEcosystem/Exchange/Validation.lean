import TradingEcosystem.Exchange
import TradingEcosystem.OrderBook.Faults
import TradingEcosystem.OrderServer.Round

/-! Which requests take the exchange down: those with a value in a field that no one checks
before it is used as an index or to select a case. -/
namespace TradingEcosystem
open Program Runs MEOrderBook

/-- An index outside its table, an exception of a checked access that no one catches, or a
`FATAL`, but for the one about too many requests. -/
def Fault.OfFields : Fault → Prop
  | .outOfRange => True
  | .fatal msg => Fault.fatal msg ≠ FIFOSequencer.tooManyPendingRequests
  | _ => False

instance : DecidablePred Fault.OfFields := fun f => by
  cases f <;> unfold Fault.OfFields <;> infer_instance

theorem Fault.OfHeap.not_ofFields {f : Fault} (h : f.OfHeap) : ¬ f.OfFields := by
  cases f <;> first | exact id | exact h.elim

/-- The ticker has a book, the ids have an entry in its index, and the type is known. -/
structure Valid (r : MEClientRequest) : Prop where
  ticker : r.tickerId.toNat < ME_MAX_TICKERS
  ids : InTable r.clientId r.orderId
  type : r.type = .NEW ∨ r.type = .CANCEL

instance (r : MEClientRequest) : Decidable (Valid r) :=
  decidable_of_iff (r.tickerId.toNat < ME_MAX_TICKERS ∧
      (r.clientId.toNat < ME_MAX_NUM_CLIENTS ∧ r.orderId.toNat < ME_MAX_ORDER_IDS) ∧ (r.type = .NEW ∨ r.type = .CANCEL))
    ⟨fun h => ⟨h.1, h.2.1, h.2.2⟩, fun h => ⟨h.ticker, h.ids, h.type⟩⟩

namespace MatchingEngine
variable {e e' : MatchingEngine} {r : MEClientRequest} {f : Fault} {i : Fin ME_MAX_TICKERS}

theorem final_onBook (i : Fin ME_MAX_TICKERS) (y : BookM Unit) (e : MatchingEngine) :
    final (onBook i y e) = e.put i (final (y (e.tickerOrderBook i))) := by
  rcases onBook_apply i y e with ⟨b, h, hon⟩ | ⟨f, b, h, hon⟩ <;> rw [h, hon] <;> rfl

theorem bookCall_of_valid (h : Valid r) : ∃ q, bookCall r = some q ∧ q.Names InTable := by
  have hsome : ∃ q, bookCall r = some q := by
    unfold bookCall
    rcases h.type with ht | ht
    · exact ⟨_, if_pos ht⟩
    · refine ⟨_, (if_neg ?_).trans (if_pos ht)⟩
      rw [ht]
      decide
  obtain ⟨q, hq⟩ := hsome
  exact ⟨q, hq, Exchange.names_bookCall h.ids hq⟩

/-- A valid request stops the engine where a pointer or a pool is at fault. -/
theorem processClientRequest_valid (he : Exchange.SoundEngine InTable e) (h : Valid r)
    (hp : processClientRequest r e = .error f e') : f.OfHeap := by
  obtain ⟨q, hq, hnames⟩ := bookCall_of_valid h
  rw [processClientRequest_eq h.ticker hq] at hp
  rcases onBook_apply ⟨r.tickerId.toNat, h.ticker⟩ (call q) e with ⟨b, hcall, hon⟩ | ⟨f', b, hcall, hon⟩
  · rw [hon] at hp
    cases hp
  · rw [hon] at hp
    cases hp
    exact (he.books _).call_error (fun _ _ => id) hnames hcall

/-- A NEW of a known ticker is accepted whatever its order id is. -/
theorem processClientRequest_accepts (ht : r.tickerId.toNat < ME_MAX_TICKERS) (hnew : r.type = .NEW) :
    ∃ m ∈ (final (processClientRequest r e)).clientResponses, m.type = .ACCEPTED ∧ m.clientId = r.clientId ∧
      m.clientOrderId = r.orderId := by
  obtain ⟨i, hi⟩ : ∃ i : Fin ME_MAX_TICKERS, i = ⟨r.tickerId.toNat, ht⟩ := ⟨_, rfl⟩
  obtain ⟨q, hq⟩ : ∃ q : Request, q = .add r.clientId r.orderId r.tickerId r.side r.price r.qty := ⟨_, rfl⟩
  have hbook : bookCall r = some q := by
    rw [hq]
    exact if_pos hnew
  have hfinal : final (processClientRequest r e) = e.put i (final (call q (e.tickerOrderBook i))) := by
    rw [processClientRequest_eq ht hbook, final_onBook, hi]
  obtain ⟨l, hl, hput⟩ := put_clientResponses (grows_call q (e.tickerOrderBook i))
  obtain ⟨m, rest, hm, hacc⟩ := accepted_add r.clientId r.orderId r.tickerId r.side r.price r.qty (e.tickerOrderBook i)
  have hnext : l = m :: rest := by
    rw [hq] at hl
    exact List.append_cancel_left (hl.symm.trans hm)
  refine ⟨m.msg, ?_, hacc⟩
  rw [hfinal, hput, hnext]
  exact List.mem_append_right _ List.mem_cons_self

/-- Any other request that is not valid stops the engine by the value of a field. -/
theorem processClientRequest_invalid (hc : r.clientId.toNat < ME_MAX_NUM_CLIENTS) (h : ¬ Valid r) :
    (∃ f e', processClientRequest r e = .error f e' ∧ f.OfFields) ∨
      ∃ m ∈ (final (processClientRequest r e)).clientResponses, m.type = .ACCEPTED ∧
        ¬ InTable m.clientId m.clientOrderId := by
  by_cases ht : r.tickerId.toNat < ME_MAX_TICKERS
  · have hb : orderBook r.tickerId e = .ok ⟨r.tickerId.toNat, ht⟩ e := by
      rw [orderBook, dif_pos ht]
      rfl
    by_cases hnew : r.type = .NEW
    · right
      obtain ⟨m, hm, hacc, hclient, horder⟩ := processClientRequest_accepts (e := e) ht hnew
      refine ⟨m, hm, hacc, ?_⟩
      rw [hclient, horder]
      exact fun hids => h ⟨ht, hids, .inl hnew⟩
    · by_cases hcancel : r.type = .CANCEL
      · left
        have horder : ¬ r.orderId.toNat < ME_MAX_ORDER_IDS := fun hk => h ⟨ht, ⟨hc, hk⟩, .inr hcancel⟩
        obtain ⟨b, hbook⟩ : ∃ b, b = e.tickerOrderBook ⟨r.tickerId.toNat, ht⟩ := ⟨_, rfl⟩
        have hexchange : exchangeOrder r.clientId r.orderId b = .error .outOfRange b := by
          unfold exchangeOrder
          rw [if_pos hc, if_neg horder]
          rfl
        have hcall : cancel r.clientId r.orderId r.tickerId b = .error .outOfRange b := bind_of_error hexchange
        refine ⟨.outOfRange, e.put ⟨r.tickerId.toNat, ht⟩ b, ?_, trivial⟩
        rw [processClientRequest, bind_of_ok hb, if_neg hnew, if_pos hcancel, onBook, ← hbook, hcall]
      · left
        refine ⟨.fatal ("Received invalid client-request-type: " ++ clientRequestTypeToString r.type), e, ?_, ?_⟩
        · rw [processClientRequest, bind_of_ok hb, if_neg hnew, if_neg hcancel]
          rfl
        · intro hmsg
          injection hmsg with hmsg
          have hfirst := congrArg (fun msg : String => msg.toList.head?) hmsg
          simp at hfirst
  · have hb : orderBook r.tickerId e = .error .outOfRange e := by
      rw [orderBook, dif_neg ht]
      rfl
    exact .inl ⟨.outOfRange, e, bind_of_error hb, trivial⟩

/-- A CANCEL of an order that the book does not have changes nothing but for the answer. -/
theorem processClientRequest_unknown (ht : r.tickerId.toNat < ME_MAX_TICKERS) (hcancel : r.type = .CANCEL)
    (horder : r.orderId.toNat < ME_MAX_ORDER_IDS) (hi : i.val = r.tickerId.toNat)
    (hunknown : (e.tickerOrderBook i).cidOidToOrder r.clientId r.orderId = none) :
    ∃ e', processClientRequest r e = .ok () e' ∧ (∃ m, m.type = .CANCEL_REJECTED ∧ m.clientId = r.clientId ∧
        m.clientOrderId = r.orderId ∧ e'.clientResponses = e.clientResponses ++ [m]) ∧
      ∀ j, (e'.tickerOrderBook j).holdings = (e.tickerOrderBook j).holdings := by
  obtain rfl : i = ⟨r.tickerId.toNat, ht⟩ := Fin.ext hi
  obtain ⟨i, hi⟩ : ∃ i : Fin ME_MAX_TICKERS, i = ⟨r.tickerId.toNat, ht⟩ := ⟨_, rfl⟩
  rw [← hi] at hunknown
  obtain ⟨b, hb⟩ : ∃ b, b = (e.tickerOrderBook i).rejected r.clientId r.orderId r.tickerId := ⟨_, rfl⟩
  have hbook : bookCall r = some (.cancel r.clientId r.orderId r.tickerId) := by
    refine (if_neg ?_).trans (if_pos hcancel)
    rw [hcancel]
    decide
  have hcall : call (.cancel r.clientId r.orderId r.tickerId) (e.tickerOrderBook i) = .ok () b := by
    rw [hb]
    exact cancel_of_unknown fun _ => ⟨horder, hunknown⟩
  have hrequest : processClientRequest r e = .ok () (e.put i b) := by
    rw [processClientRequest_eq ht hbook, ← hi, onBook, hcall]
  have hgrows : (e.tickerOrderBook i).Grows b := by
    rw [hb]
    exact grows_responses _ _
  obtain ⟨l, hl, hput⟩ := put_clientResponses hgrows
  obtain ⟨m, hm, htype, hclient, hid⟩ : ∃ m, b.clientResponses = (e.tickerOrderBook i).clientResponses ++ [m] ∧
      m.msg.type = .CANCEL_REJECTED ∧ m.msg.clientId = r.clientId ∧ m.msg.clientOrderId = r.orderId := by
    rw [hb]
    exact ⟨_, rfl, rfl, rfl, rfl⟩
  have hanswer : l = [m] := List.append_cancel_left (hl.symm.trans hm)
  refine ⟨e.put i b, hrequest, ⟨m.msg, htype, hclient, hid, ?_⟩, fun j => ?_⟩
  · rw [hput, hanswer]
    rfl
  · rw [put_tickerOrderBook]
    by_cases hj : j = i
    · rw [hj, Function.update_self, hb]
      rfl
    · rw [Function.update_of_ne hj]

end MatchingEngine

namespace OrderServer
variable {s s' : OrderServer} {socket : SocketId} {bytes : List UInt8} {rxTime : Nanos} {took : Nat} {f : Fault}
  {l : List OMClientRequest}

/-- Receiving stops the server at a request from a client out of range, or at one too many. -/
theorem step_sendAndRecv_cases (hs : s.Short) (socket : SocketId) (bytes : List UInt8) (rxTime : Nanos) (took : Nat) :
    ((∃ s', step (.sendAndRecv socket bytes rxTime took) s = .ok () s' ∧ s'.Short) ∧
        ∀ x ∈ s.incoming { socket, bytes }, InRange x.2) ∨
      (∃ t, step (.sendAndRecv socket bytes rxTime took) s = .error FIFOSequencer.tooManyPendingRequests t) ∨
      (∃ t, step (.sendAndRecv socket bytes rxTime took) s = .error .outOfRange t) ∧
        ¬ ∀ x ∈ s.incoming { socket, bytes }, InRange x.2 := by
  obtain ⟨c, hc⟩ : ∃ c : TCPServer.Call, c = { socket, bytes, rxTime, took } := ⟨_, rfl⟩
  have hstep : step (.sendAndRecv socket bytes rxTime took) s = (call c >>= fun _ => pure ()) s := by
    rw [hc]
    rfl
  have hincoming : (∀ x ∈ s.incoming { socket, bytes }, InRange x.2) ↔
      ∀ request ∈ requests ((s.sockets socket).inbound ++ bytes), InRange request := List.forall_mem_map
  have hexamine := examineAll_cases socket rxTime (requests ((s.sockets socket).inbound ++ bytes)) (deliver socket bytes s)
  have hcases := call_cases hs c
  rw [hincoming, hstep]
  simp only [hc] at hcases hstep ⊢
  rcases hcases with ⟨t, s', ht, hcall, hcalled⟩ | ⟨f, t, ht, hcall⟩
  · rcases hexamine with ⟨-, hall⟩ | ⟨t', ht'⟩ | ⟨⟨t', ht'⟩, -⟩
    · exact .inl ⟨⟨s', bind_of_ok hcall, hcalled.short hs⟩, hall⟩
    · rw [ht] at ht'
      cases ht'
    · rw [ht] at ht'
      cases ht'
  · rcases hexamine with ⟨⟨t', ht'⟩, -⟩ | ⟨t', ht'⟩ | ⟨⟨t', ht'⟩, hnot⟩
    · rw [ht] at ht'
      cases ht'
    · rw [ht] at ht'
      cases ht'
      exact .inr (.inl ⟨t, bind_of_error hcall⟩)
    · rw [ht] at ht'
      cases ht'
      exact .inr (.inr ⟨⟨t, bind_of_error hcall⟩, hnot⟩)

theorem Turned.short (h : Turned s s') (hs : s.Short) : s'.Short := fun k => by
  rw [h.received]
  exact hs k

theorem NotSent.not_ofFields (h : NotSent f) : ¬ f.OfFields := by
  rcases h with rfl | rfl <;> exact id

end OrderServer

namespace Exchange
variable {x x' : Exchange} {i : Step} {r : MEClientRequest} {f : Fault} {strict : Bool} {is : List Step}

/-- No value of a field has taken the engine down, and no ids outside the tables were accepted. -/
structure Unharmed (x : Exchange) : Prop where
  running : ∀ f, x.engineStop = some f → ¬ f.OfFields
  accepted : ∀ m ∈ x.engine.clientResponses, m.type = .ACCEPTED → InTable m.clientId m.clientOrderId

/-- The clients of all requests that arrive are in range, and a request that the engine takes is
valid. -/
def WellFormed (x : Exchange) : Step → Prop
  | .sendAndRecv socket bytes _ _ => ∀ y ∈ x.server.incoming { socket, bytes }, OrderServer.InRange y.2
  | .processNext => ∀ r ∈ x.server.fifoSequencer.incomingRequests.getNextToRead, Valid r
  | .recvFinishedCallBack _ | .sendClientResponse | .sendNext => True

instance (x : Exchange) (i : Step) : Decidable (WellFormed x i) :=
  match i with
  | .sendAndRecv socket bytes _ _ => inferInstanceAs (Decidable (∀ y ∈ x.server.incoming { socket, bytes }, OrderServer.InRange y.2))
  | .processNext => inferInstanceAs (Decidable (∀ r ∈ x.server.fifoSequencer.incomingRequests.getNextToRead, Valid r))
  | .recvFinishedCallBack _ | .sendClientResponse | .sendNext => inferInstanceAs (Decidable True)

/-- The invariant of the runs all of whose steps are well-formed. -/
structure Guarded (x : Exchange) : Prop where
  short : x.server.Short
  routed : CarriesRouted x
  carries : Carries (fun r => r.clientId.toNat < ME_MAX_NUM_CLIENTS) InTable x
  running : ∀ f, x.engineStop = some f → ¬ f.OfFields

theorem guarded_fresh (strict : Bool) : Guarded (fresh strict) where
  short _ := show 0 < OMClientRequest.size by decide
  routed := carries_fresh _ _ strict
  carries := carries_fresh _ _ strict
  running _ h := by cases h

theorem Guarded.unharmed (h : Guarded x) : Unharmed x where
  running := h.running
  accepted m hm _ := h.carries.sent m hm

/-- A request that the engine takes comes from a client in range; the others of its values are
those of the peer. -/
theorem Guarded.processNext (h : Guarded x) (hready : Ready x .processNext) (hstep : step .processNext x = .ok () x') :
    (Unharmed x' → WellFormed x .processNext) ∧ (WellFormed x .processNext → Guarded x') := by
  have hrouted := CarriesRouted.step h.routed .processNext hready
  obtain ⟨q, hserver⟩ := server_processNext x
  rw [hstep, final_ok] at hrouted hserver
  have hshort : x'.server.Short := by
    rw [hserver]
    exact h.short
  constructor
  · intro hx' r hr
    have hnext : x.server.fifoSequencer.incomingRequests.getNextToRead = some r := hr
    by_contra hinvalid
    have hclient := h.carries.requests.of_getNextToRead hnext
    have hbroken := MatchingEngine.processClientRequest_invalid (e := x.engine) hclient hinvalid
    rcases processNext_of_next hnext with ⟨f, e, hp, heq⟩ | ⟨e, q, hp, -, heq⟩
    · rw [hstep] at heq
      cases heq
      rw [hp] at hbroken
      rcases hbroken with ⟨f', e', hp', hf'⟩ | ⟨m, hm, hacc, hids⟩
      · cases hp'
        exact hx'.running f rfl hf'
      · exact hids (hx'.accepted m hm hacc)
    · rw [hp] at hbroken
      rcases hbroken with ⟨f', e', hp', -⟩ | ⟨m, hm, hacc, hids⟩
      · cases hp'
      · rcases heq with heq | heq <;> rw [hstep] at heq <;> cases heq
        exact hids (hx'.accepted m hm hacc)
  · intro hvalid
    have hcarries := h.carries.processNext hready.1 fun r hr => (hvalid r hr).ids
    rw [hstep] at hcarries
    refine ⟨hshort, hrouted, hcarries, fun f hf => ?_⟩
    cases hnext : x.server.fifoSequencer.incomingRequests.getNextToRead with
    | none =>
      rw [processNext_of_none hnext] at hstep
      cases hstep
      exact h.running f hf
    | some r =>
      rcases processNext_of_next hnext with ⟨f', e, hp, heq⟩ | ⟨e, q, -, -, heq⟩
      · rw [hstep] at heq
        cases heq
        cases hf
        exact (MatchingEngine.processClientRequest_valid (h.carries.books hready.1) (hvalid r hnext) hp).not_ofFields
      · rcases heq with heq | heq <;> rw [hstep] at heq <;> cases heq
        exact h.running f hf

/-- Receiving, as the exchange sees it. -/
theorem Guarded.sendAndRecv (h : Guarded x) (socket : SocketId) (bytes : List UInt8) (rxTime : Nanos) (took : Nat) :
    ((∃ s', Exchange.step (.sendAndRecv socket bytes rxTime took) x = .ok () (x.withServer s') ∧ s'.Short ∧
          OrderServer.Took x.server s') ∧ WellFormed x (.sendAndRecv socket bytes rxTime took)) ∨
      (∃ t, Exchange.step (.sendAndRecv socket bytes rxTime took) x = .error FIFOSequencer.tooManyPendingRequests t) ∨
      (∃ t, Exchange.step (.sendAndRecv socket bytes rxTime took) x = .error .outOfRange t) ∧
        ¬ WellFormed x (.sendAndRecv socket bytes rxTime took) := by
  rcases OrderServer.step_sendAndRecv_cases h.short socket bytes rxTime took with
    ⟨⟨s', hs, hshort⟩, hall⟩ | ⟨t, ht⟩ | ⟨⟨t, ht⟩, hnot⟩
  · have htook : OrderServer.Took x.server s' :=
      (Frame.bind (OrderServer.took_sendAndRecv socket bytes rxTime took) fun _ => .pure _).of_ok hs
    exact .inl ⟨⟨s', focus_of_ok hs, hshort, htook⟩, hall⟩
  · exact .inr (.inl ⟨x.withServer t, focus_of_error ht⟩)
  · exact .inr (.inr ⟨⟨x.withServer t, focus_of_error ht⟩, hnot⟩)

/-- A step that returns has done no harm if and only if it was well-formed. -/
theorem Guarded.step (h : Guarded x) (hready : Ready x i) (hstep : Exchange.step i x = .ok () x') :
    (Unharmed x' → WellFormed x i) ∧ (WellFormed x i → Guarded x') := by
  have hrouted := CarriesRouted.step h.routed i hready
  rw [hstep, final_ok] at hrouted
  cases i with
  | sendAndRecv socket bytes rxTime took =>
    rcases h.sendAndRecv socket bytes rxTime took with ⟨⟨s', hs, hshort, htook⟩, hall⟩ | ⟨t, ht⟩ | ⟨⟨t, ht⟩, -⟩
    · rw [hs] at hstep
      cases hstep
      refine ⟨fun _ => hall, fun _ => ⟨hshort, hrouted, h.carries.took htook fun r hr => ?_, h.running⟩⟩
      exact (htook.pending r hr).imp_right fun ⟨k, hk⟩ => (Admission.socketOf_eq_some.mp hk).1
    · rw [ht] at hstep
      cases hstep
    · rw [ht] at hstep
      cases hstep
  | recvFinishedCallBack sorted =>
    obtain ⟨t, ht, hcarries, -, hsockets, hengine⟩ := h.carries.recvFinishedCallBack hready
    rw [hstep] at ht
    cases ht
    refine ⟨fun _ => trivial, fun _ => ⟨fun k => ?_, hrouted, hcarries, fun f hf => h.running f (hengine ▸ hf)⟩⟩
    rw [hsockets]
    exact h.short k
  | processNext => exact h.processNext hready hstep
  | sendClientResponse =>
    obtain ⟨t, ht, hcarries, -, hsockets, hengine⟩ := h.carries.sendClientResponse
    rw [hstep] at ht
    cases ht
    refine ⟨fun _ => trivial, fun _ => ⟨fun k => ?_, hrouted, hcarries, fun f hf => h.running f (hengine ▸ hf)⟩⟩
    rw [hsockets]
    exact h.short k
  | sendNext =>
    rcases h.routed.sendNext with ⟨s', hs, ht⟩ | ⟨f, s', hs, -, -⟩
    · rw [hs] at hstep
      cases hstep
      exact ⟨fun _ => trivial, fun _ => ⟨ht.short h.short, hrouted, h.carries.turned ht, h.running⟩⟩
    · rw [hs] at hstep
      cases hstep

/-- A well-formed step that stops is not stopped by the value of a field. -/
theorem Guarded.stops (h : Guarded x) (hready : Ready x i) (hwf : WellFormed x i) (hstep : Exchange.step i x = .error f x') :
    ¬ f.OfFields := by
  cases i with
  | sendAndRecv socket bytes rxTime took =>
    rcases h.sendAndRecv socket bytes rxTime took with ⟨⟨s', hs, -⟩, -⟩ | ⟨t, ht⟩ | ⟨-, hnot⟩
    · rw [hs] at hstep
      cases hstep
    · rw [ht] at hstep
      cases hstep
      exact fun hne => hne rfl
    · exact absurd hwf hnot
  | recvFinishedCallBack sorted =>
    obtain ⟨t, ht, -⟩ := h.carries.recvFinishedCallBack hready
    rw [hstep] at ht
    cases ht
  | processNext =>
    cases hnext : x.server.fifoSequencer.incomingRequests.getNextToRead with
    | none =>
      rw [processNext_of_none hnext] at hstep
      cases hstep
    | some r =>
      rcases processNext_of_next hnext with ⟨f', e, -, heq⟩ | ⟨e, q, -, -, heq | heq⟩ <;> rw [hstep] at heq <;> cases heq
      exact id
  | sendClientResponse =>
    obtain ⟨t, ht, -⟩ := h.carries.sendClientResponse
    rw [hstep] at ht
    cases ht
  | sendNext =>
    rcases h.routed.sendNext with ⟨s', hs, -⟩ | ⟨f', s', hs, hf, -⟩
    · rw [hs] at hstep
      cases hstep
    · rw [hs] at hstep
      cases hstep
      exact hf.not_ofFields

/-- The answer to a CANCEL that is refused, with every book as it was. -/
structure Refused (x x' : Exchange) (r : MEClientRequest) : Prop where
  running : x'.engineStop = none
  answer : ∃ m, m.type = .CANCEL_REJECTED ∧ m.clientId = r.clientId ∧ m.clientOrderId = r.orderId ∧
    x'.engine.clientResponses = x.engine.clientResponses ++ [m]
  books : ∀ j, (x'.engine.tickerOrderBook j).holdings = (x.engine.tickerOrderBook j).holdings

theorem refused_processNext {j : Fin ME_MAX_TICKERS} (hready : Ready x .processNext) (hr : Valid r)
    (hnext : x.server.fifoSequencer.incomingRequests.getNextToRead = some r) (hcancel : r.type = .CANCEL)
    (hj : j.val = r.tickerId.toNat) (hunknown : (x.engine.tickerOrderBook j).cidOidToOrder r.clientId r.orderId = none) :
    Refused x (final (Exchange.step .processNext x)) r := by
  obtain ⟨e', hp, hanswer, hbooks⟩ :=
    MatchingEngine.processClientRequest_unknown (e := x.engine) hr.ticker hcancel hr.ids.2 hj hunknown
  rcases processNext_of_next hnext with ⟨f, e, hp', -⟩ | ⟨e, q, hp', -, heq⟩
  · rw [hp] at hp'
    cases hp'
  · rw [hp] at hp'
    cases hp'
    rcases heq with heq | heq
    · rw [heq]
      exact ⟨hready.1, hanswer, hbooks⟩
    · rw [heq]
      exact ⟨hready.1, hanswer, hbooks⟩

/-- A run does no harm if and only if all its steps are well-formed. From where such a run ends
no well-formed step is stopped by the value of a field, and a CANCEL of an order that no book
has is refused. -/
theorem run_unharmed_iff (h : Reaches step Ready (fresh strict) is x) :
    ((∀ js t, js <+: is → Reaches step Ready (fresh strict) js t → Unharmed t) ↔
      Reaches step (fun x i => Ready x i ∧ WellFormed x i) (fresh strict) is x) ∧
    (Reaches step (fun x i => Ready x i ∧ WellFormed x i) (fresh strict) is x →
      (∀ i f x', Ready x i → WellFormed x i → step i x = .error f x' → ¬ f.OfFields) ∧
      ∀ r j, Ready x .processNext → WellFormed x .processNext →
        x.server.fifoSequencer.incomingRequests.getNextToRead = some r → r.type = .CANCEL → j.val = r.tickerId.toNat →
        (x.engine.tickerOrderBook j).cidOidToOrder r.clientId r.orderId = none →
        Refused x (final (step .processNext x)) r) := by
  constructor
  · exact h.always_iff (Q := Guarded) (guarded_fresh strict) (fun _ => Guarded.unharmed)
      fun x i x' hx hready hstep => hx.step hready hstep
  · intro hrun
    have hx : Guarded x := hrun.invariant (I := fun _ x => Guarded x) (guarded_fresh strict)
      fun _ x i x' hx hg hstep => (hx.step hg.1 hstep).2 hg.2
    refine ⟨fun i f x' hready hwf hstep => hx.stops hready hwf hstep, ?_⟩
    intro r j hready hwf hnext hcancel hj hunknown
    exact refused_processNext hready (hwf r hnext) hnext hcancel hj hunknown

/-- The first request of a client arrives, is published and taken by the engine. -/
def firstRequest (r : MEClientRequest) : List Step :=
  [.sendAndRecv 7 (OMClientRequest.codec.encode { seqNum := 1, meClientRequest := r }) 0 0,
    .recvFinishedCallBack [{ recvTime := 0, request := r, no := 0 }], .processNext]

theorem run_unharmed_unknownOrder : ∃ is x, Reaches step Ready (fresh true) is x ∧ Unharmed x ∧
    x.engine.clientResponses.map (·.type) = [.CANCEL_REJECTED] := by
  obtain ⟨x, hrun, htypes⟩ : ∃ x, Reaches step (fun x i => Ready x i ∧ WellFormed x i) (fresh true)
      (firstRequest { type := .CANCEL, clientId := 3, tickerId := 2, orderId := 5, side := .BUY, price := 100, qty := 1 }) x ∧
      x.engine.clientResponses.map (·.type) = [.CANCEL_REJECTED] := exists_of_guarded (by decide +kernel)
  have hready := hrun.mono fun _ _ h => h.1
  exact ⟨_, x, hready, (run_unharmed_iff hready).1.mpr hrun _ x (List.prefix_refl _) hready, htypes⟩

/-- An unknown ticker, an unknown type, and order ids that the index has no entry for. -/
def invalidRequests : List MEClientRequest :=
  [{ type := .NEW, clientId := 3, tickerId := 8, orderId := 5, side := .BUY, price := 100, qty := 1 },
    { type := ⟨7⟩, clientId := 3, tickerId := 2, orderId := 5, side := .BUY, price := 100, qty := 1 },
    { type := .CANCEL, clientId := 3, tickerId := 2, orderId := 1048576, side := .BUY, price := 100, qty := 1 },
    { type := .NEW, clientId := 3, tickerId := 2, orderId := 1048576, side := .BUY, price := 100, qty := 1 }]

/-- Every field that is an index or a selector takes the exchange down with the first request. -/
theorem invalidRequests_stop : (∃ x', step (.sendAndRecv 7 (orderBytes 256 .BUY 1) 0 0) (fresh true) = .error .outOfRange x') ∧
    ∀ r ∈ invalidRequests, ∃ x, Reaches step Ready (fresh true) (firstRequest r) x ∧ ∃ f ∈ x.engineStop, f.OfFields := by
  have hstop : stop (step (.sendAndRecv 7 (orderBytes 256 .BUY 1) 0 0) (fresh true)) = some .outOfRange := by decide +kernel
  refine ⟨stop_eq_some.mp hstop, ?_⟩
  simp only [invalidRequests, List.forall_mem_cons]
  refine ⟨?_, ?_, ?_, ?_, nofun⟩ <;> exact exists_of_guarded (by decide +kernel)

end Exchange
end TradingEcosystem
