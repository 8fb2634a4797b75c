import TradingEcosystem.OrderBook.Owners

/-! Where a call on a book can stop. With the ids of a request in range, and those of the
orders that rest, no table is left and nothing but a pointer or a pool can be at fault. -/
namespace TradingEcosystem.MEOrderBook
open Program Runs
variable {b b' : MEOrderBook} {ring : Slot → List OrderPtr} {p : OrderPtr} {e : Fault} {x : Incoming} {leaves qty : Qty}
  {r : Request}

/-! ## Pointer operations -/

theorem raises_ofHeap {α : Type} {y : BookM α} (h : Raises Fault.OfPointer y) : Raises Fault.OfHeap y :=
  h.mono fun _ he => he.ofHeap

theorem raises_getOrdersAtPrice (price : Price) : Raises Fault.OfPointer (getOrdersAtPrice price) :=
  .of_returns fun _ => ⟨_, _, rfl⟩

theorem raises_setOrdersAtPrice (price : Price) (q : Option LevelPtr) : Raises Fault.OfPointer (setOrdersAtPrice price q) :=
  .of_returns fun _ => ⟨_, _, rfl⟩

theorem raises_bestOrdersByPrice (side : Side) : Raises Fault.OfPointer (bestOrdersByPrice side) :=
  .of_returns fun _ => ⟨_, _, rfl⟩

theorem raises_assignBestOrdersByPrice (side : Side) (q : Option LevelPtr) :
    Raises Fault.OfPointer (assignBestOrdersByPrice side q) :=
  .ite (.pure _) (.of_returns fun _ => ⟨_, _, rfl⟩)

theorem raises_unlinkLevel (side : Side) (best ordersAtPrice : Option LevelPtr) :
    Raises Fault.OfPointer (unlinkLevel side best ordersAtPrice) := by
  apply Raises.bind (raises_level _)
  intro l
  apply Raises.ite (raises_assignBestOrdersByPrice _ _)
  apply Raises.bind (raises_setLevel _ _)
  intro _
  apply Raises.bind (raises_level _)
  intro l
  apply Raises.bind (raises_setLevel _ _)
  intro _
  apply Raises.ite
  · apply Raises.bind (raises_level _)
    intro l
    exact .bind (raises_assignBestOrdersByPrice _ _) fun _ => raises_setLevel _ _
  · exact raises_setLevel _ _

theorem raises_removeOrdersAtPrice (side : Side) (price : Price) :
    Raises Fault.OfHeap (removeOrdersAtPrice side price) := by
  apply Raises.bind (raises_ofHeap (raises_bestOrdersByPrice _))
  intro best
  apply Raises.bind (raises_ofHeap (raises_getOrdersAtPrice _))
  intro slot
  apply Raises.bind (raises_ofHeap (raises_unlinkLevel _ _ _))
  intro _
  exact .bind (raises_ofHeap (raises_setOrdersAtPrice _ _)) fun _ => raises_deallocateLevel _

theorem raises_unlinkOrder (q : Option OrderPtr) (o : MEOrder) (slot : Option LevelPtr) :
    Raises Fault.OfHeap (unlinkOrder q o slot) := by
  apply Raises.ite (raises_removeOrdersAtPrice _ _)
  apply Raises.bind (raises_ofHeap (raises_setOrder _ _))
  intro _
  apply Raises.bind (raises_ofHeap (raises_setOrder _ _))
  intro _
  apply Raises.bind (raises_ofHeap (raises_level _))
  intro l
  apply Raises.ite
  · exact .bind (raises_ofHeap (raises_setLevel _ _)) fun _ => raises_ofHeap (raises_setOrder _ _)
  · exact raises_ofHeap (raises_setOrder _ _)

theorem raises_addAfterLoop (new : LevelPtr) (best : Option LevelPtr) (fuel : Nat) (after : Bool)
    (target : Option LevelPtr) : Raises Fault.OfPointer (addAfterLoop new best fuel after target) := by
  induction fuel generalizing after target with
  | zero => exact .throw trivial
  | succ fuel ih =>
    refine Raises.ite ?_ (.pure _)
    apply Raises.bind (raises_level _)
    intro n
    apply Raises.bind (raises_level _)
    intro t
    exact .ite (ih _ _) (ih _ _)

theorem raises_findTarget (new : LevelPtr) (best : Option LevelPtr) : Raises Fault.OfPointer (findTarget new best) := by
  apply Raises.bind (raises_level _)
  intro n
  apply Raises.bind (raises_level _)
  intro t
  refine Raises.ite ?_ (raises_addAfterLoop _ _ _ _ _)
  exact .bind (raises_level _) fun t => raises_addAfterLoop _ _ _ _ _

theorem raises_linkAfter (new : LevelPtr) (target : Option LevelPtr) : Raises Fault.OfPointer (linkAfter new target) := by
  apply Raises.bind (raises_setLevel _ _)
  intro _
  apply Raises.bind (raises_level _)
  intro t
  exact .bind (raises_setLevel _ _) fun _ => raises_setLevel _ _

theorem raises_insertAfter (new : LevelPtr) (best target : Option LevelPtr) :
    Raises Fault.OfPointer (insertAfter new best target) :=
  .ite (.bind (raises_level _) fun _ => raises_linkAfter _ _) (raises_linkAfter _ _)

theorem raises_insertBefore (new : LevelPtr) (best target : Option LevelPtr) :
    Raises Fault.OfPointer (insertBefore new best target) := by
  apply Raises.bind (raises_level _)
  intro t
  apply Raises.bind (raises_setLevel _ _)
  intro _
  apply Raises.bind (raises_setLevel _ _)
  intro _
  apply Raises.bind (raises_level _)
  intro t
  apply Raises.bind (raises_setLevel _ _)
  intro _
  apply Raises.bind (raises_setLevel _ _)
  intro _
  apply Raises.bind (raises_level _)
  intro n
  apply Raises.bind (raises_level _)
  intro l
  refine Raises.ite ?_ (.pure _)
  apply Raises.bind (raises_level _)
  intro t
  exact .bind (raises_setLevel _ _) fun _ => raises_assignBestOrdersByPrice _ _

theorem raises_addOrdersAtPrice (new : LevelPtr) : Raises Fault.OfPointer (addOrdersAtPrice new) := by
  apply Raises.bind (raises_level _)
  intro l
  apply Raises.bind (raises_setOrdersAtPrice _ _)
  intro _
  apply Raises.bind (raises_bestOrdersByPrice _)
  intro best
  apply Raises.ite
  · exact .bind (raises_assignBestOrdersByPrice _ _) fun _ => raises_setLevel _ _
  · apply Raises.bind (raises_findTarget _ _)
    intro found
    exact .ite (raises_insertAfter _ _ _) (raises_insertBefore _ _ _)

theorem raises_linkOrder (p : OrderPtr) (o : MEOrder) (slot : Option LevelPtr) : Raises Fault.OfHeap (linkOrder p o slot) := by
  apply Raises.ite
  · apply Raises.bind (raises_ofHeap (raises_setOrder _ _))
    intro _
    exact .bind (raises_allocateLevel _) fun n => raises_ofHeap (raises_addOrdersAtPrice n)
  · apply Raises.bind (raises_ofHeap (raises_level _))
    intro l
    apply Raises.bind (raises_ofHeap (raises_order _))
    intro o
    apply Raises.bind (raises_ofHeap (raises_setOrder _ _))
    intro _
    apply Raises.bind (raises_ofHeap (raises_order _))
    intro o
    apply Raises.bind (raises_ofHeap (raises_setOrder _ _))
    intro _
    exact .bind (raises_ofHeap (raises_setOrder _ _)) fun _ => raises_ofHeap (raises_setOrder _ _)

theorem raises_getNextPriority (price : Price) : Raises Fault.OfHeap (getNextPriority price) := by
  apply Raises.bind (raises_ofHeap (raises_getOrdersAtPrice _))
  intro slot
  refine Raises.ite (.pure _) ?_
  apply Raises.bind (raises_ofHeap (raises_level _))
  intro l
  apply Raises.bind (raises_ofHeap (raises_order _))
  intro o
  exact .bind (raises_ofHeap (raises_order _)) fun o => .pure _

/-! ## Calls on a book -/

/-- Ids for which `cid_oid_to_order_` has an entry. -/
def InTable (clientId : ClientId) (orderId : OrderId) : Prop :=
  clientId.toNat < ME_MAX_NUM_CLIENTS ∧ orderId.toNat < ME_MAX_ORDER_IDS

theorem raises_setCidOidToOrder {c : ClientId} {k : OrderId} (h : InTable c k) (q : Option OrderPtr) :
    Raises Fault.OfHeap (setCidOidToOrder c k q) := by
  have hbounds : c.toNat < ME_MAX_NUM_CLIENTS ∧ k.toNat < ME_MAX_ORDER_IDS := h
  unfold setCidOidToOrder
  rw [if_pos hbounds]
  exact .of_returns fun _ => ⟨_, _, rfl⟩

theorem removeOrder_error (h : b.Names InTable p) (hr : removeOrder (some p) b = .error e b') : e.OfHeap := by
  refine Raises.bind_at (raises_ofHeap (raises_order _)) (fun o b₁ ho he => ?_) hr
  obtain ⟨_, ⟨⟩, -, rfl, rfl⟩ := order_ok.mp ho
  have hrest : Raises Fault.OfHeap (do
      let ordersAtPrice ← getOrdersAtPrice (b₁.orderPool.get p).price
      unlinkOrder (some p) (b₁.orderPool.get p) ordersAtPrice
      setCidOidToOrder (b₁.orderPool.get p).clientId (b₁.orderPool.get p).clientOrderId none
      deallocateOrder (some p)) := by
    apply Raises.bind (raises_ofHeap (raises_getOrdersAtPrice _))
    intro slot
    apply Raises.bind (raises_unlinkOrder _ _ _)
    intro _
    exact .bind (raises_setCidOidToOrder h _) fun _ => raises_deallocateOrder _
  exact hrest _ _ _ he

theorem addOrder_error (h : b.Names InTable p) (ha : addOrder p b = .error e b') : e.OfHeap := by
  refine Raises.bind_at (raises_ofHeap (raises_order _)) (fun o b₁ ho he => ?_) ha
  obtain ⟨_, ⟨⟩, -, rfl, rfl⟩ := order_ok.mp ho
  have hrest : Raises Fault.OfHeap (do
      let ordersAtPrice ← getOrdersAtPrice (b₁.orderPool.get p).price
      linkOrder p (b₁.orderPool.get p) ordersAtPrice
      setCidOidToOrder (b₁.orderPool.get p).clientId (b₁.orderPool.get p).clientOrderId (some p)) := by
    apply Raises.bind (raises_ofHeap (raises_getOrdersAtPrice _))
    intro slot
    exact .bind (raises_linkOrder _ _ _) fun _ => raises_setCidOidToOrder h _
  exact hrest _ _ _ he

theorem rest_error (h : InTable x.clientId x.clientOrderId) (hr : x.rest leaves b = .error e b') : e.OfHeap := by
  refine Raises.bind_at (raises_getNextPriority _) (fun priority b₁ _ he => ?_) hr
  refine Raises.bind_at (raises_allocateOrder _) (fun p b₂ ha he => ?_) he
  obtain ⟨-, -, next, -, rfl⟩ := allocateOrder_ok ha
  rw [bind_apply] at he
  cases hadd : addOrder p (b₁.taken p _ next) with
  | error e' b₃ =>
    rw [hadd] at he
    cases he
    refine addOrder_error ?_ hadd
    unfold Names
    simp only [taken, MemPool.get_take, if_true]
    exact h
  | ok _ b₃ =>
    rw [hadd] at he
    cases he

/-- A fill stops where its pointers are at fault, if the ids of the order it fills are in range. -/
theorem trade_error_ofHeap (h : b.Names InTable p) (ht : x.trade (some p) leaves b = .error e b') : e.OfHeap := by
  cases ho : order (some p) b with
  | error e' b₁ =>
    have hstop : x.trade (some p) leaves b = .error e' b₁ := bind_of_error ho
    rw [hstop] at ht
    cases ht
    exact (raises_order _ _ _ _ ho).ofHeap
  | ok o b₁ =>
    obtain ⟨_, ⟨⟩, hs, -, -⟩ := order_ok.mp ho
    rw [trade_apply x hs] at ht
    split_ifs at ht with hq
    cases hr : removeOrder (some p) (b.filled x p leaves) with
    | ok _ b₂ =>
      rw [hr] at ht
      cases ht
    | error e' b₂ =>
      rw [hr] at ht
      cases ht
      refine removeOrder_error ?_ hr
      unfold Names
      rw [view_filled x p MEOrder.clientId, view_filled x p MEOrder.clientOrderId]
      exact h

variable {P : ClientId → OrderId → Prop} (hP : ∀ c k, P c k → InTable c k)
include hP

theorem matching_error_ofHeap (hb : HeapInv b ring) (hbids : b.bidsAtPrice = none) (h : OwnedBy P b ring (some (x, qty)))
    (hm : x.matching qty b = .error e b') : e.OfHeap := by
  obtain ⟨b₁, leaves, ⟨ring₁, hb₁, howned, hx⟩, ⟨-, he⟩ | ⟨p, hs, ht, herr⟩⟩ := matching_error
    (J := fun b leaves => ∃ ring, HeapInv b ring ∧ OwnedBy P b ring (some (x, leaves))) hbids
    (fun _ _ _ _ _ hj hs ht h => (keepsTurns_owned P).turn hj hs ht h) ⟨ring, hb, h⟩ hm
  · exact he
  · obtain ⟨ℓ, -, -, hfirst⟩ := ht.first
    exact trade_error_ofHeap (hP _ _ (howned.firsts ℓ p hfirst)) herr

theorem cancel_error_ofHeap (hb : HeapInv b ring) (h : Owned P b) {clientId : ClientId} {orderId : OrderId}
    {tickerId : TickerId} (hk : P clientId orderId) (hc : cancel clientId orderId tickerId b = .error e b') : e.OfHeap := by
  obtain ⟨hclient, horder⟩ := hP _ _ hk
  have he : exchangeOrder clientId orderId b = .ok (b.cidOidToOrder clientId orderId) b :=
    exchangeOrder_ok.mpr ⟨rfl, .inr ⟨hclient, horder, rfl⟩⟩
  rw [cancel, bind_of_ok he] at hc
  cases hp : b.cidOidToOrder clientId orderId with
  | none =>
    rw [hp, if_pos rfl] at hc
    cases hc
  | some p =>
    rw [hp, if_neg (Option.some_ne_none p)] at hc
    obtain ⟨hlive, -, -⟩ := hb.indexed _ _ _ hp
    refine Raises.bind_at (raises_ofHeap (raises_order _)) (fun o b₁ ho hc => ?_) hc
    obtain ⟨_, ⟨⟩, -, rfl, rfl⟩ := order_ok.mp ho
    rw [bind_apply] at hc
    cases hr : removeOrder (some p) b₁ with
    | error e' b₂ =>
      rw [hr] at hc
      cases hc
      exact removeOrder_error (hP _ _ (h.orders p hlive)) hr
    | ok _ b₂ =>
      rw [hr] at hc
      cases hc

/-- A request with ids in range stops a sound book where a pointer or a pool is at fault. -/
theorem Sound.call_error (h : Sound P b) (hr : r.Names P) (hcall : MEOrderBook.call r b = .error e b') : e.OfHeap := by
  obtain ⟨⟨ring, hb⟩, hbids, howned⟩ := h
  cases r with
  | add clientId clientOrderId tickerId side price qty =>
    obtain ⟨x, hx⟩ : ∃ x, x = b.incoming clientId clientOrderId tickerId side price := ⟨_, rfl⟩
    have hacc : OwnedBy P (b.accepted x qty) ring (some (x, qty)) := (keeps_owned P).accept hb ⟨howned, nofun⟩ hr hx
    rcases add_error hx hcall with herr | ⟨leaves, b₁, hm, herr⟩
    · exact matching_error_ofHeap hP (heap_accepted hb x qty) hbids hacc herr
    · refine rest_error ?_ herr
      rw [hx]
      exact hP _ _ hr
  | cancel clientId orderId tickerId => exact cancel_error_ofHeap hP hb howned hr hcall

end TradingEcosystem.MEOrderBook
